/-
Plans made one segment of the input at a time.

A planner that keeps its pending literal from one piece of the input to the next makes
the plan of the whole walk.  One that writes the literal out at the end of every piece
cuts it in two wherever the walk settles a literal on both sides.  `segments` are the
events settled with each piece, and `isChain_segments_iff` says when planning them one
by one puts no two literals next to each other.
-/
import AeroFtp.Lib.GreedyWalk
import AeroFtp.Lib.Framing

namespace AeroFtp.Greedy

open Framing List Option

variable {α ι : Type}

/-! ### The kinds of a plan -/

/-- The operations of a plan, literals as `true` and references as `false`. -/
def planKinds (p : List α) (es : List (Event α ι)) : List Bool :=
  plan (fun _ => true) (fun _ => false) p es

theorem planKinds_copy (p : List α) (i : ι) (w : List α) (es : List (Event α ι)) :
    planKinds p (.copy i w :: es) = flush (fun _ => true) p ++ false :: planKinds [] es :=
  plan_copy _ _ p i w es

variable (es : List (Event α ι)) (segs : List (List (Event α ι)))

theorem head?_planKinds : ∀ p : List α, (planKinds p es).head?
      = if p.isEmpty then es.head?.map Event.isLit else some true := by
  induction es with
  | nil =>
    intro p
    cases p with
    | nil => rfl
    | cons x xs => rfl
  | cons e es ih =>
    intro p
    cases e with
    | lit x =>
      refine (ih (p ++ [x])).trans ?_
      rw [if_neg (by simp)]
      split
      · rfl
      · rfl
    | copy i w =>
      cases p with
      | nil => rfl
      | cons x xs => rfl

theorem getLast?_planKinds : ∀ p : List α, (planKinds p es).getLast?
      = (es.getLast?.map Event.isLit).or (if p.isEmpty then none else some true) := by
  induction es with
  | nil =>
    intro p
    cases p with
    | nil => rfl
    | cons x xs => rfl
  | cons e es ih =>
    intro p
    rw [getLast?_cons]
    cases e with
    | lit x =>
      refine (ih (p ++ [x])).trans ?_
      rw [if_neg (by simp)]
      cases es.getLast? with
      | none => rfl
      | some e => rfl
    | copy i w =>
      rw [planKinds_copy, getLast?_append, getLast?_cons, ih []]
      cases es.getLast? with
      | none => rfl
      | some e => rfl

theorem isChain_planKinds : ∀ p : List α, (planKinds p es).IsChain Apart := by
  have hf : ∀ p : List α, (flush (fun _ => true) p).IsChain Apart := by
    intro p
    cases p with
    | nil => exact .nil
    | cons x xs => exact .singleton true
  induction es with
  | nil => exact hf
  | cons e es ih =>
    intro p
    cases e with
    | lit x => exact ih (p ++ [x])
    | copy i w =>
      rw [planKinds_copy, isChain_append]
      refine ⟨hf p, isChain_cons.mpr ⟨?_, ih []⟩, ?_⟩
      · intro y _
        exact .inl rfl
      · intro x _ y hy
        rw [head?_cons, mem_some_iff] at hy
        exact .inr hy.symm

/-! ### Cuts between events -/

/-- A literal on both sides of a cut. -/
def CutsLiteral (a b : List (Event α ι)) : Prop :=
  a.getLast?.map Event.isLit = some true ∧ b.head?.map Event.isLit = some true

instance (a b : List (Event α ι)) : Decidable (CutsLiteral a b) :=
  inferInstanceAs (Decidable (_ ∧ _))

theorem head?_flatMap_planKinds :
    (segs.flatMap (planKinds [])).head? = segs.flatten.head?.map Event.isLit := by
  induction segs with
  | nil => rfl
  | cons es segs ih =>
    rw [flatMap_cons, flatten_cons, head?_append, head?_append, ih, head?_planKinds, map_or]
    rfl

theorem cutsLiteral_cons_iff :
    (∀ k < segs.length, ¬ CutsLiteral (es ++ (segs.take k).flatten) (segs.drop k).flatten)
      ↔ ¬ CutsLiteral es segs.flatten ∧
        ∀ k < segs.length, ¬ CutsLiteral (segs.take k).flatten (segs.drop k).flatten := by
  constructor
  · intro h
    refine ⟨?_, ?_⟩
    · intro hcut
      cases segs with
      | nil => cases hcut.2
      | cons fs segs =>
        refine h 0 (Nat.zero_lt_succ _) ?_
        rw [take_zero, flatten_nil, append_nil]
        exact hcut
    · intro k hk hcut
      refine h k hk ⟨?_, hcut.2⟩
      rw [getLast?_append, map_or, hcut.1]
      rfl
  · intro ⟨hf, hr⟩ k hk hcut
    have hl := hcut.1
    rw [getLast?_append] at hl
    by_cases hnil : (segs.take k).flatten = []
    · -- Nothing was settled in between, so the cut is the one behind `es`.
      refine hf ⟨?_, ?_⟩
      · rw [hnil] at hl
        exact hl
      · have hs := congrArg flatten (take_append_drop k segs)
        rw [flatten_append, hnil] at hs
        rw [← hs]
        exact hcut.2
    · refine hr k hk ⟨?_, hcut.2⟩
      rw [getLast?_eq_some_getLast hnil] at hl ⊢
      exact hl

/-- Planning pieces one by one keeps literals apart exactly when no cut between two
pieces has a literal on both sides. -/
theorem isChain_flatMap_planKinds_iff : (segs.flatMap (planKinds [])).IsChain Apart
      ↔ ∀ k < segs.length, ¬ CutsLiteral (segs.take k).flatten (segs.drop k).flatten := by
  induction segs with
  | nil => exact iff_of_true .nil (fun k hk => absurd hk (Nat.not_lt_zero k))
  | cons es segs ih =>
    have hj : (∀ x ∈ (planKinds [] es).getLast?, ∀ y ∈ (segs.flatMap (planKinds [])).head?,
        Apart x y) ↔ ¬ CutsLiteral es segs.flatten := by
      rw [getLast?_planKinds, head?_flatMap_planKinds, CutsLiteral]
      simp only [isEmpty_nil, if_true, or_none, mem_def]
      cases es.getLast?.map Event.isLit with
      | none => simp
      | some x =>
        cases segs.flatten.head?.map Event.isLit with
        | none => simp
        | some y =>
          revert x y
          simp only [some.injEq, forall_eq', Apart]
          decide
    rw [flatMap_cons, isChain_append, hj, ih]
    refine (and_iff_right (isChain_planKinds es [])).trans (and_comm.trans ?_)
    rw [← cutsLiteral_cons_iff]
    constructor
    · intro h k hk
      cases k with
      | zero =>
        intro hcut
        cases hcut.1
      | succ k => exact h k (Nat.lt_of_succ_lt_succ hk)
    · intro h k hk
      exact h (k + 1) (Nat.succ_lt_succ hk)

/-! ### Segments -/

/-- The events settled with each piece of the input; `rest` was left undecided before.
The last piece settles all that is left. -/
def segments (n : Nat) (hit : List α → Option ι) :
    List α → List (List α) → List (List (Event α ι))
  | _, [] => []
  | rest, [piece] => [walk n hit (rest ++ piece)]
  | rest, piece :: next :: pieces =>
    (advance n hit (rest ++ piece)).1
      :: segments n hit (advance n hit (rest ++ piece)).2 (next :: pieces)

section Segments

variable {n : Nat} {hit : List α → Option ι}

theorem length_segments (pieces : List (List α)) :
    ∀ rest, (segments n hit rest pieces).length = pieces.length := by
  induction pieces with
  | nil =>
    intro rest
    rfl
  | cons piece pieces ih =>
    intro rest
    cases pieces with
    | nil => rfl
    | cons next pieces => exact congrArg (· + 1) (ih _)

theorem flatten_segments (hn : 0 < n) (pieces : List (List α)) :
    ∀ rest, pieces ≠ [] → (segments n hit rest pieces).flatten = walk n hit
      (rest ++ pieces.flatten) := by
  induction pieces with
  | nil =>
    intro rest hne
    exact absurd rfl hne
  | cons piece pieces ih =>
    intro rest _
    cases pieces with
    | nil => simp [segments]
    | cons next pieces =>
      rw [segments, flatten_cons, ih _ (cons_ne_nil _ _), ← walk_append hn,
        flatten_cons (l := piece), append_assoc]

/-- In front of a piece the segments are what the pieces before it settle. -/
theorem segments_cut (hn : 0 < n) (pieces : List (List α)) :
    ∀ (k : Nat) (s : List α), k < pieces.length →
      let rest := (advance n hit s).2
      let before := advance n hit (s ++ (pieces.take k).flatten)
      (advance n hit s).1 ++ ((segments n hit rest pieces).take k).flatten = before.1 ∧
        ((segments n hit rest pieces).drop k).flatten
          = walk n hit (before.2 ++ (pieces.drop k).flatten) := by
  induction pieces with
  | nil =>
    intro k s hk
    exact absurd hk (Nat.not_lt_zero k)
  | cons piece pieces ih =>
    intro k s hk
    cases k with
    | zero =>
      simp only [take_zero, flatten_nil, append_nil, drop_zero]
      exact ⟨trivial, flatten_segments hn _ _ (cons_ne_nil _ _)⟩
    | succ k =>
      cases pieces with
      | nil => exact absurd (Nat.lt_of_succ_lt_succ hk) (Nat.not_lt_zero k)
      | cons next pieces =>
        have hs := @advance_append α ι n hit hn s piece
        obtain ⟨hb, hafter⟩ := ih k (s ++ piece) (Nat.lt_of_succ_lt_succ hk)
        rw [hs] at hb hafter
        simp only [segments, take_succ_cons, drop_succ_cons, flatten_cons, ← append_assoc]
        exact ⟨hb, hafter⟩

/-- **Planning piece by piece** keeps literals apart exactly when no literal is settled
on both sides of the end of a piece. -/
theorem isChain_segments_iff (hn : 0 < n) (pieces : List (List α)) :
    ((segments n hit [] pieces).flatMap (planKinds [])).IsChain Apart
      ↔ ∀ k < pieces.length, ¬ CutsLiteral (advance n hit (pieces.take k).flatten).1
          (walk n hit ((advance n hit (pieces.take k).flatten).2 ++ (pieces.drop k).flatten)) := by
  rw [isChain_flatMap_planKinds_iff, length_segments]
  refine forall_congr' fun k => forall_congr' fun hk => ?_
  obtain ⟨hb, ha⟩ := @segments_cut α ι n hit hn pieces k [] hk
  rw [nil_append] at hb ha
  rw [← hb, ← ha]
  rfl

end Segments

end AeroFtp.Greedy
