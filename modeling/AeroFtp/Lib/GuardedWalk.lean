/-
A depth-first walk with a guard against cycles.

The walk enters a place, then the places its edges lead to, in their order.  It enters no place
twice, whatever the edges, and none that lies deeper than a bound; what it gives is the places
entered, each with the way it was entered by.

The ways start at the root and follow edges, and a place has one way.  An edge from a place
that was entered leads to one that was entered, unless it leads too deep.  Where edges to new
places are added, and no edge leads back from those, the walk enters the old places as before.
-/
import Mathlib.Data.List.Nodup

namespace AeroFtp.GuardedWalk

open List

variable {D N : Type} [DecidableEq D]

/-- The places entered so far, and then by the walk from `d`. -/
def enter (children : D → List (N × D)) : Nat → List N → D → List (List N × D) → List (List N × D)
  | 0, _, _, acc => acc
  | fuel + 1, way, d, acc =>
    if (acc.map Prod.snd).contains d then acc
    else
      (children d).foldl (fun acc e => enter children fuel (way ++ [e.1]) e.2 acc)
        (acc ++ [(way, d)])

/-- The places entered by a walk from a root, of ways shorter than `depth`. -/
def entered (children : D → List (N × D)) (depth : Nat) (root : D) : List (List N × D) :=
  enter children depth [] root []

section Enter

variable {children : D → List (N × D)} {fuel : Nat} {way : List N} {d : D}
  {acc : List (List N × D)}

/-- The walk along some edges of a place that was entered by `way`. -/
def enterAll (children : D → List (N × D)) (fuel : Nat) (way : List N) (es : List (N × D))
    (acc : List (List N × D)) : List (List N × D) :=
  es.foldl (fun acc e => enter children fuel (way ++ [e.1]) e.2 acc) acc

theorem enterAll_cons (e : N × D) (es : List (N × D)) : enterAll children fuel way (e :: es) acc
    = enterAll children fuel way es (enter children fuel (way ++ [e.1]) e.2 acc) := rfl

theorem enterAll_append (es es' : List (N × D)) : enterAll children fuel way (es ++ es') acc
    = enterAll children fuel way es' (enterAll children fuel way es acc) :=
  foldl_append

theorem enter_of_mem (h : d ∈ acc.map Prod.snd) : enter children fuel way d acc = acc := by
  cases fuel with
  | zero => rfl
  | succ fuel =>
    rw [enter, if_pos]
    simpa using h

theorem enter_of_notMem (h : d ∉ acc.map Prod.snd) : enter children (fuel + 1) way d acc
      = enterAll children fuel way (children d) (acc ++ [(way, d)]) := by
  rw [enter, if_neg, enterAll]
  simpa using h

theorem subset_enter : acc ⊆ enter children fuel way d acc := by
  induction fuel generalizing way d acc with
  | zero => exact List.Subset.refl acc
  | succ fuel ih =>
    by_cases h : d ∈ acc.map Prod.snd
    · rw [enter_of_mem h]
      exact List.Subset.refl acc
    · rw [enter_of_notMem h]
      exact foldlRecOn (motive := (acc ⊆ ·)) _ _ (subset_append_left acc _)
        fun _ hsub _ _ => List.Subset.trans hsub ih

variable {es : List (N × D)}

theorem subset_enterAll : acc ⊆ enterAll children fuel way es acc :=
  foldlRecOn (motive := (acc ⊆ ·)) _ _ (List.Subset.refl acc)
    fun _ hsub _ _ => List.Subset.trans hsub subset_enter

theorem mem_enter_self : d ∈ (enter children (fuel + 1) way d acc).map Prod.snd := by
  by_cases h : d ∈ acc.map Prod.snd
  · rw [enter_of_mem h]
    exact h
  · rw [enter_of_notMem h]
    exact map_subset _ subset_enterAll (by simp)

variable {depth : Nat}

/-- **What each entry preserves the walk preserves.** -/
theorem enter_invariant (P : List (List N × D) → Prop)
    (hp : ∀ acc way d n c, P acc → (way, d) ∈ acc → (n, c) ∈ children d →
      c ∉ acc.map Prod.snd → way.length + 1 < depth → P (acc ++ [(way ++ [n], c)]))
    (hd : fuel + way.length = depth) (hacc : P acc)
    (hs : 0 < fuel → d ∉ acc.map Prod.snd → P (acc ++ [(way, d)])) :
    P (enter children fuel way d acc) := by
  induction fuel generalizing way d acc with
  | zero => exact hacc
  | succ fuel ih =>
    by_cases h : d ∈ acc.map Prod.snd
    · rw [enter_of_mem h]
      exact hacc
    rw [enter_of_notMem h]
    -- along the edges the place stays entered by this way
    refine (foldlRecOn (motive := fun acc => P acc ∧ (way, d) ∈ acc) _ _
      ⟨hs (Nat.succ_pos fuel) h, by simp⟩ fun acc ⟨hP, hmem⟩ e he => ⟨?_, subset_enter hmem⟩).1
    refine ih (by simp; omega) hP fun hf hnew => ?_
    exact hp acc way d e.1 e.2 hP hmem he hnew (by omega)

/-- Every edge of an entry leads to a place that is entered, or too deep. -/
def Explored (children : D → List (N × D)) (depth : Nat) (acc : List (List N × D))
    (x : List N × D) : Prop :=
  ∀ e ∈ children x.2, x.1.length + 1 < depth → e.2 ∈ acc.map Prod.snd

omit [DecidableEq D] in
theorem Explored.mono {acc acc' : List (List N × D)} {x : List N × D}
    (h : Explored children depth acc x) (hsub : acc ⊆ acc') : Explored children depth acc' x :=
  fun e he hlt => map_subset _ hsub (h e he hlt)

theorem mem_enterAll (hd : fuel + 1 + way.length = depth) {e : N × D} (he : e ∈ es)
    (hlt : way.length + 1 < depth) : e.2 ∈ (enterAll children fuel way es acc).map Prod.snd := by
  obtain ⟨k, rfl⟩ : ∃ k, fuel = k + 1 := ⟨fuel - 1, by omega⟩
  obtain ⟨before, after, rfl⟩ := append_of_mem he
  rw [enterAll_append, enterAll_cons]
  exact map_subset _ subset_enterAll mem_enter_self

theorem enter_explored (hd : fuel + way.length = depth) :
    ∀ x ∈ enter children fuel way d acc,
      x ∈ acc ∨ Explored children depth (enter children fuel way d acc) x := by
  induction fuel generalizing way d acc with
  | zero => exact fun x hx => .inl hx
  | succ fuel ih =>
    by_cases h : d ∈ acc.map Prod.snd
    · rw [enter_of_mem h]
      exact fun x hx => .inl hx
    rw [enter_of_notMem h]
    have hall : ∀ x ∈ enterAll children fuel way (children d) (acc ++ [(way, d)]),
        x ∈ acc ++ [(way, d)] ∨
          Explored children depth (enterAll children fuel way (children d)
            (acc ++ [(way, d)])) x := by
      refine foldlRecOn (motive := fun acc' => ∀ x ∈ acc', x ∈ acc ++ [(way, d)] ∨
        Explored children depth acc' x) _ _ (fun x hx => .inl hx) fun acc' hacc' e _ x hx => ?_
      rcases ih (by simp; omega) x hx with hx | hx
      · exact (hacc' x hx).imp id fun h => h.mono subset_enter
      · exact .inr hx
    intro x hx
    rcases hall x hx with hx | hx
    · rcases mem_append.mp hx with hx | hx
      · exact .inl hx
      · rw [mem_singleton] at hx
        subst hx
        exact .inr fun e he => mem_enterAll hd he
    · exact .inr hx

end Enter

/-! ### The whole walk -/

section Entered

variable {children : D → List (N × D)} {depth : Nat} {root : D}

theorem entered_sound {x : List N × D} (hx : x ∈ entered children depth root) :
    x = ([], root) ∨ ∃ way d n, (way, d) ∈ entered children depth root ∧
      (n, x.2) ∈ children d ∧ x.1 = way ++ [n] := by
  revert x
  refine enter_invariant (fun acc => ∀ {x}, x ∈ acc → x = ([], root) ∨ ∃ way d n, (way, d) ∈ acc ∧
      (n, x.2) ∈ children d ∧ x.1 = way ++ [n]) ?_ (Nat.add_zero depth)
    (fun hx => absurd hx not_mem_nil) ?_
  · intro acc way d n c hP hmem he _ _ x hx
    rcases mem_append.mp hx with hx | hx
    · refine (hP hx).imp id ?_
      intro ⟨way', d', n', hmem', hr⟩
      exact ⟨way', d', n', mem_append_left _ hmem', hr⟩
    · rw [mem_singleton] at hx
      subst hx
      exact .inr ⟨way, d, n, mem_append_left _ hmem, he, rfl⟩
  · intro _ _ x hx
    rw [nil_append, mem_singleton] at hx
    exact .inl hx

theorem entered_nodup : ((entered children depth root).map Prod.snd).Nodup := by
  refine enter_invariant (fun acc => (acc.map Prod.snd).Nodup) ?_ (Nat.add_zero depth)
    (by simp) (by simp)
  intro acc way d n c hP _ _ hnew _
  rw [map_append, nodup_append]
  refine ⟨hP, by simp, fun a ha b hb heq => ?_⟩
  simp only [map_cons, map_nil, mem_singleton] at hb
  subst heq
  subst hb
  exact hnew ha

theorem entered_way_unique {way way' : List N} {d : D} (h : (way, d) ∈ entered children depth root)
    (h' : (way', d) ∈ entered children depth root) : way = way' := by
  have heq := inj_on_of_nodup_map entered_nodup h h' rfl
  exact congrArg Prod.fst heq

theorem entered_lt {x : List N × D} (hx : x ∈ entered children depth root) :
    x.1.length < depth := by
  revert x
  refine enter_invariant (fun acc => ∀ {x}, x ∈ acc → x.1.length < depth) ?_ (Nat.add_zero depth)
    (fun hx => absurd hx not_mem_nil) ?_
  · intro acc way d n c hP _ _ _ hlt x hx
    rcases mem_append.mp hx with hx | hx
    · exact hP hx
    · rw [mem_singleton] at hx
      subst hx
      simpa using hlt
  · intro hd _ x hx
    rw [nil_append, mem_singleton] at hx
    subst hx
    exact hd

/-- **An edge from an entry leads to an entry, unless it leads too deep.** -/
theorem entered_complete {way : List N} {d : D} {n : N} {c : D}
    (h : (way, d) ∈ entered children depth root) (hedge : (n, c) ∈ children d)
    (hlt : way.length + 1 < depth) : ∃ way', (way', c) ∈ entered children depth root := by
  have hexplored := enter_explored (Nat.add_zero depth) (way, d) h
  rcases hexplored with h | h
  · cases h
  · obtain ⟨x, hx, hc⟩ := mem_map.mp (h (n, c) hedge hlt)
    obtain ⟨way', c'⟩ := x
    subst hc
    exact ⟨way', hx⟩

end Entered

/-! ### Walks along more edges -/

section Extension

variable {children children' : D → List (N × D)} {fresh : D → Bool}

/-- The edges are those of `children` and more, to fresh places, from which only fresh ones are
reached. -/
structure Extends (children children' : D → List (N × D)) (fresh : D → Bool) : Prop where
  old : ∀ d, fresh d = false → (children' d).filter (fun e => !fresh e.2) = children d
  new : ∀ d, fresh d = true → ∀ e ∈ children' d, fresh e.2 = true

variable (hext : Extends children children' fresh)

include hext

theorem filter_enter_fresh (fuel : Nat) (way : List N) {d : D} (hd : fresh d = true)
    (acc : List (List N × D)) :
    (enter children' fuel way d acc).filter (fun x => !fresh x.2) = acc.filter
      (fun x => !fresh x.2) := by
  induction fuel generalizing way d acc with
  | zero => rfl
  | succ fuel ih =>
    by_cases h : d ∈ acc.map Prod.snd
    · rw [enter_of_mem h]
    rw [enter_of_notMem h]
    refine foldlRecOn (motive := fun acc' => filter (fun x => !fresh x.2) acc' = acc.filter _) _ _
      ?_ fun acc' hacc' e he => ?_
    · simp [hd]
    · rw [ih _ (hext.new d hd e he), hacc']

theorem filter_enter_old (fuel : Nat) (way : List N) {d : D} (hd : fresh d = false)
    (acc : List (List N × D)) : (enter children' fuel way d acc).filter (fun x => !fresh x.2)
      = enter children fuel way d (acc.filter fun x => !fresh x.2) := by
  induction fuel generalizing way d acc with
  | zero => rfl
  | succ fuel ih =>
    have hmem : d ∈ (acc.filter fun x => !fresh x.2).map Prod.snd ↔ d ∈ acc.map Prod.snd := by
      simp only [mem_map, mem_filter]
      constructor
      · intro ⟨x, hx, heq⟩
        exact ⟨x, hx.1, heq⟩
      · intro ⟨x, hx, heq⟩
        exact ⟨x, ⟨hx, by rw [heq, hd]; rfl⟩, heq⟩
    by_cases h : d ∈ acc.map Prod.snd
    · rw [enter_of_mem h, enter_of_mem (hmem.mpr h)]
    rw [enter_of_notMem h, enter_of_notMem (mt hmem.mp h)]
    have hf : ∀ (es : List (N × D)) (acc : List (List N × D)),
        (enterAll children' fuel way es acc).filter (fun x => !fresh x.2)
          = enterAll children fuel way (es.filter fun e => !fresh e.2)
              (acc.filter fun x => !fresh x.2) := by
      intro es
      induction es with
      | nil => exact fun acc => rfl
      | cons e es ihes =>
        intro acc
        rw [enterAll_cons, ihes]
        cases he : fresh e.2 with
        | true => rw [filter_enter_fresh hext fuel _ he, filter_cons_of_neg (by simp [he])]
        | false => rw [ih _ he, filter_cons_of_pos (by simp [he]), enterAll_cons]
    rw [hf, hext.old d hd, filter_append, filter_cons_of_pos (by simp [hd]), filter_nil]

/-- **The old places are entered as before.** -/
theorem mem_entered_old {depth : Nat} {root : D} (hr : fresh root = false) {x : List N × D} :
    x ∈ entered children depth root ↔ x ∈ entered children' depth root ∧ fresh x.2 = false := by
  have hf := filter_enter_old hext depth [] hr []
  rw [filter_nil] at hf
  rw [entered, ← hf]
  simp [entered]

end Extension

/-! ### Walks that differ at one place -/

section OnePlace

variable {children children' : D → List (N × D)} {place : D}

variable (hagree : ∀ d, d ≠ place → children d = children' d)
include hagree

theorem enter_agree (fuel : Nat) (way : List N) (d : D) (acc : List (List N × D))
    (hnot : place ∉ acc.map Prod.snd) :
    enter children fuel way d acc = enter children' fuel way d acc ∧
        place ∉ (enter children fuel way d acc).map Prod.snd ∨
      ∃ q, (q, place) ∈ enter children fuel way d acc ∧
        (q, place) ∈ enter children' fuel way d acc := by
  induction fuel generalizing way d acc with
  | zero => exact .inl ⟨rfl, hnot⟩
  | succ fuel ih =>
    by_cases h : d ∈ acc.map Prod.snd
    · rw [enter_of_mem h, enter_of_mem h]
      exact .inl ⟨rfl, hnot⟩
    rw [enter_of_notMem h, enter_of_notMem h]
    by_cases hd : d = place
    · refine .inr ⟨way, subset_enterAll ?_, subset_enterAll ?_⟩ <;> simp [hd]
    rw [← hagree d hd]
    have hf : ∀ (es : List (N × D)) (acc : List (List N × D)), place ∉ acc.map Prod.snd →
        enterAll children fuel way es acc = enterAll children' fuel way es acc ∧
          place ∉ (enterAll children fuel way es acc).map Prod.snd ∨
        ∃ q, (q, place) ∈ enterAll children fuel way es acc ∧
          (q, place) ∈ enterAll children' fuel way es acc := by
      intro es
      induction es with
      | nil => exact fun acc hnot => .inl ⟨rfl, hnot⟩
      | cons e es ihes =>
        intro acc hnot
        rw [enterAll_cons, enterAll_cons]
        rcases ih (way ++ [e.1]) e.2 acc hnot with ⟨heq, hnot'⟩ | ⟨q, hq, hq'⟩
        · rw [← heq]
          exact ihes _ hnot'
        · exact .inr ⟨q, subset_enterAll hq, subset_enterAll hq'⟩
    refine hf _ _ ?_
    simp only [map_append, map_cons, map_nil, mem_append, mem_singleton, not_or]
    exact ⟨hnot, Ne.symm hd⟩

/-- **A place is entered by the same way, whatever its own edges are.** -/
theorem mem_entered_of_agree {depth : Nat}
    {root : D} {q : List N} (h : (q, place) ∈ entered children depth root) :
    (q, place) ∈ entered children' depth root := by
  rcases enter_agree hagree depth [] root [] (by simp) with ⟨_, hnot⟩ | ⟨q', hq, hq'⟩
  · exact absurd (mem_map_of_mem (f := Prod.snd) h) hnot
  · rw [entered_way_unique h hq]
    exact hq'

end OnePlace

end AeroFtp.GuardedWalk
