/-
A greedy walk that replaces windows of a list by references.

The walk looks at the window of `n` elements in front of it.  If `hit` knows the
window it settles all `n` elements as one reference, otherwise it settles one
element as a literal and moves on by one.  Nothing here depends on what `hit`
compares: it is any partial function on windows, so the same walk describes every
matcher that answers "which block is this" for a whole window at a time.

`walk` needs the whole list.  `advance` is what can be settled from a prefix of it:
it stops as soon as the next decision would need an element that has not arrived.
`walk_append` says the two fit together at every cut, and that is the only fact
about cuts the streaming proofs use.

The second half turns events into operations.  `emit` carries the literal that is
still being collected, so cutting the event list anywhere and carrying the pending
literal over gives the same operations.
-/
import Mathlib.Data.List.Infix

namespace AeroFtp.Greedy

open List

variable {α ι γ : Type}

/-- What the walk settles at one position. -/
inductive Event (α ι : Type) where
  /-- One element no window accounts for. -/
  | lit (x : α)
  /-- A window that `hit` answered with the reference `i`. -/
  | copy (i : ι) (window : List α)
  deriving DecidableEq, Repr

/-- The elements an event stands for. -/
def Event.span : Event α ι → List α
  | .lit x => [x]
  | .copy _ w => w

/-- Whether an event is a literal. -/
def Event.isLit : Event α ι → Bool
  | .lit _ => true
  | .copy _ _ => false

/-- How many events are literals. -/
def litCount (es : List (Event α ι)) : Nat := es.countP Event.isLit

/-- How many events are references. -/
def copyCount (es : List (Event α ι)) : Nat := es.countP (!·.isLit)

@[simp] theorem litCount_lit (x : α) (es : List (Event α ι)) :
    litCount (.lit x :: es) = litCount es + 1 := countP_cons_of_pos rfl

@[simp] theorem litCount_copy (i : ι) (w : List α) (es : List (Event α ι)) :
    litCount (.copy i w :: es) = litCount es := countP_cons_of_neg Bool.false_ne_true

@[simp] theorem copyCount_lit (x : α) (es : List (Event α ι)) :
    copyCount (.lit x :: es) = copyCount es := countP_cons_of_neg Bool.false_ne_true

@[simp] theorem copyCount_copy (i : ι) (w : List α) (es : List (Event α ι)) :
    copyCount (.copy i w :: es) = copyCount es + 1 := countP_cons_of_pos rfl

@[simp] theorem litCount_append (a b : List (Event α ι)) :
    litCount (a ++ b) = litCount a + litCount b := countP_append

@[simp] theorem copyCount_append (a b : List (Event α ι)) :
    copyCount (a ++ b) = copyCount a + copyCount b := countP_append

theorem count_lits (xs : List α) : litCount (xs.map (Event.lit (ι := ι))) = xs.length ∧
      copyCount (xs.map (.lit (ι := ι))) = 0 := by
  induction xs with
  | nil => exact ⟨rfl, rfl⟩
  | cons x xs ih =>
    obtain ⟨hlit, hc⟩ := ih
    simp [hlit, hc]

/-- The walk with `skip` elements of the last window still to be passed over. -/
def walkFrom (n : Nat) (hit : List α → Option ι) : Nat → List α → List (Event α ι)
  | _, [] => []
  | k + 1, _ :: xs => walkFrom n hit k xs
  | 0, x :: xs =>
    if (x :: xs).length < n then .lit x :: walkFrom n hit 0 xs
    else
      match hit ((x :: xs).take n) with
      | some i => .copy i ((x :: xs).take n) :: walkFrom n hit (n - 1) xs
      | none => .lit x :: walkFrom n hit 0 xs

/-- Everything the walk settles, left to right. -/
def walk (n : Nat) (hit : List α → Option ι) (s : List α) : List (Event α ι) :=
  walkFrom n hit 0 s

/-- `advance` with `skip` elements of the last window still to be passed over. -/
def advanceFrom (n : Nat) (hit : List α → Option ι) :
    Nat → List α → List (Event α ι) × List α
  | _, [] => ([], [])
  | k + 1, _ :: xs => advanceFrom n hit k xs
  | 0, x :: xs =>
    if (x :: xs).length < n then ([], x :: xs)
    else
      match hit ((x :: xs).take n) with
      | some i =>
        (.copy i ((x :: xs).take n) :: (advanceFrom n hit (n - 1) xs).1,
          (advanceFrom n hit (n - 1) xs).2)
      | none =>
        -- Rolling on by one would bring in an element that is not there yet.
        if (x :: xs).length < n + 1 then ([], x :: xs)
        else (.lit x :: (advanceFrom n hit 0 xs).1, (advanceFrom n hit 0 xs).2)

/-- What a prefix of the input settles, and what is left of it undecided. -/
def advance (n : Nat) (hit : List α → Option ι) (s : List α) : List (Event α ι) × List α :=
  advanceFrom n hit 0 s

section Equations

variable {n : Nat} {hit : List α → Option ι}

private theorem walkFrom_drop (k : Nat) (s : List α) :
    walkFrom n hit k s = walk n hit (s.drop k) := by
  induction k generalizing s with
  | zero => simp [walk]
  | succ k ih =>
    cases s with
    | nil => simp [walk, walkFrom]
    | cons x xs => simpa [walkFrom] using ih xs

private theorem advanceFrom_drop (k : Nat) (s : List α) :
    advanceFrom n hit k s = advance n hit (s.drop k) := by
  induction k generalizing s with
  | zero => simp [advance]
  | succ k ih =>
    cases s with
    | nil => simp [advance, advanceFrom]
    | cons x xs => simpa [advanceFrom] using ih xs

@[simp] theorem walk_nil : walk n hit ([] : List α) = [] := rfl

variable {s : List α}

theorem walk_short (h : s.length < n) : walk n hit s = s.map .lit := by
  induction s with
  | nil => rfl
  | cons x xs ih =>
    have hxs : xs.length < n := by simp only [length_cons] at h; omega
    show walkFrom n hit 0 (x :: xs) = _
    rw [walkFrom, if_pos h]
    exact congrArg (.lit x :: ·) (ih hxs)

theorem walk_hit (hn : 0 < n) (h : n ≤ s.length) {i : ι} (hi : hit (s.take n) = some i) :
    walk n hit s = .copy i (s.take n) :: walk n hit (s.drop n) := by
  cases s with
  | nil => simp only [length_nil] at h; omega
  | cons x xs =>
    show walkFrom n hit 0 (x :: xs) = _
    rw [walkFrom, if_neg (by omega), hi]
    show _ :: walkFrom n hit (n - 1) xs = _
    rw [walkFrom_drop, show (x :: xs).drop n = xs.drop (n - 1) by
      obtain ⟨m, rfl⟩ := Nat.exists_eq_succ_of_ne_zero (Nat.ne_of_gt hn)
      simp]

theorem walk_miss {x : α} {xs : List α} (h : n ≤ (x :: xs).length)
    (hi : hit ((x :: xs).take n) = none) : walk n hit (x :: xs) = .lit x :: walk n hit xs := by
  show walkFrom n hit 0 (x :: xs) = _
  rw [walkFrom, if_neg (by omega), hi]
  rfl

theorem advance_short (h : s.length < n) : advance n hit s = ([], s) := by
  cases s with
  | nil => rfl
  | cons x xs =>
    show advanceFrom n hit 0 (x :: xs) = _
    rw [advanceFrom, if_pos h]

theorem advance_hit (hn : 0 < n) (h : n ≤ s.length) {i : ι} (hi : hit (s.take n) = some i) :
    advance n hit s = (.copy i (s.take n) :: (advance n hit (s.drop n)).1,
      (advance n hit (s.drop n)).2) := by
  cases s with
  | nil => simp only [length_nil] at h; omega
  | cons x xs =>
    show advanceFrom n hit 0 (x :: xs) = _
    rw [advanceFrom, if_neg (by omega), hi]
    show (_ :: (advanceFrom n hit (n - 1) xs).1, (advanceFrom n hit (n - 1) xs).2) = _
    rw [advanceFrom_drop, show (x :: xs).drop n = xs.drop (n - 1) by
      obtain ⟨m, rfl⟩ := Nat.exists_eq_succ_of_ne_zero (Nat.ne_of_gt hn)
      simp]

theorem advance_wait (h : s.length = n) (hi : hit s = none) : advance n hit s = ([], s) := by
  cases s with
  | nil => rfl
  | cons x xs =>
    have ht : (x :: xs).take n = x :: xs := take_of_length_le (by omega)
    show advanceFrom n hit 0 (x :: xs) = _
    rw [advanceFrom, if_neg (by omega), ht, hi]
    simp only [if_pos (show (x :: xs).length < n + 1 by omega)]

theorem advance_miss {x : α} {xs : List α} (h : n < (x :: xs).length)
    (hi : hit ((x :: xs).take n) = none) :
    advance n hit (x :: xs) = (.lit x :: (advance n hit xs).1, (advance n hit xs).2) := by
  show advanceFrom n hit 0 (x :: xs) = _
  rw [advanceFrom, if_neg (by omega), hi]
  simp only [if_neg (show ¬ (x :: xs).length < n + 1 by omega)]
  rfl

end Equations

section Cuts

variable {n : Nat} {hit : List α → Option ι}

/-- The ways a walk can stand in front of `s`: nothing is left to settle, or a window
is taken, or an element is passed by.  Facts about walks are proved along them. -/
theorem walk_induction (hit : List α → Option ι) (hn : 0 < n) {P : List α → Prop}
    (rest : ∀ s, s.length < n ∨ (s.length = n ∧ hit s = none) → P s)
    (jump : ∀ s i, n ≤ s.length → hit (s.take n) = some i → P (s.drop n) → P s)
    (roll : ∀ x xs, n < (x :: xs).length → hit ((x :: xs).take n) = none → P xs → P (x :: xs))
    (s : List α) : P s := by
  induction hlen : s.length using Nat.strong_induction_on generalizing s with
  | _ m ih =>
    subst hlen
    by_cases hs : s.length < n
    · exact rest s (.inl hs)
    · cases hi : hit (s.take n) with
      | some i =>
        exact jump s i (by omega) hi (ih _ (by rw [length_drop]; omega) _ rfl)
      | none =>
        by_cases heq : s.length = n
        · rw [take_of_length_le (by omega)] at hi
          exact rest s (.inr ⟨heq, hi⟩)
        · cases s with
          | nil => simp only [length_nil] at hs heq; omega
          | cons x xs => exact roll x xs (by omega) hi (ih _ (by simp) _ rfl)

theorem advance_of_rest {s : List α}
    (h : s.length < n ∨ (s.length = n ∧ hit s = none)) : advance n hit s = ([], s) := by
  rcases h with hs | ⟨heq, hi⟩
  · exact advance_short hs
  · exact advance_wait heq hi

theorem advance_rest (hn : 0 < n) (s : List α) : (advance n hit s).2.length < n ∨
      ((advance n hit s).2.length = n ∧ hit (advance n hit s).2 = none) := by
  induction s using walk_induction hit hn with
  | rest s h => rw [advance_of_rest h]; exact h
  | jump s i hle hi ih => rw [advance_hit hn hle hi]; exact ih
  | roll x xs hlt hi ih => rw [advance_miss hlt hi]; exact ih

/-- Advancing over `s ++ t` is advancing over `s`, then over its rest and `t`. -/
theorem advance_append (hn : 0 < n) (s t : List α) : advance n hit (s ++ t) =
      ((advance n hit s).1 ++ (advance n hit ((advance n hit s).2 ++ t)).1,
        (advance n hit ((advance n hit s).2 ++ t)).2) := by
  induction s using walk_induction hit hn with
  | rest s h => rw [advance_of_rest h]; rfl
  | jump s i hle hi ih =>
    have ht : (s ++ t).take n = s.take n := take_append_of_le_length hle
    have hd : (s ++ t).drop n = s.drop n ++ t := drop_append_of_le_length hle
    rw [advance_hit hn (by simp only [length_append]; omega) (by rw [ht]; exact hi),
      ht, hd, advance_hit hn hle hi, ih]
    rfl
  | roll x xs hlt hi ih =>
    have ht : (x :: (xs ++ t)).take n = (x :: xs).take n := by
      exact take_append_of_le_length (Nat.le_of_lt hlt)
    rw [cons_append, advance_miss (by simp only [length_cons, length_append] at hlt ⊢; omega)
      (by rw [ht]; exact hi), advance_miss hlt hi, ih]
    rfl

theorem walk_rest {s : List α}
    (h : s.length < n ∨ (s.length = n ∧ hit s = none)) : walk n hit s = s.map .lit := by
  rcases h with hs | ⟨heq, hi⟩
  · exact walk_short hs
  · cases s with
    | nil => rfl
    | cons x xs =>
      have ht : (x :: xs).take n = x :: xs := take_of_length_le (by omega)
      rw [walk_miss (by omega) (by rw [ht]; exact hi),
        walk_short (by simp only [length_cons] at heq; omega)]
      rfl

/-- `advance` on the whole input, finished off by literals, is the walk. -/
theorem walk_eq_advance (hn : 0 < n) (s : List α) :
    walk n hit s = (advance n hit s).1 ++ (advance n hit s).2.map .lit := by
  induction s using walk_induction hit hn with
  | rest s h => rw [advance_of_rest h, walk_rest h]; rfl
  | jump s i hle hi ih => rw [walk_hit hn hle hi, advance_hit hn hle hi, ih]; rfl
  | roll x xs hlt hi ih => rw [walk_miss (Nat.le_of_lt hlt) hi, advance_miss hlt hi, ih]; rfl

/-- **Cutting the input anywhere changes nothing.**  The walk over `s ++ t` settles
what `s` alone settles, and then walks over what `s` left undecided followed by
`t`. -/
theorem walk_append (hn : 0 < n) (s t : List α) :
    walk n hit (s ++ t) = (advance n hit s).1 ++ walk n hit ((advance n hit s).2 ++ t) := by
  rw [walk_eq_advance hn (s ++ t), advance_append hn s t,
    walk_eq_advance hn ((advance n hit s).2 ++ t), append_assoc]

/-- The events of a walk spell out the list it walked over. -/
theorem flatMap_span_walk (hn : 0 < n) (s : List α) : (walk n hit s).flatMap Event.span = s := by
  induction s using walk_induction hit hn with
  | rest s h =>
    rw [walk_rest h]
    simp [flatMap_map, Event.span]
  | jump s i hle hi ih =>
    rw [walk_hit hn hle hi, flatMap_cons, ih]
    exact take_append_drop n s
  | roll x xs hlt hi ih =>
    rw [walk_miss (Nat.le_of_lt hlt) hi, flatMap_cons, ih]
    rfl

/-- The walk over `s` stops in front of the window `w` and asks about it. -/
inductive Examines (n : Nat) (hit : List α → Option ι) : List α → List α → Prop
  | here {s : List α} (h : n ≤ s.length) : Examines n hit s (s.take n)
  | jump {s w : List α} {i : ι} (h : n ≤ s.length) (hi : hit (s.take n) = some i)
      (hw : Examines n hit (s.drop n) w) : Examines n hit s w
  | roll {x : α} {xs w : List α} (h : n ≤ (x :: xs).length)
      (hi : hit ((x :: xs).take n) = none) (hw : Examines n hit xs w) :
      Examines n hit (x :: xs) w

/-- The references of a walk are the answers to the windows it asked about. -/
theorem copy_mem_walk (hn : 0 < n) {s w : List α} {i : ι} :
    Event.copy i w ∈ walk n hit s ↔ Examines n hit s w ∧ hit w = some i := by
  constructor
  · induction s using walk_induction hit hn with
    | rest s h =>
      rw [walk_rest h]
      simp
    | jump s j hle hj ih =>
      rw [walk_hit hn hle hj, mem_cons]
      rintro (hh | ht)
      · cases hh
        exact ⟨.here hle, hj⟩
      · exact ⟨.jump hle hj (ih ht).1, (ih ht).2⟩
    | roll x xs hlt hi ih =>
      rw [walk_miss (Nat.le_of_lt hlt) hi, mem_cons]
      rintro (hh | ht)
      · cases hh
      · exact ⟨.roll (Nat.le_of_lt hlt) hi (ih ht).1, (ih ht).2⟩
  · rintro ⟨hex, hw⟩
    induction hex with
    | here h =>
      rw [walk_hit hn h hw]
      exact mem_cons_self
    | jump h hj _ ih =>
      rw [walk_hit hn h hj]
      exact mem_cons_of_mem _ (ih hw)
    | roll h hj _ ih =>
      rw [walk_miss h hj]
      exact mem_cons_of_mem _ (ih hw)

theorem Examines.window {s w : List α} (h : Examines n hit s w) : w.length = n ∧ w <:+: s := by
  induction h with
  | @here s h =>
    exact ⟨by simp only [length_take]; omega, (List.take_prefix n s).isInfix⟩
  | @jump s w _ _ _ _ ih => exact ⟨ih.1, ih.2.trans (drop_suffix n s).isInfix⟩
  | @roll x xs w _ _ _ ih => exact ⟨ih.1, ih.2.trans (suffix_cons x xs).isInfix⟩

end Cuts

/-! ### From events to operations

A literal is collected element by element and written out in front of the next
reference, or at the end.  `lit` and `ref` build the operations, so the same lemmas
serve every operation type.
-/

section Emit

variable (lit : List α → γ) (ref : ι → γ)

/-- Write out a pending literal, if there is one. -/
def flush : List α → List γ
  | [] => []
  | x :: xs => [lit (x :: xs)]

/-- The operations a list of events completes, and the literal left pending. -/
def emit : List α → List (Event α ι) → List γ × List α
  | p, [] => ([], p)
  | p, .lit x :: es => emit (p ++ [x]) es
  | p, .copy i _ :: es => (flush lit p ++ ref i :: (emit [] es).1, (emit [] es).2)

/-- All operations of a list of events, the last literal included. -/
def plan (p : List α) (es : List (Event α ι)) : List γ :=
  (emit lit ref p es).1 ++ flush lit (emit lit ref p es).2

@[simp] theorem flush_nil : flush lit ([] : List α) = [] := rfl

theorem flush_of_ne_nil {p : List α} (h : p ≠ []) : flush lit p = [lit p] := by
  cases p with
  | nil => exact absurd rfl h
  | cons x xs => rfl

variable (p : List α)

theorem emit_append (a b : List (Event α ι)) : emit lit ref p (a ++ b) =
      ((emit lit ref p a).1 ++ (emit lit ref (emit lit ref p a).2 b).1,
        (emit lit ref (emit lit ref p a).2 b).2) := by
  induction a generalizing p with
  | nil => rfl
  | cons e es ih =>
    cases e with
    | lit x => exact ih (p ++ [x])
    | copy i w => simp [emit, ih []]

theorem emit_lits (p xs : List α) :
    emit lit ref p (xs.map (Event.lit (ι := ι))) = ([], p ++ xs) := by
  induction xs generalizing p with
  | nil => simp [emit]
  | cons x xs ih =>
    show emit lit ref (p ++ [x]) (xs.map .lit) = _
    rw [ih, append_assoc]
    rfl

theorem plan_nil : plan lit ref p [] = flush lit p := rfl

theorem plan_lit (x : α) (es : List (Event α ι)) :
    plan lit ref p (.lit x :: es) = plan lit ref (p ++ [x]) es := rfl

theorem plan_copy (i : ι) (w : List α) (es : List (Event α ι)) :
    plan lit ref p (.copy i w :: es) = flush lit p ++ ref i :: plan lit ref [] es := by
  simp [plan, emit]

theorem map_plan {δ : Type} (f : γ → δ) (p : List α) (es : List (Event α ι)) :
    (plan lit ref p es).map f = plan (f ∘ lit) (f ∘ ref) p es := by
  have hf : ∀ q : List α, (flush lit q).map f = flush (f ∘ lit) q := by
    intro q
    cases q with
    | nil => rfl
    | cons x xs => rfl
  induction es generalizing p with
  | nil => exact hf p
  | cons e es ih =>
    cases e with
    | lit x => exact ih (p ++ [x])
    | copy i w =>
      rw [plan_copy, plan_copy, map_append, hf, map_cons, ih []]
      rfl

/-- Where every window in step with the start is known, the walk takes them all. -/
theorem plan_walk_of_hits {n : Nat} (hit : List α → Option ι) (hn : 0 < n) (s : List α)
    (hits : ∀ k, k * n + n ≤ s.length → hit ((s.drop (k * n)).take n) ≠ none) :
    ∃ is : List ι, is.length = s.length / n ∧ litCount (walk n hit s) = s.length % n ∧
      plan lit ref [] (walk n hit s) = is.map ref ++ flush lit (s.drop (s.length / n * n)) := by
  have hf : n ≤ s.length → hit (s.take n) ≠ none := by simpa using hits 0
  induction s using walk_induction hit hn with
  | rest s h =>
    have hs : s.length < n := h.resolve_right fun ⟨heq, hnone⟩ =>
      hf (by omega) (by rw [take_of_length_le (by omega), hnone])
    rw [walk_short hs, (count_lits s).1, plan, emit_lits, Nat.div_eq_of_lt hs, Nat.mod_eq_of_lt hs]
    simp
  | jump s i hle hi ih =>
    have hlater : ∀ k, k * n + n ≤ (s.drop n).length →
        hit (((s.drop n).drop (k * n)).take n) ≠ none := by
      intro k hk
      rw [length_drop] at hk
      rw [drop_drop, Nat.add_comm, ← Nat.succ_mul]
      exact hits (k + 1) (by rw [Nat.succ_mul]; omega)
    obtain ⟨is, hlen, hlits, hp⟩ := ih hlater (by simpa using hlater 0)
    rw [length_drop] at hlen hlits hp
    have hdiv : s.length / n = (s.length - n) / n + 1 := Nat.div_eq_sub_div hn hle
    refine ⟨i :: is, by rw [length_cons, hlen, hdiv], ?_, ?_⟩
    · rw [walk_hit hn hle hi, litCount_copy, hlits, Nat.mod_eq_sub_mod hle]
    · rw [walk_hit hn hle hi, plan_copy, hp, drop_drop, hdiv, Nat.succ_mul, Nat.add_comm n]
      rfl
  | roll x xs hlt hi _ => exact absurd hi (hf (Nat.le_of_lt hlt))

end Emit

end AeroFtp.Greedy
