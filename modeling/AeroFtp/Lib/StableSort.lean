/-
Sorting keeps what it cannot tell apart in its order.

An insertion sort by a total and transitive relation commutes with leaving elements out: the
elements that are left come in the order in which they are sorted among all.
-/
import Mathlib.Data.List.Sort

namespace AeroFtp.StableSort

open List

variable {α : Type} (r : α → α → Prop) [DecidableRel r]

theorem orderedInsert_of_forall {a : α} {l : List α} (h : ∀ b ∈ l, r a b) :
    l.orderedInsert r a = a :: l := by
  cases l with
  | nil => rfl
  | cons b l => rw [orderedInsert, if_pos (h b mem_cons_self)]

variable [IsTrans α r]

theorem filter_orderedInsert (p : α → Bool) (a : α) {l : List α} (hl : l.Pairwise r) :
    (l.orderedInsert r a).filter p = if p a then (l.filter p).orderedInsert r a else
      l.filter p := by
  induction l with
  | nil => cases h : p a <;> simp [h]
  | cons b l ih =>
    rw [pairwise_cons] at hl
    by_cases hab : r a b
    · -- all that follows is greater too, so the place is the first one here as there
      have hall : ∀ c ∈ (b :: l).filter p, r a c := by
        intro c hc
        rcases mem_cons.mp (mem_filter.mp hc).1 with rfl | hc
        · exact hab
        · exact IsTrans.trans a b c hab (hl.1 c hc)
      rw [orderedInsert, if_pos hab, orderedInsert_of_forall r hall]
      cases h : p a <;> simp [h]
    · rw [orderedInsert, if_neg hab, filter_cons, filter_cons, ih hl.2]
      cases hb : p b <;> cases ha : p a <;> simp [hab]

theorem filter_insertionSort [Std.Total r] (p : α → Bool) (l : List α) :
    (l.insertionSort r).filter p = (l.filter p).insertionSort r := by
  induction l with
  | nil => rfl
  | cons a l ih =>
    rw [insertionSort_cons, filter_orderedInsert r p a (pairwise_insertionSort r l), ih,
      filter_cons]
    cases h : p a <;> simp

end AeroFtp.StableSort
