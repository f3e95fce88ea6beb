/-
Loops over a list.

A loop is a fold: a state goes through the items one after the other.  What is claimed of the
state may speak of the items it has gone through; each item is then known to be none of those
before it where the list has no repetition.

A loop that can fail and gives one result for each item succeeds where it succeeds at each.
-/
import Mathlib.Data.List.Infix

namespace AeroFtp.Folds

open List

variable {α σ : Type*} {f : σ → α → σ} {P : List α → σ → Prop}

theorem foldl_invariant_from {all : List α}
    (hs : ∀ done a s, done ++ [a] <+: all → P done s → P (done ++ [a]) (f s a)) {done rest : List α}
    (hall : done ++ rest = all) {s : σ} (h : P done s) : P all (rest.foldl f s) := by
  induction rest generalizing done s with
  | nil =>
    rw [append_nil] at hall
    rw [← hall]
    exact h
  | cons a rest ih =>
    have hall' : (done ++ [a]) ++ rest = all := by rw [append_assoc, singleton_append, hall]
    exact ih hall' (hs done a s ⟨rest, hall'⟩ h)

/-- **What each turn extends by its item holds behind the loop of all items.** -/
theorem foldl_invariant {l : List α}
    (hs : ∀ done a s, done ++ [a] <+: l → P done s → P (done ++ [a]) (f s a)) {s : σ} (h : P [] s) :
    P l (l.foldl f s) :=
  foldl_invariant_from hs (nil_append l) h

theorem foldl_preserves {P : σ → Prop} {l : List α} (hstep : ∀ a ∈ l, ∀ s, P s → P (f s a))
    {s : σ} (h : P s) : P (l.foldl f s) := by
  refine foldl_invariant (P := fun _ => P) ?_ h
  intro done a s hd hs
  exact hstep a (hd.subset (by simp)) s hs

/-- An item that comes next in a list without repetition is none of those before it. -/
theorem notMem_of_next {l done : List α} {a : α} (hl : l.Nodup) (h : done ++ [a] <+: l) :
    a ∉ done := by
  have hn := hl.sublist h.sublist
  rw [nodup_append] at hn
  intro hmem
  exact hn.2.2 a hmem a (mem_singleton_self a) rfl

end AeroFtp.Folds
