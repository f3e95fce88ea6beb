/-
Histories.

A history is a list to which events are added at the end.  `Each P` says of every event
of a history something about the events before it; it is checked once, when the event
is added, since what came before an event never changes.
-/
import Mathlib.Data.List.Basic

namespace AeroFtp.History

open List

variable {ε : Type} {P : List ε → ε → Prop}

/-- Every event stands in the relation `P` to what was before it. -/
def Each (P : List ε → ε → Prop) (history : List ε) : Prop :=
  ∀ before e after, history = before ++ e :: after → P before e

theorem each_nil : Each P ([] : List ε) := by
  intro before e after h
  simp at h

theorem each_snoc {history : List ε} {e : ε} :
    Each P (history ++ [e]) ↔ Each P history ∧ P history e := by
  constructor
  · intro h
    refine ⟨fun before x after hx => ?_, h history e [] rfl⟩
    exact h before x (after ++ [e]) (by rw [hx, append_assoc, cons_append])
  · rintro ⟨h, he⟩ before x after hx
    rcases eq_nil_or_concat after with rfl | ⟨after, y, rfl⟩
    · obtain ⟨rfl, hy⟩ := append_inj' hx rfl
      cases hy
      exact he
    · rw [concat_eq_append, ← cons_append, ← append_assoc] at hx
      obtain ⟨hx, _⟩ := append_inj' hx rfl
      exact h before x after hx

theorem Each.append {history more : List ε} (h : Each P history)
    (hm : ∀ before, ∀ e ∈ more, P before e) : Each P (history ++ more) := by
  induction more generalizing history with
  | nil => rwa [append_nil]
  | cons e more ih =>
    rw [← singleton_append, ← append_assoc]
    refine ih (each_snoc.mpr ⟨h, hm history e (mem_cons_self ..)⟩) ?_
    intro before e' he'
    exact hm before e' (mem_cons_of_mem _ he')

end AeroFtp.History
