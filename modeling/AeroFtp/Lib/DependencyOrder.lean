/-
What a schedule that runs everything it can leaves behind.

Each node waits for the nodes it depends on.  A node is blocked if it leads, along
dependencies, to something that is no node or to a cycle.  An order in which every node
comes behind all it depends on never holds a blocked node; if it also holds every node
whose dependencies it holds, it holds all the others.
-/
import AeroFtp.Lib.History
import Mathlib.Data.Set.Finite.Basic
import Mathlib.Logic.Relation
import Mathlib.Order.Preorder.Finite
import Mathlib.Order.WellFounded

namespace AeroFtp.DependencyOrder

open History Relation

variable {V : Type} {dep : V → V → Prop} {node : V → Prop}
variable {order : List V}

/-- `v` leads to something that is no node, or to a cycle. -/
def Blocked (dep : V → V → Prop) (node : V → Prop) (v : V) : Prop :=
  ∃ w, ReflTransGen dep v w ∧ (¬ node w ∨ TransGen dep w w)

variable {v : V}

theorem Blocked.of_dep {d : V} (hd : dep v d) (h : Blocked dep node d) : Blocked dep node v := by
  obtain ⟨w, hp, hw⟩ := h
  exact ⟨w, .head hd hp, hw⟩

/-- Every node of `order` comes behind all it depends on. -/
def Behind (dep : V → V → Prop) (order : List V) : Prop :=
  Each (fun before v => ∀ d, dep v d → d ∈ before) order

section

variable (h : Behind dep order)
include h

theorem Behind.closed {d : V} (hv : v ∈ order) (hd : dep v d) : d ∈ order := by
  obtain ⟨before, after, rfl⟩ := List.append_of_mem hv
  exact List.mem_append_left _ (h before v after rfl d hd)

theorem Behind.closed_path {w : V} (hv : v ∈ order) (hp : ReflTransGen dep v w) : w ∈ order := by
  induction hp with
  | refl => exact hv
  | tail _ hdep ih => exact h.closed ih hdep

/-- No node of such an order is on a cycle. -/
theorem Behind.acyclic (hv : v ∈ order) : ¬ TransGen dep v v := by
  induction order using List.reverseRecOn generalizing v with
  | nil => cases hv
  | append_singleton before e ih =>
    obtain ⟨hb, he⟩ := each_snoc.mp h
    intro hc
    by_cases hmem : v ∈ before
    · exact ih hb hmem hc
    · -- The last one leads into the nodes before it, and from there not back.
      have hve : v = e := by simpa [hmem] using hv
      subst hve
      obtain ⟨d, hd, hp⟩ := TransGen.head'_iff.mp hc
      exact hmem (Behind.closed_path hb (he d hd) hp)

theorem not_blocked_of_mem (hn : ∀ v ∈ order, node v) (hv : v ∈ order) : ¬ Blocked dep node v := by
  rintro ⟨w, hp, hw⟩
  have hmem := h.closed_path hv hp
  rcases hw with hw | hw
  · exact hw (hn w hmem)
  · exact h.acyclic hmem hw

end

/-- Among finitely many nodes, one that is not blocked is reached by going on where all
dependencies are met. -/
theorem mem_of_not_blocked (hfin : {v | node v}.Finite)
    (hgo : ∀ v, node v → (∀ d, dep v d → d ∈ order) → v ∈ order) (hv : node v)
    (hfree : ¬ Blocked dep node v) : v ∈ order := by
  let Free := {v : V // node v ∧ ¬ Blocked dep node v}
  have : Finite Free := (hfin.subset fun v hv => hv.1).to_subtype
  let before : Free → Free → Prop := fun a b => TransGen dep b.1 a.1
  have : Std.Irrefl before := ⟨fun a hc => a.2.2 ⟨a.1, .refl, .inr hc⟩⟩
  have hwf : WellFounded before := Finite.wellFounded_of_trans_of_irrefl before
  have hall : ∀ a : Free, a.1 ∈ order := by
    intro a
    induction a using hwf.induction with
    | _ a ih =>
      refine hgo a.1 a.2.1 fun d hd => ?_
      have hdnode : node d := by
        by_contra hnot
        exact a.2.2 ⟨d, .single hd, .inl hnot⟩
      exact ih ⟨d, hdnode, fun hb => a.2.2 (hb.of_dep hd)⟩ (.single hd)
  exact hall ⟨v, hv, hfree⟩

/-- **The residue.**  What such an order holds is what is not blocked. -/
theorem mem_iff_not_blocked (hfin : {v | node v}.Finite) (h : Behind dep order)
    (hn : ∀ v ∈ order, node v) (hgo : ∀ v, node v → (∀ d, dep v d → d ∈ order) → v ∈ order)
    (hv : node v) : v ∈ order ↔ ¬ Blocked dep node v :=
  ⟨not_blocked_of_mem h hn, mem_of_not_blocked hfin hgo hv⟩

end AeroFtp.DependencyOrder
