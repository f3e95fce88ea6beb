/-
A stack of things to do.

`walk` takes the item on top of the stack, keeps what the item yields and pushes what is
found behind it.  It keeps no record of what it has seen: on a finite tree it visits every
node, on an infinite one it does not return.  Fuel bounds the steps, and a run that ends
does not depend on it.

What it yields is what the items reachable from the stack yield.  That nothing is yielded
twice follows when each item owns a territory: what it yields lies in its territory, outside
those of the items behind it, and these are apart from each other.
-/
import Mathlib.Data.List.Nodup
import Mathlib.Data.List.Pairwise
import Mathlib.Logic.Relation

namespace AeroFtp.Worklist

open List

variable {σ β κ : Type} (expand : σ → List β × List σ)

/-- The loop: the item on top is expanded; what it pushes last is taken first. -/
def walk : Nat → List σ → List β → Option (List β)
  | 0, _, _ => none
  | _ + 1, [], out => some out
  | fuel + 1, item :: rest, out =>
    walk fuel ((expand item).2.reverse ++ rest) (out ++ (expand item).1)

/-- The item `y` is pushed when `x` is taken. -/
def Child (y x : σ) : Prop := y ∈ (expand x).2

/-- The items the walk comes to from `x`. -/
def Reaches (x y : σ) : Prop := Relation.ReflTransGen (fun a b => Child expand b a) x y

variable {expand} {fuel : Nat} {stack rest : List σ} {out acc : List β} {x y : σ}

/-! ### Fuel -/

theorem walk_succ : ∀ (fuel : Nat) {stack : List σ} {acc : List β},
    walk expand fuel stack acc = some out → walk expand (fuel + 1) stack acc = some out
  | 0, _, _, h => by cases h
  | _ + 1, [], _, h => h
  | fuel + 1, _ :: _, _, h => walk_succ fuel h

theorem walk_mono {m n : Nat} (hmn : m ≤ n) (h : walk expand m stack acc = some out) :
    walk expand n stack acc = some out := by
  induction hmn with
  | refl => exact h
  | step _ ih => exact walk_succ _ ih

theorem walk_det {m n : Nat} {out' : List β} (hm : walk expand m stack acc = some out)
    (hn : walk expand n stack acc = some out') : out = out' := by
  have h := (walk_mono (Nat.le_max_left m n) hm).symm.trans (walk_mono (Nat.le_max_right m n) hn)
  exact Option.some.inj h

/-! ### When a run ends -/

theorem acc_of_walk : ∀ (fuel : Nat) {stack : List σ} {acc : List β},
    walk expand fuel stack acc = some out → ∀ x ∈ stack, Acc (Child expand) x
  | 0, _, _, h => by cases h
  | _ + 1, [], _, _ => by simp
  | fuel + 1, item :: rest, acc, h => by
    have hn : ∀ x ∈ (expand item).2.reverse ++ rest, Acc (Child expand) x :=
      acc_of_walk fuel h
    intro x hx
    rcases mem_cons.mp hx with rfl | hx
    · refine .intro _ fun y hy => hn y ?_
      exact mem_append_left _ (mem_reverse.mpr hy)
    · exact hn x (mem_append_right _ hx)

/-- A stack on which every run ends, whatever has been yielded. -/
private def Ends (expand : σ → List β × List σ) (stack : List σ) : Prop :=
  ∀ acc, ∃ fuel out, walk expand fuel stack acc = some out

private theorem ends_append (h : ∀ x ∈ stack, ∀ rest, Ends expand rest → Ends expand (x :: rest))
    (hr : Ends expand rest) : Ends expand (stack ++ rest) := by
  induction stack with
  | nil => exact hr
  | cons x stack ih =>
    refine h x mem_cons_self _ (ih fun y hy => ?_)
    exact h y (mem_cons_of_mem _ hy)

private theorem ends_cons (hx : Acc (Child expand) x) :
    ∀ rest, Ends expand rest → Ends expand (x :: rest) := by
  induction hx with
  | intro x _ ih =>
    intro rest hr acc
    have hn : Ends expand ((expand x).2.reverse ++ rest) :=
      ends_append (fun y hy => ih y (mem_reverse.mp hy)) hr
    obtain ⟨fuel, out, h⟩ := hn (acc ++ (expand x).1)
    exact ⟨fuel + 1, out, h⟩

/-- **A walk returns exactly when no chain of items is endless.** -/
theorem walk_returns_iff :
    (∃ fuel out, walk expand fuel [x] [] = some out) ↔ Acc (Child expand) x := by
  constructor
  · rintro ⟨fuel, out, h⟩
    exact acc_of_walk fuel h x (mem_singleton.mpr rfl)
  · intro hx
    exact ends_cons hx [] (fun acc => ⟨1, acc, rfl⟩) []

/-! ### What it yields -/

theorem Reaches.cases_head (h : Reaches expand x y) :
    y = x ∨ ∃ z ∈ (expand x).2, Reaches expand z y := by
  rcases Relation.ReflTransGen.cases_head h with rfl | ⟨z, hz, h⟩
  · exact .inl rfl
  · exact .inr ⟨z, hz, h⟩

theorem Reaches.head {z : σ} (hz : z ∈ (expand x).2) (h : Reaches expand z y) :
    Reaches expand x y :=
  Relation.ReflTransGen.head hz h

/-- **A walk yields what the items it can come to yield.** -/
theorem mem_walk : ∀ (fuel : Nat) {stack : List σ} {acc : List β} {b : β},
    walk expand fuel stack acc = some out →
      (b ∈ out ↔ b ∈ acc ∨ ∃ x ∈ stack, ∃ y, Reaches expand x y ∧ b ∈ (expand y).1)
  | 0, _, _, _, h => by cases h
  | _ + 1, [], _, _, h => by cases h; simp
  | fuel + 1, item :: rest, acc, b, h => by
    rw [mem_walk fuel h, mem_append]
    constructor
    · rintro ((hb | hb) | ⟨x, hx, y, hxy, hb⟩)
      · exact .inl hb
      · exact .inr ⟨item, mem_cons_self, item, Relation.ReflTransGen.refl, hb⟩
      · rcases mem_append.mp hx with hx | hx
        · exact .inr ⟨item, mem_cons_self, y, Reaches.head (mem_reverse.mp hx) hxy, hb⟩
        · exact .inr ⟨x, mem_cons_of_mem _ hx, y, hxy, hb⟩
    · rintro (hb | ⟨x, hx, y, hxy, hb⟩)
      · exact .inl (.inl hb)
      · rcases mem_cons.mp hx with rfl | hx
        · rcases hxy.cases_head with rfl | ⟨z, hz, hzy⟩
          · exact .inl (.inr hb)
          · exact .inr ⟨z, mem_append_left _ (mem_reverse.mpr hz), y, hzy, hb⟩
        · exact .inr ⟨x, mem_append_right _ hx, y, hxy, hb⟩

/-! ### Territories -/

/-- A territory for each item that satisfies `inv`, as said above. -/
structure Territories (expand : σ → List β × List σ) (key : β → κ) (inv : σ → Prop)
    (owns : σ → κ → Prop) : Prop where
  inv_child : ∀ {x y}, inv x → y ∈ (expand x).2 → inv y
  nodup : ∀ {x}, inv x → ((expand x).1.map key).Nodup
  yields : ∀ {x b}, inv x → b ∈ (expand x).1 → owns x (key b)
  inner : ∀ {x y k}, inv x → y ∈ (expand x).2 → owns y k → owns x k
  fresh : ∀ {x y b}, inv x → y ∈ (expand x).2 → b ∈ (expand x).1 → ¬owns y (key b)
  apart : ∀ {x}, inv x → (expand x).2.Pairwise fun y z => ∀ k, owns y k → ¬owns z k

variable {owns : σ → κ → Prop} {inv : σ → Prop} {key : β → κ}

namespace Territories

variable {z : σ} {k : κ} (ht : Territories expand key inv owns) (hz : inv z)

include ht hz

theorem owns_of_reaches (h : Reaches expand z x) (hk : owns x k) : owns z k := by
  induction h using Relation.ReflTransGen.head_induction_on with
  | refl => exact hk
  | head hc _ ih => exact ht.inner hz hc (ih (ht.inv_child hz hc))

theorem comparable (hx : Reaches expand z x) (hy : Reaches expand z y) (hxk : owns x k)
    (hyk : owns y k) : Reaches expand x y ∨ Reaches expand y x := by
  induction hx using Relation.ReflTransGen.head_induction_on with
  | refl => exact .inl hy
  | @head a c hc hcx ih =>
    rcases hy.cases_head with rfl | ⟨d, hd, hdy⟩
    · exact .inr (.head hc hcx)
    · have hown := ht.owns_of_reaches (ht.inv_child hz hc) hcx hxk
      have hown' := ht.owns_of_reaches (ht.inv_child hz hd) hdy hyk
      have : Std.Symm fun y z => ∀ k, owns y k → ¬owns z k := ⟨fun _ _ h k hb ha => h k ha hb⟩
      have hs : c = d := by
        by_contra hne
        exact (ht.apart hz).forall hc hd hne k hown hown'
      exact ih (ht.inv_child hz hc) (hs ▸ hdy)

end Territories

/-- What holds of the loop where each item has its territory. -/
private structure Owned (key : β → κ) (inv : σ → Prop) (owns : σ → κ → Prop) (stack : List σ)
    (acc : List β) : Prop where
  inv : ∀ x ∈ stack, inv x
  nodup : (acc.map key).Nodup
  kept : ∀ x ∈ stack, ∀ b ∈ acc, ¬owns x (key b)
  apart : stack.Pairwise fun y z => ∀ k, owns y k → ¬owns z k

private theorem Owned.step
    (ht : Territories expand key inv owns) (h : Owned key inv owns (x :: rest) acc) :
    Owned key inv owns ((expand x).2.reverse ++ rest) (acc ++ (expand x).1) := by
  have hx : inv x := h.inv x mem_cons_self
  obtain ⟨hxrest, hr⟩ := pairwise_cons.mp h.apart
  refine ⟨fun y hy => ?_, ?_, fun y hy b hb => ?_, ?_⟩
  · rcases mem_append.mp hy with hy | hy
    · exact ht.inv_child hx (mem_reverse.mp hy)
    · exact h.inv y (mem_cons_of_mem _ hy)
  · rw [map_append]
    refine h.nodup.append (ht.nodup hx) fun k hacc hnew => ?_
    obtain ⟨b, hb, rfl⟩ := mem_map.mp hacc
    obtain ⟨c, hc, heq⟩ := mem_map.mp hnew
    exact h.kept x mem_cons_self b hb (heq ▸ ht.yields hx hc)
  · rcases mem_append.mp hy with hy | hy
    · have hy := mem_reverse.mp hy
      rcases mem_append.mp hb with hb | hb
      · exact fun hown => h.kept x mem_cons_self b hb (ht.inner hx hy hown)
      · exact ht.fresh hx hy hb
    · rcases mem_append.mp hb with hb | hb
      · exact h.kept y (mem_cons_of_mem _ hy) b hb
      · exact hxrest y hy _ (ht.yields hx hb)
  · refine pairwise_append.mpr ⟨?_, hr, fun y hy z hz k hown => ?_⟩
    · refine pairwise_reverse.mpr ((ht.apart hx).imp fun hyz k hz hy => ?_)
      exact hyz k hy hz
    · exact hxrest z hz k (ht.inner hx (mem_reverse.mp hy) hown)

private theorem Owned.run
    (ht : Territories expand key inv owns) : ∀ (fuel : Nat) {stack : List σ} {acc : List β},
    Owned key inv owns stack acc → walk expand fuel stack acc = some out → (out.map key).Nodup
  | 0, _, _, _, h => by cases h
  | _ + 1, [], _, hown, h => by cases h; exact hown.nodup
  | fuel + 1, _ :: _, _, hown, h => Owned.run ht fuel (hown.step ht) h

/-- **Where each item has its territory, nothing is yielded twice.** -/
theorem nodup_walk
    (ht : Territories expand key inv owns) (hx : inv x) (h : walk expand fuel [x] [] = some out) :
    (out.map key).Nodup := by
  have hs : Owned key inv owns [x] [] := by
    refine ⟨fun y hy => ?_, nodup_nil, fun y _ b hb => ?_, pairwise_singleton _ _⟩
    · rw [mem_singleton.mp hy]
      exact hx
    · cases hb
  exact hs.run ht fuel h

theorem inv_of_reaches (inv : σ → Prop) (hs : ∀ x y, inv x → y ∈ (expand x).2 → inv y)
    (hx : inv x) (h : Reaches expand x y) : inv y := by
  induction h with
  | refl => exact hx
  | tail _ hc ih => exact hs _ _ ih hc

theorem not_acc_of_endless (endless : σ → Prop)
    (hs : ∀ x, endless x → ∃ y ∈ (expand x).2, endless y) (hx : endless x) :
    ¬Acc (Child expand) x := by
  intro hacc
  induction hacc with
  | intro x _ ih =>
    obtain ⟨y, hy, hend⟩ := hs x hx
    exact ih y hy hend

end AeroFtp.Worklist
