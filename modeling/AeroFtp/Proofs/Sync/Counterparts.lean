/-
Which names of two folders stand for each other.

`Counterparts` is the rule on two sets of names: the same name, or the only names with
one normal form.  It matches a name with one name at most, from either side.  `pairNames`
follows it: it has each name of either folder once, with its counterpart where there is one.
-/
import AeroFtp.Sync.Names

namespace AeroFtp.Sync

open Std List TreeMap

section
variable {Name Form : Type} {form : Name → Form} {L R : Name → Prop} {n n' m m' : Name}

/-- The same name on both sides, or the only names with one form; a name that the other side
has is not matched with a different one. -/
inductive Counterparts (form : Name → Form) (L R : Name → Prop) : Name → Name → Prop
  | exact {n : Name} (hl : L n) (hr : R n) : Counterparts form L R n n
  | alone {n m : Name} (hl : L n) (hr : R m) (hnot : ¬R n) (hform : form m = form n)
      (hlocal : ∀ n', L n' → form n' = form n → n' = n)
      (hremote : ∀ m', R m' → form m' = form n → m' = m) : Counterparts form L R n m

namespace Counterparts

variable (h : Counterparts form L R n m)
include h

theorem left : L n := by
  cases h <;> assumption

theorem right : R m := by
  cases h <;> assumption

theorem form_eq : form n = form m := by
  cases h with
  | exact _ _ => rfl
  | alone _ _ _ hf _ _ => exact hf.symm

theorem functional (h' : Counterparts form L R n m') : m = m' := by
  cases h with
  | exact hl hr =>
    cases h' with
    | exact _ _ => rfl
    | alone _ _ hnot _ _ _ => exact absurd hr hnot
  | alone hl hr hnot hf hlocal hremote =>
    cases h' with
    | exact _ hr' => exact absurd hr' hnot
    | alone _ hr' _ hf' _ _ => exact (hremote m' hr' hf').symm

theorem symm : Counterparts form R L m n := by
  cases h with
  | exact hl hr => exact .exact hr hl
  | alone hl hr hnot hf hlocal hremote =>
    refine .alone hr hl (fun hm => ?_) hf.symm (fun m' hm' hf' => ?_) fun n' hn' hf' => ?_
    · exact hnot (hlocal m hm hf ▸ hr)
    · exact hremote m' hm' (hf'.trans hf)
    · exact hlocal n' hn' (hf'.trans hf)

end Counterparts

end

/-- The sides of a name, by the rule. -/
inductive Stands (nfc : Nfc) (L R : Path → Prop) : Sides → Prop
  | both {n m : Path} (h : Counterparts nfc.form L R n m) : Stands nfc L R (.both n m)
  | localOnly {n : Path} (hl : L n) (h : ∀ m, ¬Counterparts nfc.form L R n m) :
      Stands nfc L R (.localOnly n)
  | remoteOnly {m : Path} (hr : R m) (h : ∀ n, ¬Counterparts nfc.form L R n m) :
      Stands nfc L R (.remoteOnly m)

def Sides.swap : Sides → Sides
  | both ln rn => both rn ln
  | localOnly ln => remoteOnly ln
  | remoteOnly rn => localOnly rn

theorem Stands.swap {nfc : Nfc} {L R : Path → Prop} {sides : Sides} (h : Stands nfc L R sides) :
    Stands nfc R L sides.swap := by
  cases h with
  | both h => exact .both h.symm
  | localOnly hl h => exact .remoteOnly hl fun m hm => h m hm.symm
  | remoteOnly hr h => exact .localOnly hr fun n hn => h n hn.symm

variable (nfc : Nfc) in
theorem exists_stands_ln (L R : Path → Prop) {n : Path} (h : L n) :
    ∃ sides, Stands nfc L R sides ∧ sides.ln = some n := by
  by_cases hn : ∃ m, Counterparts nfc.form L R n m
  · obtain ⟨m, hm⟩ := hn
    exact ⟨_, .both hm, rfl⟩
  · exact ⟨_, .localOnly h fun m hm => hn ⟨m, hm⟩, rfl⟩

/-! ### The names of a folder -/

variable {nfc : Nfc} {ls rs siblings : Siblings} {name key x : Path} {sides : Sides}
  {ambiguous : Bool}

theorem mem_group : x ∈ group nfc siblings key ↔ x ∈ siblings ∧ nfc.form x = key := by
  simp [group]

theorem nodup_group : (group nfc siblings key).Nodup := nodup_keys.filter _

theorem group_eq_singleton : group nfc siblings key = [x] ↔
    x ∈ siblings ∧ nfc.form x = key ∧ ∀ y, y ∈ siblings → nfc.form y = key → y = x := by
  constructor
  · intro h
    have hx := mem_group.mp (h ▸ mem_singleton.mpr rfl : x ∈ group nfc siblings key)
    refine ⟨hx.1, hx.2, fun y hy hf => ?_⟩
    exact mem_singleton.mp (h ▸ mem_group.mpr ⟨hy, hf⟩)
  · rintro ⟨hx, hf, ho⟩
    refine perm_singleton.mp ((perm_ext_iff_of_nodup nodup_group (nodup_singleton x)).mpr
      fun y => ?_)
    rw [mem_group, mem_singleton]
    constructor
    · rintro ⟨hy, hyform⟩
      exact ho y hy hyform
    · rintro rfl
      exact ⟨hx, hf⟩

/-- It has no counterpart although the other folder has names with its form. -/
def Sides.Crowded (nfc : Nfc) (ls rs : Siblings) : Sides → Prop
  | both _ _ => False
  | localOnly n => ∃ m ∈ rs, nfc.form m = nfc.form n
  | remoteOnly m => ∃ n ∈ ls, nfc.form n = nfc.form m

theorem group_ne_nil : group nfc siblings key ≠ [] ↔ ∃ y ∈ siblings, nfc.form y = key := by
  simp only [ne_eq, eq_nil_iff_forall_not_mem, mem_group, not_forall, not_not]

variable (rs) in
theorem pairLocal_cases (hname : name ∈ ls) :
    (∃ m, pairLocal nfc ls rs name = (.both name m, false) ∧
      Counterparts nfc.form (· ∈ ls) (· ∈ rs) name m) ∨
      (∃ ambiguous, pairLocal nfc ls rs name = (.localOnly name, ambiguous) ∧
      (ambiguous = true ↔ (Sides.localOnly name).Crowded nfc ls rs) ∧
      ∀ m, ¬Counterparts nfc.form (· ∈ ls) (· ∈ rs) name m) := by
  by_cases he : name ∈ rs
  · refine .inl ⟨name, if_pos (contains_iff_mem.mpr he), .exact hname he⟩
  · have hlone : ∀ m, Counterparts nfc.form (· ∈ ls) (· ∈ rs) name m →
        group nfc ls (nfc.form name) = [name] ∧ group nfc rs (nfc.form name) = [m] := by
      intro m h
      cases h with
      | exact _ hr => exact absurd hr he
      | alone hl hr _ hf hlocal hremote =>
        exact ⟨group_eq_singleton.mpr ⟨hl, rfl, hlocal⟩, group_eq_singleton.mpr ⟨hr, hf, hremote⟩⟩
    rw [pairLocal, if_neg (by rwa [contains_iff_mem])]
    split
    · rename_i n m hls hrs
      obtain ⟨hr, hf, hremote⟩ := group_eq_singleton.mp hrs
      have hn := group_eq_singleton.mp hls
      have hlocal : ∀ n', n' ∈ ls → nfc.form n' = nfc.form name → n' = name := fun n' hn' hf' =>
        (hn.2.2 n' hn' hf').trans (hn.2.2 name hname rfl).symm
      exact .inl ⟨m, rfl, .alone hname hr he hf hlocal hremote⟩
    · rename_i hrs
      refine .inr ⟨false, rfl, ?_, fun m h => ?_⟩
      · exact iff_of_false Bool.false_ne_true (mt group_ne_nil.mpr (not_not_intro hrs))
      · rw [(hlone m h).2] at hrs
        cases hrs
    · rename_i hs hnot
      refine .inr ⟨true, rfl, ?_, fun m h => hnot name m (hlone m h).1 (hlone m h).2⟩
      exact iff_of_true rfl (group_ne_nil.mp hs)

theorem mem_unused : name ∈ unused nfc ls rs ↔
    name ∈ rs ∧ ∀ n, ¬Counterparts nfc.form (· ∈ ls) (· ∈ rs) n name := by
  simp only [unused, mem_filter, TreeMap.mem_keys, Bool.not_eq_true', contains_eq_mem,
    decide_eq_false_iff_not, mem_filterMap, not_exists, not_and]
  refine and_congr_right fun _ => ⟨fun h n hn => ?_, fun h n hn hrn => ?_⟩
  · rcases pairLocal_cases rs hn.left with ⟨m, hp, hm⟩ | ⟨_, -, -, hnone⟩
    · refine h n hn.left ?_
      rw [hp, hm.functional hn]
      rfl
    · exact hnone name hn
  · rcases pairLocal_cases rs hn with ⟨m, hp, hm⟩ | ⟨_, hp, -⟩
    · rw [hp] at hrn
      cases hrn
      exact h n hm
    · rw [hp] at hrn
      cases hrn

/-- **The names of a folder are paired by the rule.** -/
theorem mem_pairNames : (sides, ambiguous) ∈ pairNames nfc ls rs ↔
    Stands nfc (· ∈ ls) (· ∈ rs) sides ∧ (ambiguous = true ↔ sides.Crowded nfc ls rs) := by
  simp only [pairNames, mem_append, mem_map, TreeMap.mem_keys, Prod.mk.injEq]
  constructor
  · rintro (⟨n, hn, hp⟩ | ⟨m, hm, rfl, rfl⟩)
    · rcases pairLocal_cases rs hn with ⟨m, hp', hm⟩ | ⟨_, hp', hc, hnone⟩
      · cases hp.symm.trans hp'
        exact ⟨.both hm, iff_of_false Bool.false_ne_true id⟩
      · cases hp.symm.trans hp'
        exact ⟨.localOnly hn hnone, hc⟩
    · obtain ⟨hr, hnone⟩ := mem_unused.mp hm
      refine ⟨.remoteOnly hr hnone, ?_⟩
      rw [Bool.not_eq_true', isEmpty_eq_false_iff]
      exact group_ne_nil
  · rintro ⟨⟨h⟩ | ⟨hl, hnone⟩ | ⟨hr, hnone⟩, hc⟩
    · rename_i n m
      rcases pairLocal_cases rs h.left with ⟨m', hp, hm'⟩ | ⟨_, -, -, hnone⟩
      · refine .inl ⟨n, h.left, ?_⟩
        rw [hp, hm'.functional h, Bool.eq_false_iff.mpr hc.mp]
      · exact absurd h (hnone m)
    · rename_i n
      rcases pairLocal_cases rs hl with ⟨m, -, hm⟩ | ⟨_, hp, hc', -⟩
      · exact absurd hm (hnone m)
      · refine .inl ⟨n, hl, ?_⟩
        rw [hp, Bool.eq_iff_iff.mpr (hc.trans hc'.symm)]
    · refine .inr ⟨_, mem_unused.mpr ⟨hr, hnone⟩, rfl, ?_⟩
      rw [Bool.eq_iff_iff, hc, Bool.not_eq_true', isEmpty_eq_false_iff]
      exact group_ne_nil

theorem exists_mem_pairNames : (∃ ambiguous, (sides, ambiguous) ∈ pairNames nfc ls rs) ↔
    Stands nfc (· ∈ ls) (· ∈ rs) sides := by
  classical
  simp only [mem_pairNames, exists_and_left]
  exact and_iff_left ⟨decide (sides.Crowded nfc ls rs), decide_eq_true_iff⟩

theorem swap_mem_pairNames (h : (sides, ambiguous) ∈ pairNames nfc ls rs) :
    (sides.swap, ambiguous) ∈ pairNames nfc rs ls := by
  obtain ⟨hs, hc⟩ := mem_pairNames.mp h
  refine mem_pairNames.mpr ⟨hs.swap, hc.trans ?_⟩
  cases sides <;> exact Iff.rfl

theorem pairLocal_localName (hn : name ∈ ls) : (pairLocal nfc ls rs name).1.localName = name := by
  rcases pairLocal_cases rs hn with ⟨m, hp, -⟩ | ⟨_, hp, -⟩ <;> rw [hp] <;> rfl

theorem nodup_localNames : ((pairNames nfc ls rs).map (·.1.localName)).Nodup := by
  have hl : ls.keys.map ((fun pair => pair.1.localName) ∘ pairLocal nfc ls rs) = ls.keys := by
    refine (map_congr_left fun n hn => ?_).trans (map_id _)
    exact pairLocal_localName (mem_keys.mp hn)
  rw [pairNames, map_append, map_map, map_map, hl]
  refine nodup_keys.append ?_ fun n hn hm => ?_
  · exact (map_id _).symm ▸ nodup_keys.filter _
  · have hm : n ∈ unused nfc ls rs := (map_id (unused nfc ls rs)) ▸ hm
    obtain ⟨hr, hnone⟩ := mem_unused.mp hm
    exact hnone n (.exact (mem_keys.mp hn) hr)

end AeroFtp.Sync
