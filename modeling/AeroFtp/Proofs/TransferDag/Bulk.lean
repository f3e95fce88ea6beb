/-
What the planner of bulks returns.

Its groups are a partition of the entries' indices, none of them empty.  And it puts two
files into one group exactly if there are two that fit: two entries with one key, none
with that key between them, that stay within the bounds together.  The first such pair is
the first time the planner finds an open group that admits an entry; up to there every
group is a single file, and what is open is known.
-/
import AeroFtp.TransferDag.Bulk
import Mathlib.Data.List.Range

namespace AeroFtp.Dag

open Sync List Grouping

variable {host : HostPaths} {gather : Bool} {keyFor : TransferEntry → Option Path}
  {entries : List TransferEntry} {st : Grouping} {entry : TransferEntry}

/-! ### A partition -/

theorem flatten_modify_perm (groups : BulkGroups) (g index : Nat) (h : g < groups.length) :
    (groups.modify g (· ++ [index])).flatten.Perm (groups.flatten ++ [index]) := by
  induction groups generalizing g with
  | nil => simp at h
  | cons group groups ih =>
    cases g with
    | zero =>
      rw [modify_zero_cons, flatten_cons, flatten_cons, append_assoc, append_assoc]
      exact perm_append_comm.append_left group
    | succ g =>
      rw [modify_succ_cons, flatten_cons, flatten_cons, append_assoc]
      exact (ih g (by simpa using h)).append_left group

theorem mem_modify_self {groups : BulkGroups} {g index : Nat} {group : List Nat}
    (h : groups[g]? = some group) : group ++ [index] ∈ groups.modify g (· ++ [index]) := by
  refine mem_iff_getElem?.mpr ⟨g, ?_⟩
  rw [getElem?_modify_eq, h]
  rfl

/-- Every open group is one of the groups, and none of them is empty. -/
structure Grouping.Sound (st : Grouping) : Prop where
  opened : ∀ key o, st.opened key = some o → o.group < st.groups.length
  filled : ∀ group ∈ st.groups, group ≠ []

theorem Grouping.retain_apply (st : Grouping) (gather : Bool) (key : Option Path) (k : Path) :
    st.retain gather key k = if gather = true ∨ key = some k then st.opened k else none := by
  unfold retain
  by_cases hg : gather = true <;> simp [hg]

@[simp] theorem Grouping.retain_self (st : Grouping) (gather : Bool) (k : Path) :
    st.retain gather (some k) k = st.opened k := by
  rw [retain_apply, if_pos (Or.inr rfl)]

theorem Grouping.retain_eq_some {key : Option Path} {k : Path} {o : Open}
    (h : st.retain gather key k = some o) : st.opened k = some o := by
  rw [retain_apply] at h
  split at h
  · exact h
  · cases h

variable (host gather keyFor) in
/-- What the body of the loop can do: the entry joins an open group, or it begins one. -/
theorem Grouping.place_cases (st : Grouping) (index : Nat) (entry : TransferEntry) :
    (∃ k o, entry.boundedKey host keyFor = some k ∧ st.opened k = some o ∧
      o.admits host (st.groups.getD o.group []).length entry = true ∧
      (st.place host gather keyFor index entry).groups =
        st.groups.modify o.group (· ++ [index]) ∧
      (st.place host gather keyFor index entry).opened =
        Function.update (st.retain gather (some k)) k (some (o.add host entry))) ∨
    ((∀ k o, entry.boundedKey host keyFor = some k → st.opened k = some o →
        o.admits host (st.groups.getD o.group []).length entry = false) ∧
      (st.place host gather keyFor index entry).groups = st.groups ++ [[index]] ∧
      ∀ k, (st.place host gather keyFor index entry).opened k =
        if entry.boundedKey host keyFor = some k then
          some (Open.first host st.groups.length entry)
        else st.retain gather (entry.boundedKey host keyFor) k) := by
  cases hkey : entry.boundedKey host keyFor with
  | none =>
    right
    refine ⟨by simp, ?_, ?_⟩ <;> simp [place, hkey]
  | some k =>
    cases hopen : (st.opened k).filter fun current =>
        current.admits host (st.groups.getD current.group []).length entry with
    | some o =>
      left
      obtain ⟨hret, hadm⟩ := Option.filter_eq_some_iff.mp hopen
      refine ⟨k, o, rfl, hret, hadm, ?_, ?_⟩ <;> simp only [place, hkey, retain_self, hopen]
    | none =>
      right
      refine ⟨?_, by simp only [place, hkey, retain_self, hopen], ?_⟩
      · intro k' o hk hret
        cases hk
        simpa using Option.filter_eq_none_iff.mp hopen o hret
      · intro k'
        simp only [place, hkey, retain_self, hopen, Function.update_apply,
          Option.some.injEq, eq_comm]

variable (host gather keyFor) in
theorem Grouping.Sound.place (hst : st.Sound) (index : Nat) (entry : TransferEntry) :
    (st.place host gather keyFor index entry).Sound ∧
      (st.place host gather keyFor index entry).groups.flatten.Perm
        (st.groups.flatten ++ [index]) := by
  obtain ⟨k, o, -, hret, -, hgroups, hopened⟩ | ⟨-, hgroups, hopened⟩ :=
    place_cases host gather keyFor st index entry
  · have ho : o.group < st.groups.length := hst.opened k o hret
    refine ⟨⟨?_, ?_⟩, hgroups ▸ flatten_modify_perm st.groups o.group index ho⟩
    · intro k' o' ho'
      rw [hopened] at ho'
      rw [hgroups, length_modify]
      by_cases hk : k' = k
      · subst hk
        rw [Function.update_self] at ho'
        cases ho'
        exact ho
      · rw [Function.update_of_ne hk] at ho'
        exact hst.opened k' o' (retain_eq_some ho')
    · intro group hgroup
      rw [hgroups] at hgroup
      obtain ⟨j, hj, rfl⟩ := getElem_of_mem hgroup
      rw [getElem_modify]
      split
      · simp
      · exact hst.filled _ (getElem_mem _)
  · refine ⟨⟨?_, ?_⟩, ?_⟩
    · intro k' o' ho'
      rw [hgroups, length_append]
      rw [hopened] at ho'
      split at ho'
      · cases ho'
        exact Nat.lt_succ_self _
      · exact Nat.lt_succ_of_lt (hst.opened k' o' (retain_eq_some ho'))
    · intro group hgroup
      rw [hgroups] at hgroup
      rcases mem_append.mp hgroup with hgroup | hgroup
      · exact hst.filled group hgroup
      · rw [mem_singleton.mp hgroup]
        simp
    · rw [hgroups]
      simp

variable (host gather keyFor) in
theorem Grouping.Sound.planFrom (hst : st.Sound) (index : Nat) (entries : List TransferEntry) :
    (planFrom host gather keyFor index st entries).Sound ∧
      (planFrom host gather keyFor index st entries).groups.flatten.Perm
        (st.groups.flatten ++ range' index entries.length) := by
  induction entries generalizing index st with
  | nil => exact ⟨hst, by simp [Dag.planFrom]⟩
  | cons entry entries ih =>
    obtain ⟨hn, hp⟩ := hst.place host gather keyFor index entry
    obtain ⟨hend, hr⟩ := ih hn (index + 1)
    refine ⟨hend, hr.trans ?_⟩
    rw [length_cons, range'_succ, append_cons]
    exact hp.append_right _

/-- **The groups are a partition of the indices.** -/
theorem planGroupsByKey_partition (host : HostPaths) (entries : List TransferEntry)
    (keyFor : TransferEntry → Option Path) :
    (planGroupsByKey host entries keyFor).flatten.Perm (range entries.length) ∧
      ∀ group ∈ planGroupsByKey host entries keyFor, group ≠ [] := by
  have hst : Grouping.Sound ⟨[], fun _ => none⟩ := ⟨by simp, by simp⟩
  obtain ⟨hend, hp⟩ := hst.planFrom host (destinationsAreDistinct host entries) keyFor 0 entries
  rw [← range_eq_range'] at hp
  exact ⟨hp, hend.filled⟩

/-! ### Which files come together -/

/-- The files `i` and `j` can go out together: one key, with no other file of that key
between them; side by side, where destinations repeat; within the bounds and under two
names. -/
def BulkPair (host : HostPaths) (entries : List TransferEntry)
    (keyFor : TransferEntry → Option Path) (i j : Nat) : Prop :=
  ∃ a b key, i < j ∧ entries[i]? = some a ∧ entries[j]? = some b ∧
    a.boundedKey host keyFor = some key ∧ b.boundedKey host keyFor = some key ∧
    (∀ m e, i < m → m < j → entries[m]? = some e → e.boundedKey host keyFor ≠ some key) ∧
    (destinationsAreDistinct host entries = true ∨ j = i + 1) ∧
    saturatingAdd a.size b.size ≤ maxBulkBytes ∧
    saturatingAdd (saturatingAdd bulkCommandReserveBytes (a.argBytes host)) (b.argBytes host) ≤
      maxBulkPathBytes ∧
    b.portableName host ≠ a.portableName host

/-- The state in front of entry `p` while no two files have come together: what is open
for a key is the last file of that key. -/
structure Apart (host : HostPaths) (entries : List TransferEntry)
    (keyFor : TransferEntry → Option Path) (p : Nat) (st : Grouping) : Prop where
  groups : st.groups = (List.range p).map ([·])
  opened : ∀ key o, st.opened key = some o ↔
    ∃ i a, i < p ∧ entries[i]? = some a ∧ a.boundedKey host keyFor = some key ∧
      (∀ m e, i < m → m < p → entries[m]? = some e → e.boundedKey host keyFor ≠ some key) ∧
      (destinationsAreDistinct host entries = true ∨ p = i + 1) ∧ o = Open.first host i a

theorem Open.admits_first (host : HostPaths) (i : Nat) (a b : TransferEntry) :
    (Open.first host i a).admits host 1 b = true ↔ saturatingAdd a.size b.size ≤ maxBulkBytes ∧
      saturatingAdd (saturatingAdd bulkCommandReserveBytes (a.argBytes host)) (b.argBytes host) ≤
        maxBulkPathBytes ∧ b.portableName host ≠ a.portableName host := by
  simp [Open.admits, Open.first, maxBulkFiles]

theorem Apart.zero : Apart host entries keyFor 0 ⟨[], fun _ => none⟩ := ⟨rfl, by simp⟩

theorem Apart.admits_iff {p : Nat} (hst : Apart host entries keyFor p st)
    (he : entries[p]? = some entry) : (∃ k o, entry.boundedKey host keyFor = some k ∧
      st.opened k = some o ∧ o.admits host (st.groups.getD o.group []).length entry = true) ↔
    ∃ i, BulkPair host entries keyFor i p := by
  have hlen : ∀ i, i < p → (st.groups.getD i []).length = 1 := by
    intro i hi
    rw [hst.groups]
    simp [hi]
  constructor
  · rintro ⟨k, o, hkey, hret, hadm⟩
    obtain ⟨i, a, hi, ha, hak, hbetween, hn, rfl⟩ := (hst.opened k o).mp hret
    rw [show (Open.first host i a).group = i from rfl, hlen i hi, Open.admits_first] at hadm
    exact ⟨i, a, entry, k, hi, ha, he, hak, hkey, hbetween, hn, hadm⟩
  · rintro ⟨i, a, b, k, hi, ha, hb, hak, hbk, hbetween, hn, hadm⟩
    cases he.symm.trans hb
    refine ⟨k, .first host i a, hbk,
      (hst.opened k _).mpr ⟨i, a, hi, ha, hak, hbetween, hn, rfl⟩, ?_⟩
    rw [show (Open.first host i a).group = i from rfl, hlen i hi, Open.admits_first]
    exact hadm

theorem Apart.place {p : Nat} (hst : Apart host entries keyFor p st)
    (hentry : entries[p]? = some entry) (hno : ∀ i, ¬ BulkPair host entries keyFor i p) :
    Apart host entries keyFor (p + 1)
      (st.place host (destinationsAreDistinct host entries) keyFor p entry) := by
  have hlen : st.groups.length = p := by simp [hst.groups]
  obtain ⟨k, o, hkey, hret, hadm, -⟩ | ⟨-, hgroups, hopened⟩ :=
    place_cases host (destinationsAreDistinct host entries) keyFor st p entry
  · obtain ⟨i, hp⟩ := (hst.admits_iff hentry).mp ⟨k, o, hkey, hret, hadm⟩
    exact absurd hp (hno i)
  · refine ⟨?_, ?_⟩
    · rw [hgroups, hst.groups, range_succ, map_append, map_singleton]
    · intro key o
      rw [hopened, hlen]
      split
      next hkey =>
        -- The entry itself is the last file of its key.
        constructor
        · intro ho
          exact ⟨p, entry, Nat.lt_succ_self p, hentry,
            hkey, by omega, .inr rfl, (Option.some.inj ho).symm⟩
        · rintro ⟨i, a, hi, ha, -, hb, -, rfl⟩
          have hip : i = p := by
            by_contra hne
            exact hb p entry (by omega) (Nat.lt_succ_self p) hentry hkey
          subst hip
          rw [Option.some.inj (hentry.symm.trans ha)]
      next hkey =>
        rw [retain_apply]
        constructor
        · intro ho
          split at ho
          next hkeep =>
            obtain ⟨i, a, hi, ha, hak, hb, -, rfl⟩ := (hst.opened key o).mp ho
            refine ⟨i, a, by omega, ha, hak, ?_, .inl (hkeep.resolve_right hkey), rfl⟩
            intro m e him hmp he
            by_cases hm : m = p
            · subst hm
              rw [← Option.some.inj (hentry.symm.trans he)]
              exact hkey
            · exact hb m e him (by omega) he
          next => cases ho
        · rintro ⟨i, a, hi, ha, hak, hb, hnear, rfl⟩
          have hip : i ≠ p := by
            rintro rfl
            rw [Option.some.inj (hentry.symm.trans ha)] at hkey
            exact hkey hak
          have hgather : destinationsAreDistinct host entries = true :=
            hnear.resolve_right (by omega)
          rw [if_pos (.inl hgather)]
          exact (hst.opened key _).mpr ⟨i, a, by omega, ha, hak,
            fun m e him hmp => hb m e him (by omega), .inl hgather, rfl⟩

theorem planFrom_keeps (index : Nat) (rest : List TransferEntry)
    (h : ∃ group ∈ st.groups, 2 ≤ group.length) :
    ∃ group ∈ (planFrom host gather keyFor index st rest).groups, 2 ≤ group.length := by
  induction rest generalizing index st with
  | nil => exact h
  | cons entry rest ih =>
    refine ih (index + 1) ?_
    obtain ⟨group, hgroup, htwo⟩ := h
    obtain ⟨k, o, -, -, -, hgroups, -⟩ | ⟨-, hgroups, -⟩ :=
      place_cases host gather keyFor st index entry
    · obtain ⟨j, hj⟩ := mem_iff_getElem?.mp hgroup
      by_cases hjo : o.group = j
      · exact ⟨group ++ [index], hgroups ▸ mem_modify_self (hjo ▸ hj), by simp; omega⟩
      · refine ⟨group, mem_iff_getElem?.mpr ⟨j, ?_⟩, htwo⟩
        rw [hgroups, getElem?_modify_ne _ _ hjo, hj]
    · exact ⟨group, hgroups ▸ mem_append_left _ hgroup, htwo⟩

/-- From a state where the files are apart, two of the rest come together exactly if one
of the rest is the second file of a pair. -/
theorem Apart.planFrom {p : Nat} (rest : List TransferEntry) (hr : entries.drop p = rest)
    (hst : Apart host entries keyFor p st) :
    (∃ group ∈ (planFrom host (destinationsAreDistinct host entries) keyFor p st rest).groups,
      2 ≤ group.length) ↔ ∃ i j, p ≤ j ∧ BulkPair host entries keyFor i j := by
  induction rest generalizing p st with
  | nil =>
    have hend : entries.length ≤ p := drop_eq_nil_iff.mp hr
    constructor
    · rintro ⟨group, hgroup, htwo⟩
      rw [Dag.planFrom, hst.groups, mem_map] at hgroup
      obtain ⟨i, -, rfl⟩ := hgroup
      simp at htwo
    · rintro ⟨i, j, hj, a, b, key, -, -, hb, -⟩
      have : j < entries.length := (List.getElem?_eq_some_iff.mp hb).1
      omega
  | cons entry rest ih =>
    have hentry : entries[p]? = some entry := by
      rw [← head?_drop, hr, head?_cons]
    have htail : entries.drop (p + 1) = rest := by
      rw [← drop_drop, hr, drop_one, tail_cons]
    rw [Dag.planFrom]
    by_cases hp : ∃ i, BulkPair host entries keyFor i p
    · obtain ⟨k, o, hkey, ho, hadm⟩ := (hst.admits_iff hentry).mpr hp
      obtain ⟨i, hi⟩ := hp
      refine iff_of_true (planFrom_keeps (p + 1) rest ?_) ⟨i, p, Nat.le_refl p, hi⟩
      -- The entry joins the group of one file it finds open.
      obtain ⟨k', o', hkey', ho', -, hgroups, -⟩ | ⟨hn, -⟩ :=
        place_cases host (destinationsAreDistinct host entries) keyFor st p entry
      · obtain ⟨i', a, hi', -, -, -, -, rfl⟩ := (hst.opened k' o').mp ho'
        have hgroup : st.groups[i']? = some [i'] := by
          rw [hst.groups, getElem?_map, getElem?_range hi']
          rfl
        exact ⟨[i'] ++ [p], hgroups ▸ mem_modify_self hgroup, by simp⟩
      · rw [hn k o hkey ho] at hadm
        cases hadm
    · rw [ih htail (hst.place hentry (not_exists.mp hp))]
      constructor
      · rintro ⟨i, j, hj, hij⟩
        exact ⟨i, j, by omega, hij⟩
      · rintro ⟨i, j, hj, hij⟩
        refine ⟨i, j, ?_, hij⟩
        by_contra hlt
        have hjp : j = p := by omega
        exact hp ⟨i, hjp ▸ hij⟩

/-- **Two files share an invocation exactly if some two files fit together.** -/
theorem planGroupsByKey_together_iff (host : HostPaths) (entries : List TransferEntry)
    (keyFor : TransferEntry → Option Path) :
    (∃ group ∈ planGroupsByKey host entries keyFor, 2 ≤ group.length) ↔
      ∃ i j, BulkPair host entries keyFor i j := by
  rw [planGroupsByKey, Apart.zero.planFrom entries drop_zero]
  simp

end AeroFtp.Dag
