/-
The listing of a folder by its entries on disk.

Listing fails as a whole if one entry cannot be read.  Otherwise the entries are listed in an
order that depends on their kind and name alone, so that entries that come to a folder do not
change the order of the others.
-/
import AeroFtp.Lib.StableSort
import AeroFtp.Proofs.Cryptomator.Walk
import AeroFtp.Proofs.Cryptomator.Ingest

namespace AeroFtp.Cryptomator

open StableSort List Option

variable {p : Primitives}
variable {dirId : Text} {e : CryptomatorEntry}

/-! ### The order -/

theorem textLe_total (a b : Text) : textLe a b = true ∨ textLe b a = true := by
  induction a generalizing b with
  | nil => exact .inl rfl
  | cons c a ih =>
    cases b with
    | nil => exact .inr rfl
    | cons c' b =>
      by_cases h : c = c'
      · subst h
        simpa [textLe] using ih b
      · have hne : c.toNat ≠ c'.toNat := fun heq => h (Char.toNat_inj.mp heq)
        have hlt : c.toNat < c'.toNat ∨ c'.toNat < c.toNat := by omega
        simpa [textLe, h, Ne.symm h] using hlt

theorem textLe_trans {a b c : Text} (hab : textLe a b = true) (hbc : textLe b c = true) :
    textLe a c = true := by
  induction a generalizing b c with
  | nil => rfl
  | cons x a ih =>
    cases b with
    | nil => cases hab
    | cons y b =>
      cases c with
      | nil => cases hbc
      | cons z c =>
        rw [textLe] at hab hbc ⊢
        by_cases hxy : x = y
        · subst hxy
          rw [if_pos rfl] at hab
          by_cases hxz : x = z
          · rw [if_pos hxz] at hbc ⊢
            exact ih hab hbc
          · rwa [if_neg hxz] at hbc ⊢
        · rw [if_neg hxy, decide_eq_true_eq] at hab
          have hxz : x ≠ z ∧ x.toNat < z.toNat := by
            by_cases hyz : y = z
            · subst hyz
              exact ⟨hxy, hab⟩
            · rw [if_neg hyz, decide_eq_true_eq] at hbc
              refine ⟨fun heq => ?_, Nat.lt_trans hab hbc⟩
              rw [heq] at hab
              omega
          rw [if_neg hxz.1, decide_eq_true_eq]
          exact hxz.2

instance entryLe_total : Std.Total fun a b => entryLe p a b = true where
  total a b := by
    unfold entryLe
    by_cases h : a.isDir = b.isDir
    · rw [if_pos h, if_pos h.symm]
      exact textLe_total _ _
    · rw [if_neg h, if_neg (Ne.symm h)]
      cases ha : a.isDir with
      | true => exact .inl rfl
      | false =>
        rw [ha] at h
        exact .inr (by simpa using Ne.symm h)

instance entryLe_trans : IsTrans CryptomatorEntry fun a b => entryLe p a b = true where
  trans a b c hab hbc := by
    unfold entryLe at hab hbc ⊢
    by_cases h : a.isDir = b.isDir
    · rw [if_pos h] at hab
      rw [h]
      by_cases h' : b.isDir = c.isDir
      · rw [if_pos h'] at hbc ⊢
        exact textLe_trans hab hbc
      · rwa [if_neg h'] at hbc ⊢
    · -- a folder before a file: what follows the file is one too
      rw [if_neg h] at hab
      rw [hab] at h ⊢
      have hb : b.isDir = false := by simpa using Ne.symm h
      have hc : c.isDir = false := by
        by_cases h' : b.isDir = c.isDir
        · rw [← h', hb]
        · rw [if_neg h', hb] at hbc
          cases hbc
      rw [hc]
      rfl

/-! ### Entries as they are listed -/

/-- What is listed of entries on disk; nothing if listing fails. -/
def listed (p : Primitives) (dirId : Text) (slots : List Slot) : List CryptomatorEntry :=
  ((listSlots p dirId slots).getD []).insertionSort fun a b => entryLe p a b = true

/-- All entries can be listed. -/
def listable (p : Primitives) (dirId : Text) (slots : List Slot) : Bool :=
  slots.all fun slot => (listSlot p dirId slot).isSome

theorem listDirInner_getD (v : Vault) (dirId : Text) :
    (listDirInner p v dirId).getD [] = listed p dirId (v.slotsAt (p.hashDirId dirId)) := by
  unfold listDirInner listed Vault.slotsAt
  cases v.folders (p.hashDirId dirId) with
  | none => rfl
  | some slots =>
    rw [bind_some, getD_some]
    cases listSlots p dirId slots <;> rfl

theorem children_eq (v : Vault) (dirId : Text) :
    children p v dirId = (listed p dirId (v.slotsAt (p.hashDirId dirId))).filterMap childOf := by
  rw [children, listDirInner_getD]

theorem files_eq (v : Vault) (dirId : Text) :
    files p v dirId = (listed p dirId (v.slotsAt (p.hashDirId dirId))).filterMap fileOf := by
  rw [files, listDirInner_getD]

theorem isSome_listSlots (dirId : Text) (slots : List Slot) :
    (listSlots p dirId slots).isSome = listable p dirId slots := by
  induction slots with
  | nil => rfl
  | cons slot slots ih =>
    rw [listSlots, listable, all_cons, ← listable, ← ih]
    cases listSlot p dirId slot with
    | none => rfl
    | some entry => rw [bind_some, isSome_map, isSome_some, Bool.true_and]

theorem mem_of_listSlots {slots : List Slot} {l : List CryptomatorEntry}
    (h : listSlots p dirId slots = some l) :
    e ∈ l ↔ ∃ slot ∈ slots, listSlot p dirId slot = some (some e) := by
  induction slots generalizing l with
  | nil =>
    cases h
    simp
  | cons slot slots ih =>
    obtain ⟨entry, he, h⟩ := bind_eq_some_iff.mp h
    obtain ⟨rest, hr, rfl⟩ := map_eq_some_iff.mp h
    rw [mem_append, ih hr]
    simp [he]

theorem mem_listed {slots : List Slot} : e ∈ listed p dirId slots ↔
      listable p dirId slots = true ∧ ∃ slot ∈ slots, listSlot p dirId slot = some (some e) := by
  rw [listed, mem_insertionSort, ← isSome_listSlots]
  cases h : listSlots p dirId slots with
  | none => simp
  | some l => rw [getD_some, mem_of_listSlots h, isSome_some, eq_self, true_and]

theorem listSlots_append (dirId : Text) (a b : List Slot) : listSlots p dirId (a ++ b)
      = (listSlots p dirId a).bind fun la => (listSlots p dirId b).map (la ++ ·) := by
  induction a with
  | nil =>
    rw [nil_append]
    cases listSlots p dirId b <;> rfl
  | cons slot a ih =>
    rw [cons_append, listSlots, listSlots, ih]
    cases listSlot p dirId slot with
    | none => rfl
    | some entry =>
      cases listSlots p dirId a with
      | none => rfl
      | some la =>
        cases listSlots p dirId b with
        | none => rfl
        | some lb => simp [append_assoc]

theorem dirId_of_listSlot {slot : Slot}
    (h : listSlot p dirId slot = some (some e)) : e.dirId = slot.child p := by
  cases slot with
  | c9r name node =>
    cases node with
    | file data =>
      obtain ⟨n, _, rfl⟩ := map_eq_some_iff.mp (some.inj h)
      rfl
    | folder dir =>
      cases dir with
      | unreadable => cases h
      | missing =>
        obtain ⟨n, _, rfl⟩ := map_eq_some_iff.mp (some.inj h)
        rfl
      | text id =>
        obtain ⟨n, _, rfl⟩ := map_eq_some_iff.mp (some.inj h)
        rfl
  | c9s longName dir =>
    cases longName with
    | none => cases h
    | some longName =>
      obtain ⟨n, _, rfl⟩ := map_eq_some_iff.mp (some.inj h)
      rfl

/-! ### The folders and files among them -/

theorem childOf_eq_some_iff {n c : Text} :
    childOf e = some (n, c) ↔ isSafeSegment n = true ∧ e.name = n ∧ e.isDir = true ∧
      e.dirId = some c := by
  unfold childOf
  by_cases h : (isSafeSegment e.name && e.isDir) = true
  · rw [if_pos h]
    rw [Bool.and_eq_true] at h
    constructor
    · intro hsome
      obtain ⟨c', hc', heq⟩ := map_eq_some_iff.mp hsome
      cases heq
      exact ⟨h.1, rfl, h.2, hc'⟩
    · intro ⟨_, hn, _, hid⟩
      rw [hid, hn]
      rfl
  · rw [if_neg h]
    constructor
    · intro hsome
      cases hsome
    · intro ⟨hsafe, hn, hdir, _⟩
      rw [hn, hsafe, hdir] at h
      exact absurd rfl h

theorem fileOf_eq_some_iff {n : Text} :
    fileOf e = some n ↔ isSafeSegment n = true ∧ e.name = n ∧ e.isDir = false := by
  unfold fileOf
  by_cases h : (isSafeSegment e.name && !e.isDir) = true
  · rw [if_pos h, some.injEq]
    rw [Bool.and_eq_true, Bool.not_eq_true'] at h
    constructor
    · intro heq
      exact ⟨heq ▸ h.1, heq, h.2⟩
    · intro ⟨_, hn, _⟩
      exact hn
  · rw [if_neg h]
    constructor
    · intro hsome
      cases hsome
    · intro ⟨hsafe, hn, hdir⟩
      rw [hn, hsafe, hdir] at h
      exact absurd rfl h

theorem mem_children {v : Vault} {n c : Text} :
    (n, c) ∈ children p v dirId ↔ listable p dirId (v.slotsAt (p.hashDirId dirId)) = true ∧
      isSafeSegment n = true ∧ ∃ slot ∈ v.slotsAt (p.hashDirId dirId),
        listSlot p dirId slot = some (some ⟨n, true, some c⟩) := by
  rw [children_eq, mem_filterMap]
  constructor
  · intro ⟨e, he, hc⟩
    obtain ⟨hlist, slot, hslot, hlisted⟩ := mem_listed.mp he
    obtain ⟨hsafe, hn, hdir, hid⟩ := childOf_eq_some_iff.mp hc
    obtain ⟨name, isDir, dirId⟩ := e
    cases hn
    cases hdir
    cases hid
    exact ⟨hlist, hsafe, slot, hslot, hlisted⟩
  · intro ⟨hlist, hsafe, slot, hslot, hlisted⟩
    exact ⟨_, mem_listed.mpr ⟨hlist, slot, hslot, hlisted⟩,
      childOf_eq_some_iff.mpr ⟨hsafe, rfl, rfl, rfl⟩⟩

theorem mem_files {v : Vault} {n : Text} :
    n ∈ files p v dirId ↔ listable p dirId (v.slotsAt (p.hashDirId dirId)) = true ∧
      isSafeSegment n = true ∧ ∃ slot ∈ v.slotsAt (p.hashDirId dirId), ∃ id,
        listSlot p dirId slot = some (some ⟨n, false, id⟩) := by
  rw [files_eq, mem_filterMap]
  constructor
  · intro ⟨e, he, hf⟩
    obtain ⟨hlist, slot, hslot, hlisted⟩ := mem_listed.mp he
    obtain ⟨hsafe, hn, hdir⟩ := fileOf_eq_some_iff.mp hf
    obtain ⟨name, isDir, id⟩ := e
    cases hn
    cases hdir
    exact ⟨hlist, hsafe, slot, hslot, id, hlisted⟩
  · intro ⟨hlist, hsafe, slot, hslot, id, hlisted⟩
    exact ⟨_, mem_listed.mpr ⟨hlist, slot, hslot, hlisted⟩,
      fileOf_eq_some_iff.mpr ⟨hsafe, rfl, rfl⟩⟩

section Fresh

variable {fresh : Text → Bool}

theorem filter_filterMap_childOf (l : List CryptomatorEntry) :
    (l.filterMap childOf).filter (fun e => !fresh e.2)
      = (l.filter fun e => e.dirId.any (!fresh ·)).filterMap childOf := by
  induction l with
  | nil => rfl
  | cons e l ih =>
    cases hc : childOf e with
    | some nc =>
      obtain ⟨n, c⟩ := nc
      have hid := (childOf_eq_some_iff.mp hc).2.2.2
      rw [filterMap_cons_some hc, filter_cons, filter_cons, hid, any_some, ih]
      cases fresh c with
      | true => rfl
      | false => simp [hc]
    | none =>
      rw [filterMap_cons_none hc, filter_cons, ih]
      cases e.dirId.any (!fresh ·) with
      | true => rw [if_pos rfl, filterMap_cons_none hc]
      | false => rfl

/-- **Entries that lead to fresh ids leave the others in their order.** -/
theorem children_listed_append {a b : List Slot} (hb : listable p dirId b = true)
    (hf : ∀ slot ∈ b, ∀ c, slot.child p = some c → fresh c = true)
    (hold : ∀ slot ∈ a, ∀ c, slot.child p = some c → fresh c = false) :
    ((listed p dirId (a ++ b)).filterMap childOf).filter (fun e => !fresh e.2)
      = (listed p dirId a).filterMap childOf := by
  rw [← isSome_listSlots] at hb
  obtain ⟨lb, hlb⟩ := isSome_iff_exists.mp hb
  unfold listed
  rw [listSlots_append, hlb]
  cases hla : listSlots p dirId a with
  | none => rfl
  | some la =>
    simp only [bind_some, map_some, getD_some]
    have hk : ((la.insertionSort fun a b => entryLe p a b = true).filterMap childOf).filter
        (fun e => !fresh e.2)
        = (la.insertionSort fun a b => entryLe p a b = true).filterMap childOf := by
      refine filter_eq_self.mpr fun nc hnc => ?_
      obtain ⟨e, he, hc⟩ := mem_filterMap.mp hnc
      obtain ⟨slot, hs, hlisted⟩ := (mem_of_listSlots hla).mp ((mem_insertionSort _).mp he)
      have hid := (childOf_eq_some_iff.mp hc).2.2.2
      rw [dirId_of_listSlot hlisted] at hid
      rw [hold slot hs nc.2 hid]
      rfl
    have hnone : lb.filter (fun e => e.dirId.any (!fresh ·)) = [] := by
      refine filter_eq_nil_iff.mpr fun e he => ?_
      obtain ⟨slot, hs, hlisted⟩ := (mem_of_listSlots hlb).mp he
      rw [dirId_of_listSlot hlisted]
      cases hid : slot.child p with
      | none => simp
      | some c => simp [hf slot hs c hid]
    rw [← hk, filter_filterMap_childOf, filter_filterMap_childOf, filter_insertionSort,
      filter_insertionSort, filter_append, hnone, append_nil]

end Fresh

end AeroFtp.Cryptomator
