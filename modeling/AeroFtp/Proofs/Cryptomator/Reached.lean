/-
What a walk of the vault reaches after an ingest.

Entries that are written into the target replace those that were there under their names; the
rest of the vault is walked as before.  So the walk reaches what it reached without the entries
that were replaced, and of the host files those it can: the last of each name, along names it
follows, not too deep, and only if the target can be listed.
-/
import AeroFtp.Proofs.Cryptomator.Listing

namespace AeroFtp.Cryptomator

open GuardedWalk List

variable {p : Primitives} {draws : Draws}
variable {n d : Text}

/-- The vault without the entries of a folder that are under some names. -/
def Vault.without (p : Primitives) (v : Vault) (dirId : Text) (names : List Text) : Vault :=
  ⟨Function.update v.folders (p.hashDirId dirId)
    ((v.folders (p.hashDirId dirId)).map (·.filter (keeps p dirId names)))⟩

theorem slotsAt_without (hp : p.Sound) (v : Vault) (dirId : Text) (names : List Text) (d : Text) :
    (v.without p dirId names).slotsAt (p.hashDirId d) = if d = dirId then
      (v.slotsAt (p.hashDirId d)).filter (keeps p dirId names) else v.slotsAt (p.hashDirId d) := by
  unfold Vault.slotsAt Vault.without
  split
  next h =>
    subst h
    simp only [Function.update_self]
    cases v.folders (p.hashDirId d) <;> rfl
  next h => simp only [Function.update_of_ne fun heq => h (hp.hash_injective _ _ heq)]

/-- An id that was drawn. -/
def isNew (draws : Draws) (hi : Nat) (id : Text) : Bool :=
  (List.range hi).any fun i => draws.uuid i == id

theorem isNew_iff {hi : Nat} {id : Text} :
    isNew draws hi id = true ↔ ∃ i < hi, id = draws.uuid i := by
  rw [isNew, any_eq_true]
  constructor
  · intro ⟨i, hi, heq⟩
    exact ⟨i, mem_range.mp hi, (eq_of_beq heq).symm⟩
  · intro ⟨i, hi, heq⟩
    exact ⟨i, mem_range.mpr hi, by rw [heq]; exact beq_self_eq_true _⟩

/-! ### New entries in a listing -/

theorem listSlot_file (hp : p.Sound) (dirId n : Text) (data : Bytes) :
    listSlot p dirId (.c9r (p.encryptFilename dirId n) (.file data)) = some
      (some ⟨n, false, none⟩) := by
  rw [listSlot, hp.decrypt_encrypt]
  rfl

theorem listSlot_folder (hp : p.Sound) (dirId n id : Text) :
    listSlot p dirId (.c9r (p.encryptFilename dirId n) (.folder (.text id)))
      = some (some ⟨n, true, some (trim p id)⟩) := by
  rw [listSlot, hp.decrypt_encrypt]
  rfl

variable {W : Text → Text → Prop} {lo hi : Nat} {slot : Slot}

theorem NewSlot.isSome_listSlot (h : NewSlot p draws W d lo hi slot) :
    (listSlot p d slot).isSome = true := by
  obtain ⟨n, node, _, rfl, hn⟩ := h
  rcases hn with ⟨data, content, rfl, _⟩ | ⟨j, _, _, rfl⟩
  · rfl
  · rfl

theorem NewSlot.of_listSlot_folder (hp : p.Sound) (hd : draws.Distinct p)
    (h : NewSlot p draws W d lo hi slot) {c : Text}
    (hl : listSlot p d slot = some (some ⟨n, true, some c⟩)) :
    W d n ∧ ∃ j, j < hi ∧ c = draws.uuid j ∧
      slot = .c9r (p.encryptFilename d n) (.folder (.text (draws.uuid j))) := by
  obtain ⟨m, node, hm, rfl, hn⟩ := h
  rcases hn with ⟨data, content, rfl, _⟩ | ⟨j, _, hj, rfl⟩
  · rw [listSlot_file hp] at hl
    cases hl
  · rw [listSlot_folder hp, hd.trim_uuid] at hl
    cases hl
    exact ⟨hm, j, hj, rfl, rfl⟩

theorem NewSlot.of_listSlot_file (hp : p.Sound) (h : NewSlot p draws W d lo hi slot)
    {id : Option Text} (hl : listSlot p d slot = some (some ⟨n, false, id⟩)) :
    W d n ∧ ∃ data content, slot = .c9r (p.encryptFilename d n) (.file data) ∧
      decryptData p data = some content := by
  obtain ⟨m, node, hm, rfl, hn⟩ := h
  rcases hn with ⟨data, content, rfl, hd⟩ | ⟨j, _, hj, rfl⟩
  · rw [listSlot_file hp] at hl
    cases hl
    exact ⟨hm, data, content, rfl, hd⟩
  · rw [listSlot_folder hp] at hl
    cases hl

/-! ### Ways by names -/

/-- The folder under a name. -/
def stepInto (p : Primitives) (v : Vault) (dirId name : Text) : Option Text :=
  match nodeAt p v dirId name with
  | some (.folder (.text id)) => some (trim p id)
  | _ => none

variable {dirId name : Text} {v : Vault}

theorem stepInto_eq_some_iff : stepInto p v dirId name = some d ↔
    ∃ id, nodeAt p v dirId name = some (.folder (.text id)) ∧ d = trim p id := by
  unfold stepInto
  split
  case h_1 id hn => simp [hn, eq_comm]
  case h_2 hn =>
    constructor
    · intro h
      cases h
    · intro ⟨id, h, _⟩
      exact absurd h (hn id)

theorem resolve_stepInto (h : stepInto p v dirId name = some d)
    (path : List Text) : resolve p v dirId (name :: path) = resolve p v d path := by
  obtain ⟨id, hn, rfl⟩ := stepInto_eq_some_iff.mp h
  rw [resolve, hn]

variable {content : Bytes}

theorem decryptFile_eq_some_iff :
    decryptFile p v dirId name = some content ↔
      ∃ data, nodeAt p v dirId name = some (.file data) ∧ decryptData p data = some content := by
  rw [decryptFile_eq, Option.bind_eq_some_iff]
  constructor
  · intro ⟨node, hn, h⟩
    cases node with
    | file data => exact ⟨data, hn, h⟩
    | folder dir => cases h
  · intro ⟨data, hn, h⟩
    exact ⟨.file data, hn, h⟩

theorem resolve_singleton (v : Vault) (dirId name : Text) :
    resolve p v dirId [name] = decryptFile p v dirId name := by
  rw [resolve, decryptFile_eq]
  cases nodeAt p v dirId name with
  | none => rfl
  | some node =>
    cases node with
    | file data => rfl
    | folder dir => cases dir <;> rfl

/-- Names that lead from the target along written entries. -/
inductive Leads (p : Primitives) (W : Text → Text → Prop) (v : Vault) (target : Text) :
    List Text → Text → Prop
  | here : Leads p W v target [] target
  | next {way : List Text} {d n d' : Text} (h : Leads p W v target way d)
      (hsafe : isSafeSegment n = true)
      (hW : W d n) (hstep : stepInto p v d n = some d') : Leads p W v target (way ++ [n]) d'

section Leads

variable {v : Vault} {target : Text} {way : List Text} (h : Leads p W v target way d)

include h

theorem Leads.safe : ∀ n ∈ way, isSafeSegment n = true := by
  induction h with
  | here => exact fun n hn => absurd hn not_mem_nil
  | next _ hs _ _ ih =>
    intro n hn
    rcases mem_append.mp hn with hn | hn
    · exact ih n hn
    · rw [mem_singleton.mp hn]
      exact hs

theorem Leads.head_written {n : Text} (hn : W d n) : ∀ m ∈ (way ++ [n]).head?, W target m := by
  induction h generalizing n with
  | here =>
    intro m hm
    cases hm
    exact hn
  | next _ _ hW _ ih =>
    rw [head?_append_of_ne_nil _ (by simp)]
    exact ih hW

theorem Leads.resolve_append (path : List Text) :
    resolve p v target (way ++ path) = resolve p v d path := by
  induction h generalizing path with
  | here => rfl
  | @next way d n d' _ _ _ hs ih =>
    rw [append_assoc, singleton_append, ih, resolve_stepInto hs]

end Leads

/-! ### The vault after an ingest -/

/-- `v'` is `v` after entries with these names were ingested into the target. -/
structure After (p : Primitives) (draws : Draws) (W : Text → Text → Prop) (v v' : Vault)
    (target : Text) (names : List Text) (hi : Nat) : Prop where
  sound : p.Sound
  distinct : draws.Distinct p
  unused : Unused p draws v 0
  outside : ∀ i, target ≠ draws.uuid i
  grows : Grows p draws W v v' 0 hi
  covers : Covers draws W target names 0 hi

namespace After

variable {v v' : Vault} {target : Text} {names : List Text}
  (h : After p draws W v v' target names hi)

include h

theorem isNew_root : isNew draws hi [] = false := by
  rw [← Bool.not_eq_true, isNew_iff]
  intro ⟨i, _, heq⟩
  exact h.distinct.nonempty i heq.symm

theorem isNew_target : isNew draws hi target = false := by
  rw [← Bool.not_eq_true, isNew_iff]
  intro ⟨i, _, heq⟩
  exact h.outside i heq

theorem place (hn : W d n) : d = target ∧ n ∈ names ∨ ∃ i < hi, d = draws.uuid i :=
  (h.covers.only d n hn).imp id fun ⟨i, _, hi, heq⟩ => ⟨i, hi, heq⟩

theorem slotsAt_kept (d : Text) : (v.without p target names).slotsAt (p.hashDirId d)
    = (v.slotsAt (p.hashDirId d)).filter (kept p W d) := by
  rw [slotsAt_without h.sound]
  split
  next heq =>
    subst heq
    refine filter_congr fun slot _ => ?_
    rw [Bool.eq_iff_iff, kept_iff]
    simp only [keeps, all_eq_true, Bool.not_eq_true']
    refine ⟨fun hk n hn => ?_, fun hk n hn => hk n (h.covers.own n hn)⟩
    rcases h.place hn with ⟨_, hn⟩ | ⟨i, _, heq⟩
    · exact hk n hn
    · exact absurd heq (h.outside i)
  next hne =>
    refine (filter_eq_self.mpr fun slot hs => kept_iff.mpr fun n hn => ?_).symm
    rcases h.place hn with ⟨heq, _⟩ | ⟨i, _, rfl⟩
    · exact absurd heq hne
    · rw [h.unused.empty i (Nat.zero_le i)] at hs
      cases hs

theorem slotsAt_eq (d : Text) : ∃ new, v'.slotsAt (p.hashDirId d)
    = (v.without p target names).slotsAt (p.hashDirId d) ++ new ∧
      ∀ slot ∈ new, NewSlot p draws W d 0 hi slot := by
  rw [h.slotsAt_kept]
  exact h.grows.entries d

theorem mem (hs : slot ∈ v'.slotsAt (p.hashDirId d)) :
    slot ∈ (v.without p target names).slotsAt (p.hashDirId d) ∨ NewSlot p draws W d 0 hi slot := by
  obtain ⟨new, heq, hall⟩ := h.slotsAt_eq d
  rw [heq, mem_append] at hs
  exact hs.imp id (hall slot)

theorem mem_born {j : Nat} (hs : slot ∈ v'.slotsAt (p.hashDirId (draws.uuid j))) :
    NewSlot p draws W (draws.uuid j) 0 hi slot :=
  h.grows.mem_born h.unused (Nat.zero_le j) hs

theorem isNew_of_kept (hs : slot ∈ (v.without p target names).slotsAt (p.hashDirId d)) {c : Text}
    (hc : slot.child p = some c) : isNew draws hi c = false := by
  rw [h.slotsAt_kept] at hs
  rw [← Bool.not_eq_true, isNew_iff]
  intro ⟨i, _, heq⟩
  rw [heq] at hc
  exact h.unused.unreferenced i (Nat.zero_le i) d slot (mem_filter.mp hs).1 hc

theorem listable_eq (d : Text) : listable p d (v'.slotsAt (p.hashDirId d))
    = listable p d ((v.without p target names).slotsAt (p.hashDirId d)) := by
  obtain ⟨new, heq, hall⟩ := h.slotsAt_eq d
  have hnew : listable p d new = true :=
    all_eq_true.mpr fun slot hs => (hall slot hs).isSome_listSlot
  rw [heq, listable, all_append, ← listable, ← listable, hnew, Bool.and_true]

theorem listable_born (j : Nat) :
    listable p (draws.uuid j) (v'.slotsAt (p.hashDirId (draws.uuid j))) = true :=
  all_eq_true.mpr fun _ hs => (h.mem_born hs).isSome_listSlot

/-! ### The walk after an ingest -/

theorem extends_without :
    Extends (children p (v.without p target names)) (children p v') (isNew draws hi) := by
  constructor
  · intro d _
    obtain ⟨new, heq, hall⟩ := h.slotsAt_eq d
    rw [children_eq, children_eq, heq]
    refine children_listed_append ?_ ?_ fun slot hs c => h.isNew_of_kept hs
    · exact all_eq_true.mpr fun slot hs => (hall slot hs).isSome_listSlot
    · intro slot hs c hchild
      obtain ⟨n, node, _, rfl, hn⟩ := hall slot hs
      rcases hn with ⟨data, content, rfl, _⟩ | ⟨j, _, hj, rfl⟩
      · cases hchild
      · rw [Slot.child, h.distinct.trim_uuid] at hchild
        exact isNew_iff.mpr ⟨j, hj, (Option.some.inj hchild).symm⟩
  · intro d hd e he
    obtain ⟨j, _, rfl⟩ := isNew_iff.mp hd
    obtain ⟨_, _, slot, hs, hl⟩ := mem_children.mp he
    obtain ⟨_, i, hi, hc, _⟩ := (h.mem_born hs).of_listSlot_folder h.sound h.distinct hl
    exact isNew_iff.mpr ⟨i, hi, hc⟩

theorem mem_entered_without {x : List Text × Text} :
    x ∈ (v.without p target names).entered p ↔ x ∈ v'.entered p ∧ isNew draws hi x.2 = false :=
  mem_entered_old h.extends_without h.isNew_root

theorem mem_entered_target {q : List Text} :
    (q, target) ∈ v.entered p ↔ (q, target) ∈ v'.entered p := by
  have hagree : ∀ d, d ≠ target → children p v d = children p (v.without p target names) d := by
    intro d hne
    rw [children_eq, children_eq, slotsAt_without h.sound, if_neg hne]
  have hw : (q, target) ∈ (v.without p target names).entered p ↔ (q, target) ∈ v'.entered p := by
    rw [h.mem_entered_without, and_iff_left h.isNew_target]
  rw [← hw]
  exact ⟨mem_entered_of_agree hagree, mem_entered_of_agree fun d hne => (hagree d hne).symm⟩

theorem edge_new {i : Nat} (hi : i < hi) (he : (n, draws.uuid i) ∈ children p v' d) :
    W d n ∧ nodeAt p v' d n = some (.folder (.text (draws.uuid i))) := by
  obtain ⟨_, _, slot, hs, hl⟩ := mem_children.mp he
  rcases h.mem hs with hold | hnew
  · have hf := h.isNew_of_kept hold (dirId_of_listSlot hl).symm
    rw [isNew_iff.mpr ⟨i, hi, rfl⟩] at hf
    cases hf
  · obtain ⟨hn, j, _, hij, rfl⟩ := hnew.of_listSlot_folder h.sound h.distinct hl
    rw [hij]
    exact ⟨hn, findC9r_of_mem (h.grows.single d n hn) hs⟩

theorem stepInto_new {d' : Text} (hn : W d n) (hs : stepInto p v' d n = some d') :
    ∃ i < hi, d' = draws.uuid i ∧ nodeAt p v' d n = some (.folder (.text (draws.uuid i))) := by
  obtain ⟨id, hnode, rfl⟩ := stepInto_eq_some_iff.mp hs
  obtain ⟨i, _, hi, heq⟩ := (h.grows.nodeAt_new h.sound hn hnode).folder_range
  injection heq with heq
  subst heq
  exact ⟨i, hi, h.distinct.trim_uuid i, hnode⟩

theorem leads_of_resolve (path : List Text) :
    ∀ {way d}, Leads p W v' target way d → (∀ n ∈ path, isSafeSegment n = true) →
    (∀ n ∈ path.head?, ∀ node, nodeAt p v' d n = some node → W d n) →
      resolve p v' d path = some content →
    ∃ way' d' n, way ++ path = way' ++ [n] ∧ Leads p W v' target way' d' ∧ isSafeSegment n = true ∧
      W d' n ∧ decryptFile p v' d' n = some content := by
  induction path with
  | nil =>
    intro way d _ _ _ hf
    cases hf
  | cons n path ih =>
    intro way d hl hsafe hh hf
    have hn := hsafe n mem_cons_self
    by_cases hp : path = []
    · subst hp
      rw [resolve_singleton] at hf
      obtain ⟨data, hnode, _⟩ := decryptFile_eq_some_iff.mp hf
      exact ⟨way, d, n, rfl, hl, hn, hh n rfl _ hnode, hf⟩
    · cases hstep : stepInto p v' d n with
      | some d' =>
        rw [resolve_stepInto hstep] at hf
        obtain ⟨id, hnode, _⟩ := stepInto_eq_some_iff.mp hstep
        have hW := hh n rfl _ hnode
        obtain ⟨i, _, rfl, _⟩ := h.stepInto_new hW hstep
        obtain ⟨way', d'', m, heq, hr⟩ := ih (hl.next hn hW hstep)
          (fun m hm => hsafe m (mem_cons_of_mem _ hm))
          (fun m _ node hnode => (h.mem_born (mem_of_findC9r hnode)).written h.sound) hf
        exact ⟨way', d'', m, by rw [← heq, append_assoc]; rfl, hr⟩
      | none =>
        -- a file has nothing below it
        rw [resolve] at hf
        split at hf
        case h_1 => rw [if_neg hp] at hf; cases hf
        case h_2 id hnode =>
          have hsome := stepInto_eq_some_iff.mpr ⟨id, hnode, rfl⟩
          rw [hstep] at hsome
          cases hsome
        case h_3 => cases hf

theorem leads_of_entered (way : List Text) : ∀ {d n}, (way, d) ∈ v'.entered p → W d n →
    ∃ q r, (q, target) ∈ v'.entered p ∧ way = q ++ r ∧ Leads p W v' target r d ∧
      (d = target ∨ listable p target (v'.slotsAt (p.hashDirId target)) = true) := by
  induction way using reverseRecOn with
  | nil =>
    intro d n hmem hn
    rcases entered_sound hmem with heq | ⟨w, d', m, _, _, heq⟩
    · obtain rfl : d = [] := congrArg Prod.snd heq
      rcases h.place hn with ⟨rfl, _⟩ | ⟨i, _, heq⟩
      · exact ⟨[], [], hmem, rfl, .here, .inl rfl⟩
      · exact absurd heq.symm (h.distinct.nonempty i)
    · simp at heq
  | append_singleton way m ih =>
    intro d n hmem hn
    rcases h.place hn with ⟨rfl, _⟩ | ⟨i, hi, rfl⟩
    · exact ⟨way ++ [m], [], hmem, (append_nil _).symm, .here, .inl rfl⟩
    rcases entered_sound hmem with heq | ⟨w, d', m', hd', hedge, heq⟩
    · exact absurd (congrArg Prod.snd heq) (h.distinct.nonempty i)
    obtain ⟨rfl, hlast⟩ := append_inj' heq rfl
    obtain rfl := singleton_inj.mp hlast
    obtain ⟨hW, hnode⟩ := h.edge_new hi hedge
    obtain ⟨hlist, hsafe, _⟩ := mem_children.mp hedge
    have hstep : stepInto p v' d' m = some (draws.uuid i) :=
      stepInto_eq_some_iff.mpr ⟨_, hnode, (h.distinct.trim_uuid i).symm⟩
    obtain ⟨q, r, hq, rfl, hleads, ht⟩ := ih hd' hW
    refine ⟨q, r ++ [m], hq, append_assoc _ _ _, hleads.next hsafe hW hstep, .inr ?_⟩
    rcases ht with rfl | ht
    · exact hlist
    · exact ht

theorem edge_new_unique {d' n' : Text} {i : Nat} (hi : i < hi)
    (he : (n, draws.uuid i) ∈ children p v' d) (he' : (n', draws.uuid i) ∈ children p v' d') :
    d = d' ∧ n = n' := by
  have hc (name : Text) :
      (Slot.c9r name (.folder (.text (draws.uuid i)))).child p = some (draws.uuid i) := by
    rw [Slot.child, h.distinct.trim_uuid]
  obtain ⟨rfl, hs⟩ := h.grows.unique i (Nat.zero_le i) hi d d' _ _
    (mem_of_findC9r (h.edge_new hi he).2) (mem_of_findC9r (h.edge_new hi he').2) (hc _) (hc _)
  injection hs with hn
  exact ⟨rfl, encryptFilename_injective h.sound hn⟩

theorem entered_of_leads {q r : List Text} (hq : (q, target) ∈ v'.entered p)
    (hlist : listable p target (v'.slotsAt (p.hashDirId target)) = true)
    (hleads : Leads p W v' target r d) (hlt : (q ++ r).length < maxDepth) :
    (q ++ r, d) ∈ v'.entered p := by
  induction hleads with
  | here =>
    rw [append_nil]
    exact hq
  | @next way d n d' hleads hsafe hn hstep ih =>
    rw [length_append, length_append] at hlt
    have hmem := ih (by rw [length_append]; omega)
    obtain ⟨i, hi, rfl, hnode⟩ := h.stepInto_new hn hstep
    have hedge : (n, draws.uuid i) ∈ children p v' d := by
      refine mem_children.mpr ⟨?_, hsafe, _, mem_of_findC9r hnode, ?_⟩
      · rcases h.place hn with ⟨rfl, _⟩ | ⟨j, _, rfl⟩
        · exact hlist
        · exact h.listable_born j
      · rw [listSlot_folder h.sound, h.distinct.trim_uuid]
    -- it is entered by some way, and only this edge leads to it
    obtain ⟨way', hway'⟩ := entered_complete hmem hedge (by rw [length_append]; omega)
    rcases entered_sound hway' with heq | ⟨w, d'', m, hd'', hedge', heq⟩
    · exact absurd (congrArg Prod.snd heq) (h.distinct.nonempty i)
    obtain ⟨rfl, rfl⟩ := h.edge_new_unique hi hedge hedge'
    obtain rfl := entered_way_unique hmem hd''
    rw [← append_assoc, ← heq]
    exact hway'

/-! ### Files after an ingest -/

theorem mem_files_after : n ∈ files p v' d ↔ n ∈ files p (v.without p target names) d ∨
    listable p d (v'.slotsAt (p.hashDirId d)) = true ∧ isSafeSegment n = true ∧ W d n ∧
      ∃ content, decryptFile p v' d n = some content := by
  rw [mem_files, mem_files, ← h.listable_eq]
  constructor
  · intro ⟨hlist, hsafe, slot, hslot, id, hlisted⟩
    rcases h.mem hslot with hold | hnew
    · exact .inl ⟨hlist, hsafe, slot, hold, id, hlisted⟩
    · obtain ⟨hn, data, content, rfl, hd⟩ := hnew.of_listSlot_file h.sound hlisted
      have hnode := findC9r_of_mem (h.grows.single d n hn) hslot
      exact .inr ⟨hlist, hsafe, hn, content, decryptFile_eq_some_iff.mpr ⟨data, hnode, hd⟩⟩
  · rintro (⟨hlist, hsafe, slot, hslot, hlisted⟩ | ⟨hlist, hsafe, _, content, hr⟩)
    · obtain ⟨new, heq, _⟩ := h.slotsAt_eq d
      refine ⟨hlist, hsafe, slot, ?_, hlisted⟩
      rw [heq]
      exact mem_append_left _ hslot
    · obtain ⟨data, hnode, _⟩ := decryptFile_eq_some_iff.mp hr
      exact ⟨hlist, hsafe, _, mem_of_findC9r hnode, none, listSlot_file h.sound _ _ _⟩

theorem isNew_of_file (hf : n ∈ files p (v.without p target names) d) :
    isNew draws hi d = false := by
  rw [← Bool.not_eq_true, isNew_iff]
  rintro ⟨j, _, rfl⟩
  obtain ⟨_, _, slot, hs, _⟩ := mem_files.mp hf
  rw [h.slotsAt_kept, h.unused.empty j (Nat.zero_le j)] at hs
  cases hs

theorem decryptFile_other (hn : ¬W d n) :
    decryptFile p v' d n = decryptFile p (v.without p target names) d n := by
  have hk : nodeAt p (v.without p target names) d n = nodeAt p v d n := by
    rw [nodeAt, h.slotsAt_kept, findC9r_filter fun node => (kept_c9r_iff h.sound).mpr hn, nodeAt]
  rw [decryptFile_eq, decryptFile_eq, h.grows.nodeAt_other h.sound hn, hk]

theorem decryptFile_without (hn : W d n) : decryptFile p (v.without p target names) d n = none := by
  have hnone : nodeAt p (v.without p target names) d n = none := by
    rw [nodeAt, h.slotsAt_kept, findC9r_eq_none_iff]
    intro node hs
    exact (kept_c9r_iff h.sound).mp (mem_filter.mp hs).2 hn
  rw [decryptFile_eq, hnone]
  rfl

end After

end AeroFtp.Cryptomator
