/-
What adding host files changes in the vault on disk.

Files and folders are written into the target, under their names, and into folders with ids
that nothing had before.  Entries of the target under other names stay, folders that were
there stay as they are, and a new id stands in one entry at most.  By the names on the way,
the vault then shows of the host entries the last one of each name.
-/
import AeroFtp.Proofs.Cryptomator.Content

namespace AeroFtp.Cryptomator

open List Option HostEntries

variable {es : HostEntries} {path : Text} {slot : Slot} {node : Node} {slots : List Slot} {i : Nat}

/-! ### Host entries by their paths -/

namespace HostEntries

def names : HostEntries → List Text
  | .nil => []
  | .skipped _ rest => rest.names
  | .file name _ rest => name :: rest.names
  | .folder name _ _ rest => name :: rest.names

/-- All files, the ones that another entry of the same name replaces included. -/
def allFiles : HostEntries → List (List Text × Bytes)
  | .nil => []
  | .skipped _ rest => rest.allFiles
  | .file name content rest => content.toList.map (fun c => ([name], c)) ++ rest.allFiles
  | .folder name _ inside rest => inside.allFiles.map (fun f => (name :: f.1, f.2)) ++ rest.allFiles

/-- A file by its content, or a folder by what is in it. -/
inductive Child
  | file (content : Option Bytes)
  | folder (inside : HostEntries)

/-- The last entry of a name. -/
def last (name : Text) : HostEntries → Option Child
  | .nil => none
  | .skipped _ rest => rest.last name
  | .file n content rest => (rest.last name).or (if n = name then some (.file content) else none)
  | .folder n _ inside rest =>
    (rest.last name).or (if n = name then some (.folder inside) else none)

/-- The file at a path, where of entries with one name the last counts. -/
def lookup : HostEntries → List Text → Option Bytes
  | _, [] => none
  | entries, name :: path =>
    match entries.last name with
    | some (.file content) => if path = [] then content else none
    | some (.folder inside) => inside.lookup path
    | none => none

theorem last_eq_none_iff {name : Text} : es.last name = none ↔ name ∉ es.names := by
  induction es with
  | nil => simp [last, names]
  | skipped why rest ih => exact ih
  | file n content rest ih =>
    rw [last, or_eq_none_iff, ih, names, and_comm]
    simp [eq_comm]
  | folder n readable inside rest _ ih =>
    rw [last, or_eq_none_iff, ih, names, and_comm]
    simp [eq_comm]

/-- The files of an entry under a name. -/
def Child.files (name : Text) : Child → List (List Text × Bytes)
  | .file content => content.toList.map fun c => ([name], c)
  | .folder inside => inside.allFiles.map fun f => (name :: f.1, f.2)

theorem files_subset_of_last {name : Text} {child : Child} (h : es.last name = some child) :
    child.files name ⊆ es.allFiles := by
  induction es with
  | nil => cases h
  | skipped why rest ih => exact ih h
  | file n content rest ih =>
    rcases or_eq_some_iff.mp h with hr | ⟨_, hown⟩
    · exact List.Subset.trans (ih hr) (subset_append_right _ _)
    · obtain ⟨rfl, rfl⟩ : n = name ∧ .file content = child := by simpa using hown
      exact subset_append_left _ _
  | folder n readable inside rest _ ih =>
    rcases or_eq_some_iff.mp h with hr | ⟨_, hown⟩
    · exact List.Subset.trans (ih hr) (subset_append_right _ _)
    · obtain ⟨rfl, rfl⟩ : n = name ∧ .folder inside = child := by simpa using hown
      exact subset_append_left _ _

/-- The file at a path below an entry. -/
def Child.lookup (path : List Text) : Child → Option Bytes
  | .file content => if path = [] then content else none
  | .folder inside => inside.lookup path

theorem lookup_cons (es : HostEntries) (name : Text) (path : List Text) :
    es.lookup (name :: path) = (es.last name).bind (Child.lookup path) := by
  rw [lookup]
  cases es.last name with
  | none => rfl
  | some child => cases child <;> rfl

theorem mem_allFiles_of_lookup {path : List Text} {content : Bytes}
    (h : es.lookup path = some content) : (path, content) ∈ es.allFiles := by
  induction path generalizing es with
  | nil => cases h
  | cons name path ih =>
    rw [lookup_cons] at h
    obtain ⟨child, hl, h⟩ := bind_eq_some_iff.mp h
    refine files_subset_of_last hl ?_
    cases child with
    | file c =>
      obtain ⟨rfl, rfl⟩ : path = [] ∧ c = some content := by simpa [Child.lookup] using h
      exact mem_cons_self
    | folder inside => exact mem_map.mpr ⟨(path, content), ih h, rfl⟩

end HostEntries

/-! ### Entries on disk -/

variable {p : Primitives} {draws : Draws}

/-- The entries of a folder on disk; none if it is not there. -/
def Vault.slotsAt (v : Vault) (path : Text) : List Slot := (v.folders path).getD []

variable {name : Text} (v : Vault)

theorem slotsAt_set (path path' : Text) (slots : List Slot) :
    (v.set path slots).slotsAt path' = if path' = path then slots else v.slotsAt path' := by
  simp only [Vault.slotsAt, Vault.set, Function.update_apply]
  split
  · rfl
  · rfl

/-- The id an entry leads to. -/
def Slot.child (p : Primitives) : Slot → Option Text
  | .c9r _ (.folder .missing) => some []
  | .c9r _ (.folder (.text id)) => some (trim p id)
  | .c9r _ _ => none
  | .c9s _ dir => dir.map (trim p)

/-- The entry is not under one of the names. -/
def keeps (p : Primitives) (dirId : Text) (names : List Text) (slot : Slot) : Bool :=
  names.all fun name => !slot.isC9r (p.encryptFilename dirId name)

/-- What lies under a name. -/
def nodeAt (p : Primitives) (v : Vault) (dirId name : Text) : Option Node :=
  findC9r (p.encryptFilename dirId name) (v.slotsAt (p.hashDirId dirId))

theorem encryptFilename_injective (hp : p.Sound) {dirId a b : Text}
    (h : p.encryptFilename dirId a = p.encryptFilename dirId b) : a = b := by
  have hdec := hp.decrypt_encrypt dirId a
  rw [h, hp.decrypt_encrypt] at hdec
  exact (some.inj hdec).symm

theorem decryptFile_eq (dirId name : Text) :
    decryptFile p v dirId name = (nodeAt p v dirId name).bind fun node =>
      match node with
      | .file data => decryptData p data
      | .folder _ => none := by
  unfold decryptFile nodeAt Vault.slotsAt
  cases v.folders (p.hashDirId dirId) with
  | none => rfl
  | some slots =>
    rw [bind_some, getD_some]
    cases findC9r (p.encryptFilename dirId name) slots with
    | none => rfl
    | some node => cases node <;> rfl

/-- What an entry holds, if it is under the name. -/
def Slot.under (name : Text) : Slot → Option Node
  | .c9r n node => if n = name then some node else none
  | .c9s .. => none

theorem under_eq_some_iff : slot.under name = some node ↔ slot = .c9r name node := by
  cases slot with
  | c9r n node' => simp [Slot.under]
  | c9s longName dir => simp [Slot.under]

theorem findC9r_eq (name : Text) (slots : List Slot) :
    findC9r name slots = slots.findSome? (·.under name) := by
  induction slots with
  | nil => rfl
  | cons slot slots ih =>
    cases slot with
    | c9r n node =>
      rw [findC9r, findSome?_cons, Slot.under, ih]
      by_cases h : n = name
      · rw [if_pos h, if_pos h]
      · rw [if_neg h, if_neg h]
    | c9s longName dir => exact ih

theorem findC9r_append (name : Text) (a b : List Slot) :
    findC9r name (a ++ b) = (findC9r name a).or (findC9r name b) := by
  rw [findC9r_eq, findC9r_eq, findC9r_eq, findSome?_append]

theorem findC9r_eq_none_iff : findC9r name slots = none ↔ ∀ node, .c9r name node ∉ slots := by
  rw [findC9r_eq, findSome?_eq_none_iff]
  constructor
  · intro h node hs
    have hnone := h _ hs
    rw [under_eq_some_iff.mpr rfl] at hnone
    cases hnone
  · intro h slot hs
    rw [eq_none_iff_forall_ne_some]
    intro node hnode
    exact h node (under_eq_some_iff.mp hnode ▸ hs)

theorem mem_of_findC9r (h : findC9r name slots = some node) : .c9r name node ∈ slots := by
  rw [findC9r_eq] at h
  obtain ⟨slot, hs, hn⟩ := exists_of_findSome?_eq_some h
  exact under_eq_some_iff.mp hn ▸ hs

theorem findC9r_filter {keep : Slot → Bool} (h : ∀ node, keep (.c9r name node) = true) :
    findC9r name (slots.filter keep) = findC9r name slots := by
  rw [findC9r_eq, findC9r_eq]
  induction slots with
  | nil => rfl
  | cons slot slots ih =>
    cases hk : keep slot with
    | true => rw [filter_cons_of_pos hk, findSome?_cons, findSome?_cons, ih]
    | false =>
      have hnone : slot.under name = none := by
        rw [eq_none_iff_forall_ne_some]
        intro node hnode
        rw [under_eq_some_iff.mp hnode, h] at hk
        cases hk
      rw [filter_cons_of_neg (by simp [hk]), findSome?_cons, hnone, ih]

/-- One entry at most is under the name. -/
def Single (name : Text) (slots : List Slot) : Prop :=
  ∀ node node', .c9r name node ∈ slots → .c9r name node' ∈ slots → node = node'

theorem findC9r_of_mem (hs : Single name slots)
    (h : .c9r name node ∈ slots) : findC9r name slots = some node := by
  cases hf : findC9r name slots with
  | none => exact absurd h (findC9r_eq_none_iff.mp hf node)
  | some node' => rw [hs node' node (mem_of_findC9r hf) h]

theorem mem_putC9r (h : slot ∈ putC9r name node slots) : slot ∈ slots ∨ slot = .c9r name node := by
  rw [putC9r, mem_append, mem_singleton] at h
  exact h.imp (fun h => (mem_filter.mp h).1) id

theorem single_putC9r (name : Text) (node : Node) (slots : List Slot) :
    Single name (putC9r name node slots) := by
  have ho : ∀ node', .c9r name node' ∈ putC9r name node slots → node' = node := by
    intro node' h
    simpa [putC9r, Slot.isC9r] using h
  intro a b ha hb
  rw [ho a ha, ho b hb]

/-! ### What an ingest adds -/

/-- Ids are not drawn twice, and are texts without white space around them. -/
structure Draws.Distinct (p : Primitives) (draws : Draws) : Prop where
  nonempty : ∀ i, draws.uuid i ≠ []
  injective : ∀ i j, draws.uuid i = draws.uuid j → i = j
  trim_uuid : ∀ i, trim p (draws.uuid i) = draws.uuid i

/-- The vault has nothing of the ids that are still to be drawn. -/
structure FreshFrom (p : Primitives) (draws : Draws) (v : Vault) (lo : Nat) : Prop where
  absent : ∀ i, lo ≤ i → v.folders (p.hashDirId (draws.uuid i)) = none
  unreferenced : ∀ i, lo ≤ i → ∀ path, ∀ slot ∈ v.slotsAt path, slot.child p ≠ some (draws.uuid i)

/-- No entry is in a folder that is still to be made, and none leads there. -/
structure Unused (p : Primitives) (draws : Draws) (v : Vault) (lo : Nat) : Prop where
  empty : ∀ i, lo ≤ i → v.slotsAt (p.hashDirId (draws.uuid i)) = []
  unreferenced : ∀ i, lo ≤ i → ∀ d, ∀ slot ∈ v.slotsAt (p.hashDirId d), slot.child p ≠ some
    (draws.uuid i)

theorem FreshFrom.unused {v : Vault} {lo : Nat} (h : FreshFrom p draws v lo) :
    Unused p draws v lo where
  empty i hi := by
    rw [Vault.slotsAt, h.absent i hi]
    rfl
  unreferenced i hi d := h.unreferenced i hi (p.hashDirId d)

variable {W W' : Text → Text → Prop} {d n : Text}

open Classical in
/-- The entry is under none of the names that are written in its folder. -/
noncomputable def kept (p : Primitives) (W : Text → Text → Prop) (d : Text) (slot : Slot) : Bool :=
  decide (∀ n, W d n → slot.isC9r (p.encryptFilename d n) = false)

theorem kept_iff :
    kept p W d slot = true ↔ ∀ n, W d n → slot.isC9r (p.encryptFilename d n) = false :=
  @decide_eq_true_iff _ (Classical.propDecidable _)

theorem kept_c9r_iff (hp : p.Sound) :
    kept p W d (.c9r (p.encryptFilename d n) node) = true ↔ ¬W d n := by
  rw [kept_iff]
  constructor
  · intro h hW
    simpa [Slot.isC9r] using h n hW
  · intro hW m hm
    rw [Slot.isC9r, beq_eq_false_iff_ne]
    intro heq
    exact hW (encryptFilename_injective hp heq ▸ hm)

/-- An entry written by an ingest: a file that reads, or a folder of an id that was drawn. -/
def NewSlot (p : Primitives) (draws : Draws) (W : Text → Text → Prop) (d : Text) (lo hi : Nat)
    (slot : Slot) : Prop :=
  ∃ n node, W d n ∧ slot = .c9r (p.encryptFilename d n) node ∧
    ((∃ data content, node = .file data ∧ decryptData p data = some content) ∨
      ∃ j, lo ≤ j ∧ j < hi ∧ node = .folder (.text (draws.uuid j)))

/-- What writing under these names of these folders, with these draws, does. -/
structure Grows (p : Primitives) (draws : Draws) (W : Text → Text → Prop) (v v' : Vault)
    (lo hi : Nat) : Prop where
  le : lo ≤ hi
  unused : Unused p draws v' hi
  entries : ∀ d, ∃ new, v'.slotsAt (p.hashDirId d)
      = (v.slotsAt (p.hashDirId d)).filter (kept p W d) ++ new ∧
    ∀ slot ∈ new, NewSlot p draws W d lo hi slot
  single : ∀ d n, W d n → Single (p.encryptFilename d n) (v'.slotsAt (p.hashDirId d))
  /-- A new id stands in one entry. -/
  unique : ∀ i, lo ≤ i → i < hi → ∀ d d' slot slot', slot ∈ v'.slotsAt (p.hashDirId d) →
    slot' ∈ v'.slotsAt (p.hashDirId d') → slot.child p = some (draws.uuid i) →
    slot'.child p = some (draws.uuid i) → d = d' ∧ slot = slot'

section Grow

variable {v v' v'' : Vault} {lo mid hi : Nat}

theorem NewSlot.mono {lo' hi' : Nat} (h : NewSlot p draws W d lo hi slot)
    (hW : ∀ n, W d n → W' d n) (hlo : lo' ≤ lo) (hhi : hi ≤ hi') :
    NewSlot p draws W' d lo' hi' slot := by
  obtain ⟨n, node, hn, hs, hnode⟩ := h
  refine ⟨n, node, hW n hn, hs, hnode.imp id ?_⟩
  intro ⟨j, hj, hj', heq⟩
  exact ⟨j, by omega, by omega, heq⟩

theorem NewSlot.written (hp : p.Sound)
    (h : NewSlot p draws W d lo hi (.c9r (p.encryptFilename d n) node)) : W d n := by
  obtain ⟨m, _, hm, heq, _⟩ := h
  injection heq with hn
  exact encryptFilename_injective hp hn ▸ hm

theorem NewSlot.child_range (hd : draws.Distinct p) (h : NewSlot p draws W d lo hi slot)
    (hc : slot.child p = some (draws.uuid i)) : lo ≤ i ∧ i < hi := by
  obtain ⟨n, node, _, rfl, hn⟩ := h
  rcases hn with ⟨data, content, rfl, _⟩ | ⟨j, hj, hj', rfl⟩
  · cases hc
  · rw [Slot.child, hd.trim_uuid] at hc
    rw [← hd.injective j i (some.inj hc)]
    exact ⟨hj, hj'⟩

theorem NewSlot.folder_range {dir : DirFile}
    (h : NewSlot p draws W d lo hi (.c9r name (.folder dir))) :
    ∃ j, lo ≤ j ∧ j < hi ∧ dir = .text (draws.uuid j) := by
  obtain ⟨_, node, _, heq, hn⟩ := h
  injection heq with _ heq
  rcases hn with ⟨data, content, hfile, _⟩ | ⟨j, hj, hj', hfolder⟩
  · rw [hfile] at heq
    cases heq
  · rw [hfolder] at heq
    injection heq with heq
    exact ⟨j, hj, hj', heq⟩

theorem Grows.mem (h : Grows p draws W v v' lo hi) (hs : slot ∈ v'.slotsAt (p.hashDirId d)) :
    slot ∈ v.slotsAt (p.hashDirId d) ∧ kept p W d slot = true ∨ NewSlot p draws W d lo hi slot := by
  obtain ⟨new, hnew, hall⟩ := h.entries d
  rw [hnew, mem_append, mem_filter] at hs
  exact hs.imp id (hall slot)

theorem grows_nil (hun : Unused p draws v lo) : Grows p draws (fun _ _ => False) v v lo lo where
  le := Nat.le_refl lo
  unused := hun
  entries d := by
    refine ⟨[], ?_, fun _ h => absurd h not_mem_nil⟩
    rw [append_nil]
    exact (filter_eq_self.mpr fun _ _ => kept_iff.mpr fun _ => False.elim).symm
  single _ _ := False.elim
  unique i hlo hhi := by omega

theorem Grows.trans (hp : p.Sound) (hd : draws.Distinct p) (h : Grows p draws W v v' lo mid)
    (h' : Grows p draws W' v' v'' mid hi) :
    Grows p draws (fun d n => W d n ∨ W' d n) v v'' lo hi where
  le := Nat.le_trans h.le h'.le
  unused := h'.unused
  entries d := by
    obtain ⟨new, hnew, hall⟩ := h.entries d
    obtain ⟨new', hnew', hall'⟩ := h'.entries d
    refine ⟨new.filter (kept p W' d) ++ new', ?_, fun slot hslot => ?_⟩
    · rw [hnew', hnew, filter_append, List.filter_filter, append_assoc]
      congr 2
      funext slot
      rw [Bool.eq_iff_iff, Bool.and_eq_true, kept_iff, kept_iff, kept_iff]
      simp only [or_imp, forall_and]
      exact and_comm
    · rcases mem_append.mp hslot with hslot | hslot
      · exact (hall slot (mem_filter.mp hslot).1).mono (fun _ => .inl) (Nat.le_refl _) h'.le
      · exact (hall' slot hslot).mono (fun _ => .inr) h.le (Nat.le_refl _)
  single d n hn := by
    by_cases hn' : W' d n
    · exact h'.single d n hn'
    -- under a name that is not written again there is what was there before
    have hold (node : Node) (hslot : .c9r (p.encryptFilename d n) node ∈ v''.slotsAt
        (p.hashDirId d)) :=
      ((h'.mem hslot).resolve_right fun hnew => hn' (hnew.written hp)).1
    have hsingle := h.single d n (hn.resolve_right hn')
    exact fun node node' hslot hslot' => hsingle node node' (hold node hslot) (hold node' hslot')
  unique i hlo hhi d d' slot slot' hslot hslot' hc hc' := by
    by_cases hmid : i < mid
    · have hold {d slot} (hslot : slot ∈ v''.slotsAt (p.hashDirId d))
          (hc : slot.child p = some (draws.uuid i)) : slot ∈ v'.slotsAt (p.hashDirId d) :=
        ((h'.mem hslot).resolve_right fun hnew => by
          have := hnew.child_range hd hc
          omega).1
      exact h.unique i hlo hmid d d' slot slot' (hold hslot hc) (hold hslot' hc') hc hc'
    · exact h'.unique i (by omega) hhi d d' slot slot' hslot hslot' hc hc'

/-- The entries of `v'` are those of `v` with one written. -/
def Puts (p : Primitives) (v v' : Vault) (d n : Text) (node : Node) : Prop :=
  ∀ d', v'.slotsAt (p.hashDirId d') = if d' = d then
    putC9r (p.encryptFilename d n) node (v.slotsAt (p.hashDirId d)) else v.slotsAt (p.hashDirId d')

theorem puts_set (hp : p.Sound) (v : Vault) (d n : Text) (node : Node) :
    Puts p v (v.set (p.hashDirId d)
      (putC9r (p.encryptFilename d n) node (v.slotsAt (p.hashDirId d)))) d n node := by
  intro d'
  rw [slotsAt_set]
  by_cases h : d' = d
  · rw [h, if_pos rfl, if_pos rfl]
  · rw [if_neg h, if_neg fun heq => h (hp.hash_injective _ _ heq)]

theorem puts_createDirInner (hp : p.Sound) {id : Text} (h : createDirInner p v d n id = some v') :
    Puts p v v' d n (.folder (.text id)) := by
  have hs (w : Vault) (path path' : Text) :
      (w.set path (w.slotsAt path)).slotsAt path' = w.slotsAt path' := by
    rw [slotsAt_set]
    split
    next heq => rw [heq]
    next => rfl
  unfold createDirInner at h
  simp only at h
  split at h
  · cases h
  · cases h
    exact fun d' => (hs _ _ _).trans (puts_set hp v d n _ d')

theorem Puts.mem (hput : Puts p v v' d n node) {d' : Text}
    (h : slot ∈ v'.slotsAt (p.hashDirId d')) :
    slot ∈ v.slotsAt (p.hashDirId d') ∨ d' = d ∧ slot = .c9r (p.encryptFilename d n) node := by
  rw [hput d'] at h
  split at h
  next heq =>
    subst heq
    exact (mem_putC9r h).imp id fun h => ⟨rfl, h⟩
  next => exact .inl h

theorem Puts.nodeAt (hput : Puts p v v' d n node) : nodeAt p v' d n = some node := by
  rw [Cryptomator.nodeAt, hput d, if_pos rfl]
  exact findC9r_of_mem (single_putC9r _ _ _) (mem_append_right _ (mem_singleton_self _))

theorem grows_put (hd : draws.Distinct p) (hun : Unused p draws v lo)
    (hdir : ∀ i, lo ≤ i → d ≠ draws.uuid i) (hput : Puts p v v' d n node)
    (hnode : (∃ data content, node = .file data ∧ decryptData p data = some content) ∨
      node = .folder (.text (draws.uuid lo))) :
    Grows p draws (fun d' n' => d' = d ∧ n' = n) v v' lo (lo + 1) := by
  -- what is written leads to the id that is drawn, if anywhere
  have hnew : NewSlot p draws (fun d' n' => d' = d ∧ n' = n) d lo (lo + 1)
      (.c9r (p.encryptFilename d n) node) :=
    ⟨n, node, ⟨rfl, rfl⟩, rfl, hnode.imp id fun h => ⟨lo, Nat.le_refl lo, Nat.lt_succ_self lo, h⟩⟩
  constructor
  case le => exact Nat.le_succ lo
  case unused =>
    constructor
    · intro i hi
      rw [hput, if_neg (Ne.symm (hdir i (by omega)))]
      exact hun.empty i (by omega)
    · intro i hi d' slot hs hc
      rcases hput.mem hs with hs | ⟨_, rfl⟩
      · exact hun.unreferenced i (by omega) d' slot hs hc
      · have := hnew.child_range hd hc
        omega
  case entries =>
    intro d'
    rw [hput d']
    by_cases h : d' = d
    · subst h
      refine ⟨[.c9r (p.encryptFilename d' n) node], ?_, fun slot hs => mem_singleton.mp hs ▸ hnew⟩
      rw [if_pos rfl, putC9r]
      congr 2
      funext slot
      rw [Bool.eq_iff_iff, kept_iff]
      simp
    · refine ⟨[], ?_, fun slot hs => absurd hs not_mem_nil⟩
      rw [if_neg h, append_nil]
      exact (filter_eq_self.mpr fun _ _ => kept_iff.mpr fun _ hn => absurd hn.1 h).symm
  case single =>
    rintro _ _ ⟨rfl, rfl⟩
    rw [hput, if_pos rfl]
    exact single_putC9r _ _ _
  case unique =>
    intro i hlo hhi d' d'' slot slot' hs hs' hc hc'
    obtain ⟨rfl, rfl⟩ := (hput.mem hs).resolve_left fun h => hun.unreferenced i hlo _ _ h hc
    obtain ⟨rfl, rfl⟩ := (hput.mem hs').resolve_left fun h => hun.unreferenced i hlo _ _ h hc'
    exact ⟨rfl, rfl⟩

theorem Grows.nodeAt_other (hp : p.Sound) (h : Grows p draws W v v' lo hi) (hn : ¬W d n) :
    nodeAt p v' d n = nodeAt p v d n := by
  obtain ⟨new, hnew, hall⟩ := h.entries d
  have hnone : findC9r (p.encryptFilename d n) new = none := by
    rw [findC9r_eq_none_iff]
    intro node hs
    exact hn ((hall _ hs).written hp)
  rw [nodeAt, hnew, findC9r_append, hnone, or_none,
    findC9r_filter fun node => (kept_c9r_iff hp).mpr hn, nodeAt]

theorem Grows.nodeAt_new (hp : p.Sound) (h : Grows p draws W v v' lo hi) (hn : W d n)
    (hnode : nodeAt p v' d n = some node) :
    NewSlot p draws W d lo hi (.c9r (p.encryptFilename d n) node) :=
  (h.mem (mem_of_findC9r hnode)).resolve_left fun hold => (kept_c9r_iff hp).mp hold.2 hn

theorem Grows.mem_born (h : Grows p draws W v v' lo hi) (hun : Unused p draws v lo) (hlo : lo ≤ i)
    (hs : slot ∈ v'.slotsAt (p.hashDirId (draws.uuid i))) :
    NewSlot p draws W (draws.uuid i) lo hi slot := by
  refine (h.mem hs).resolve_left fun hold => ?_
  rw [hun.empty i hlo] at hold
  exact absurd hold.1 not_mem_nil

end Grow

/-! ### The vault by names -/

/-- The file at a path below a folder, by what lies under each name. -/
def resolve (p : Primitives) (v : Vault) : Text → List Text → Option Bytes
  | _, [] => none
  | dirId, name :: path =>
    match nodeAt p v dirId name with
    | some (.file data) => if path = [] then decryptData p data else none
    | some (.folder (.text id)) => resolve p v (trim p id) path
    | _ => none

section Names

variable {v v' v'' : Vault} {dirId : Text} {lo mid hi : Nat} {names names' : List Text}
  {name : Text}

theorem resolve_congr {path : List Text} (hn : nodeAt p v' dirId name = nodeAt p v dirId name)
    (hb : ∀ id, nodeAt p v dirId name = some (.folder (.text id)) →
      resolve p v' (trim p id) path = resolve p v (trim p id) path) :
    resolve p v' dirId (name :: path) = resolve p v dirId (name :: path) := by
  rw [resolve, resolve, hn]
  cases hc : nodeAt p v dirId name with
  | none => rfl
  | some node =>
    cases node with
    | file data => rfl
    | folder dir =>
      cases dir with
      | text id => exact hb id hc
      | missing => rfl
      | unreadable => rfl

/-- The names of an ingest into a folder: its own, and any in folders that it makes. -/
structure Covers (draws : Draws) (W : Text → Text → Prop) (dirId : Text) (names : List Text)
    (lo hi : Nat) : Prop where
  own : ∀ n ∈ names, W dirId n
  only : ∀ d n, W d n → d = dirId ∧ n ∈ names ∨ ∃ i, lo ≤ i ∧ i < hi ∧ d = draws.uuid i

section Later

variable (hp : p.Sound) (hd : draws.Distinct p) (hdir : ∀ i, lo ≤ i → dirId ≠ draws.uuid i)
  (hun : Unused p draws v lo) (h : Grows p draws W v v' lo mid)
  (h' : Grows p draws W' v' v'' mid hi) (hcovers : Covers draws W' dirId names' mid hi)

include hp hd hdir hun h h' hcovers

theorem resolve_born (hlo : lo ≤ i) (hmid : i < mid) (path : List Text) :
    resolve p v'' (draws.uuid i) path = resolve p v' (draws.uuid i) path := by
  induction path generalizing i with
  | nil => rfl
  | cons name path ih =>
    refine resolve_congr (h'.nodeAt_other hp fun hn => ?_) fun id hnode => ?_
    · rcases hcovers.only _ _ hn with ⟨heq, _⟩ | ⟨j, hj, _, heq⟩
      · exact hdir i hlo heq.symm
      · have := hd.injective i j heq
        omega
    · obtain ⟨j, hj, hj', heq⟩ := (h.mem_born hun hlo (mem_of_findC9r hnode)).folder_range
      injection heq with heq
      rw [heq, hd.trim_uuid]
      exact ih hj hj'

theorem resolve_other {n : Text} (hn : W dirId n) (hn' : n ∉ names') (path : List Text) :
    resolve p v'' dirId (n :: path) = resolve p v' dirId (n :: path) := by
  refine resolve_congr (h'.nodeAt_other hp fun hW => ?_) fun id hnode => ?_
  · rcases hcovers.only _ _ hW with ⟨_, hmem⟩ | ⟨j, hj, _, heq⟩
    · exact hn' hmem
    · exact hdir j (Nat.le_trans h.le hj) heq
  · obtain ⟨j, hj, hj', heq⟩ := (h.nodeAt_new hp hn hnode).folder_range
    injection heq with heq
    rw [heq, hd.trim_uuid]
    exact resolve_born hp hd hdir hun h h' hcovers hj hj' path

end Later

/-- By names the vault has the host entries below a folder. -/
def Shows (p : Primitives) (v : Vault) (dirId : Text) (es : HostEntries) : Prop :=
  ∀ n ∈ es.names, ∀ path, resolve p v dirId (n :: path) = es.lookup (n :: path)

/-- An ingest of host entries into a folder, as the vault shows it. -/
def Adds (p : Primitives) (draws : Draws) (v v' : Vault) (dirId : Text) (es : HostEntries)
    (lo hi : Nat) : Prop :=
  ∃ W, Grows p draws W v v' lo hi ∧ Covers draws W dirId es.names lo hi ∧ Shows p v' dirId es

theorem Grows.adds_cons (hp : p.Sound) (hd : draws.Distinct p)
    (hdir : ∀ i, lo ≤ i → dirId ≠ draws.uuid i) (hun : Unused p draws v lo)
    (h : Grows p draws W v v' lo mid) (hcovers : Covers draws W dirId [name] lo mid)
    {child : HostEntries.Child}
    (hown : ∀ path, resolve p v' dirId (name :: path) = child.lookup path) {rest : HostEntries}
    (hr : Adds p draws v' v'' dirId rest mid hi) (hnames : es.names = name :: rest.names)
    (hlast : ∀ n, es.last n = (rest.last n).or (if name = n then some child else none)) :
    Adds p draws v v'' dirId es lo hi := by
  obtain ⟨W', h', hcovers', hs⟩ := hr
  refine ⟨_, h.trans hp hd h', ⟨?_, ?_⟩, fun n hn path => ?_⟩
  · rw [hnames]
    exact forall_mem_cons.mpr ⟨.inl (hcovers.own name (mem_singleton_self name)),
      fun n hn => .inr (hcovers'.own n hn)⟩
  · rw [hnames]
    have hlo := h.le
    have hhi := h'.le
    rintro d n (hW | hW)
    · rcases hcovers.only d n hW with ⟨heq, hn⟩ | ⟨i, hi, hi', heq⟩
      · exact .inl ⟨heq, mem_cons.mpr (.inl (mem_singleton.mp hn))⟩
      · exact .inr ⟨i, hi, by omega, heq⟩
    · rcases hcovers'.only d n hW with ⟨heq, hn⟩ | ⟨i, hi, hi', heq⟩
      · exact .inl ⟨heq, mem_cons_of_mem _ hn⟩
      · exact .inr ⟨i, by omega, hi', heq⟩
  · rw [lookup_cons, hlast]
    by_cases hmem : n ∈ rest.names
    · -- an entry before another of the same name does not matter
      obtain ⟨later, hlater⟩ := ne_none_iff_exists'.mp
        (fun hnone => last_eq_none_iff.mp hnone hmem)
      rw [hs n hmem, lookup_cons, hlater, some_or]
    · rw [hnames] at hn
      obtain rfl := (mem_cons.mp hn).resolve_right hmem
      rw [resolve_other hp hd hdir hun h h' hcovers' (hcovers.own n (mem_singleton_self n)) hmem,
        hown, last_eq_none_iff.mpr hmem, none_or, if_pos rfl, bind_some]

theorem Adds.folder (hp : p.Sound) (hd : draws.Distinct p)
    (hdir : ∀ i, lo ≤ i → dirId ≠ draws.uuid i) (hun : Unused p draws v lo)
    (hput : Puts p v v' dirId name (.folder (.text (draws.uuid lo)))) {inside : HostEntries}
    (hin : Adds p draws v' v'' (draws.uuid lo) inside (lo + 1) hi) :
    ∃ W, Grows p draws W v v'' lo hi ∧ Covers draws W dirId [name] lo hi ∧
      ∀ path, resolve p v'' dirId (name :: path)
        = (HostEntries.Child.folder inside).lookup path := by
  obtain ⟨W, h, hcovers, hs⟩ := hin
  have hmake := grows_put hd hun hdir hput (.inr rfl)
  refine ⟨_, hmake.trans hp hd h, ⟨?_, ?_⟩, fun path => ?_⟩
  · exact fun n hn => .inl ⟨rfl, mem_singleton.mp hn⟩
  · have hlt : lo < hi := h.le
    rintro d n (⟨rfl, rfl⟩ | hW)
    · exact .inl ⟨rfl, mem_singleton_self n⟩
    · rcases hcovers.only d n hW with ⟨heq, _⟩ | ⟨i, hi, hi', heq⟩
      · exact .inr ⟨lo, Nat.le_refl lo, hlt, heq⟩
      · exact .inr ⟨i, by omega, hi', heq⟩
  · have hnode : nodeAt p v'' dirId name = some (.folder (.text (draws.uuid lo))) := by
      rw [h.nodeAt_other hp, hput.nodeAt]
      intro hW
      rcases hcovers.only _ _ hW with ⟨heq, _⟩ | ⟨i, hi, _, heq⟩
      · exact hdir lo (Nat.le_refl lo) heq
      · exact hdir i (by omega) heq
    rw [resolve, hnode]
    show resolve p v'' (trim p (draws.uuid lo)) path = inside.lookup path
    rw [hd.trim_uuid]
    cases path with
    | nil => rfl
    | cons n path =>
      by_cases hn : n ∈ inside.names
      · exact hs n hn path
      · -- nothing of another name is in a folder that was empty
        have hnone : nodeAt p v'' (draws.uuid lo) n = none := by
          rw [h.nodeAt_other hp, nodeAt, hput, if_neg (Ne.symm (hdir lo (Nat.le_refl lo))),
            hun.empty lo (Nat.le_refl lo)]
          · rfl
          · intro hW
            rcases hcovers.only _ _ hW with ⟨_, hmem⟩ | ⟨i, hi, _, heq⟩
            · exact hn hmem
            · have := hd.injective lo i heq
              omega
        rw [resolve, hnone, lookup_cons, last_eq_none_iff.mpr hn]
        rfl

end Names

/-! ### The whole ingest -/

section Ingest

theorem skipped_kept (p : Primitives) (draws : Draws) (es : HostEntries) : ∀ dirId s,
    s.report.skipped <+: (ingestPathInner p draws es dirId s).report.skipped := by
  have hs : ∀ (s : Ingest) why, s.report.skipped <+: (s.skip why).report.skipped :=
    fun s why => prefix_append _ _
  induction es with
  | nil => exact fun _ s => prefix_refl _
  | skipped why rest ih => exact fun dirId s => (hs s why).trans (ih dirId _)
  | file name content rest ih =>
    intro dirId s
    refine List.IsPrefix.trans ?_ (ih dirId _)
    unfold ingestFile
    split
    · exact prefix_refl _
    · exact hs s _
  | folder name readable inside rest ihInside ihRest =>
    intro dirId s
    rw [ingestPathInner]
    cases createDirInner p s.vault dirId name (draws.uuid s.drawn) with
    | none => exact (hs s _).trans (ihRest dirId _)
    | some vault =>
      refine List.IsPrefix.trans ?_ (ihRest dirId _)
      cases readable with
      | true =>
        exact ihInside (draws.uuid s.drawn)
          ⟨vault, s.drawn + 1, ⟨s.report.files, s.report.dirs + 1, s.report.skipped⟩⟩
      | false => exact prefix_append _ _

theorem skipped_eq_nil_of {dirId : Text} {s : Ingest}
    (h : (ingestPathInner p draws es dirId s).report.skipped = []) : s.report.skipped = [] := by
  have hk := skipped_kept p draws es dirId s
  rw [h] at hk
  exact prefix_nil.mp hk

theorem skip_ne_nil (s : Ingest) (why : Skip) : (s.skip why).report.skipped ≠ [] := by
  simp [Ingest.skip]

theorem ingestFile_of_not_skipped (hp : p.Sound) (hs : draws.Sized) {dirId name : Text}
    {content : Option Bytes} {s : Ingest}
    (h : (ingestFile p draws dirId name content s).report.skipped = []) :
    ∃ bytes data, content = some bytes ∧ decryptData p data = some bytes ∧
      Puts p s.vault (ingestFile p draws dirId name content s).vault dirId name (.file data) ∧
      (ingestFile p draws dirId name content s).drawn = s.drawn + 1 := by
  unfold ingestFile at h ⊢
  cases hw : content.bind (encryptFileInner p draws s.drawn s.vault dirId name) with
  | none =>
    rw [hw] at h
    exact absurd h (skip_ne_nil s _)
  | some vault =>
    obtain ⟨bytes, rfl, hput⟩ := bind_eq_some_iff.mp hw
    refine ⟨bytes, encryptData p (draws.contentKey s.drawn) (draws.headerNonce s.drawn)
      (draws.chunkNonce s.drawn) bytes, rfl, ?_, ?_, rfl⟩
    · exact decryptData_encryptData hp (hs.contentKey _) (hs.headerNonce _) (hs.chunkNonce _) bytes
    · unfold encryptFileInner at hput
      simp only at hput
      split at hput
      · cases hput
      · cases hput
        exact puts_set hp s.vault dirId name _

/-- **An ingest that skips nothing** writes names of the target and of folders under ids that
were new, and by names the vault then has the host entries below the target. -/
theorem ingest_adds (hp : p.Sound) (hsized : draws.Sized) (hd : draws.Distinct p)
    (es : HostEntries) :
    ∀ dirId s, (∀ i, s.drawn ≤ i → dirId ≠ draws.uuid i) → Unused p draws s.vault s.drawn →
      (ingestPathInner p draws es dirId s).report.skipped = [] →
      Adds p draws s.vault (ingestPathInner p draws es dirId s).vault dirId es s.drawn
        (ingestPathInner p draws es dirId s).drawn := by
  induction es with
  | nil =>
    intro dirId s _ hun _
    exact ⟨_, grows_nil hun, ⟨fun _ hn => absurd hn not_mem_nil, fun _ _ => False.elim⟩,
      fun _ hn => absurd hn not_mem_nil⟩
  | skipped why rest ih =>
    intro dirId s _ _ hskip
    rw [ingestPathInner] at hskip
    exact absurd (skipped_eq_nil_of hskip) (skip_ne_nil s why)
  | file name content rest ih =>
    intro dirId s hdir hun hskip
    obtain ⟨bytes, data, rfl, hdata, hput, hdrawn⟩ :=
      ingestFile_of_not_skipped hp hsized (skipped_eq_nil_of hskip)
    have hfile := grows_put hd hun hdir hput (.inl ⟨data, bytes, rfl, hdata⟩)
    rw [← hdrawn] at hfile
    refine hfile.adds_cons hp hd hdir hun ⟨?_, ?_⟩ (fun path => ?_)
      (ih dirId _ (fun i hi => hdir i (Nat.le_trans hfile.le hi)) hfile.unused hskip) rfl
        fun n => rfl
    · exact fun n hn => ⟨rfl, mem_singleton.mp hn⟩
    · exact fun d n hW => .inl ⟨hW.1, mem_singleton.mpr hW.2⟩
    · rw [resolve, hput.nodeAt]
      simp only [hdata]
      rfl
  | folder name readable inside rest ihInside ihRest =>
    intro dirId s hdir hun hskip
    rw [ingestPathInner] at hskip ⊢
    cases hm : createDirInner p s.vault dirId name (draws.uuid s.drawn) with
    | none =>
      rw [hm] at hskip
      exact absurd (skipped_eq_nil_of hskip) (skip_ne_nil s _)
    | some vault =>
      rw [hm] at hskip
      cases readable with
      | false => exact absurd (skipped_eq_nil_of hskip) (skip_ne_nil _ _)
      | true =>
        -- the folder is filled, then the entries behind it are added
        have hput := puts_createDirInner hp hm
        have hin := ihInside (draws.uuid s.drawn) _ (fun i hi heq => by
            have hlo := hd.injective s.drawn i heq
            simp only at hi
            omega)
          (grows_put hd hun hdir hput (.inr rfl)).unused (skipped_eq_nil_of hskip)
        obtain ⟨W, hfolder, hcovers, hshows⟩ := hin.folder hp hd hdir hun hput
        exact hfolder.adds_cons hp hd hdir hun hcovers hshows
          (ihRest dirId _ (fun i hi => hdir i (Nat.le_trans hfolder.le hi)) hfolder.unused hskip)
            rfl
          fun n => rfl

end Ingest

end AeroFtp.Cryptomator
