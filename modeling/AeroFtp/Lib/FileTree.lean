/-
A tree of files as a POSIX system shows it.

A place is the list of names that lead to it from a root; what stands there is a file with its
data, a folder, a link or something else.  The calls below look at a place without following a
link there; none of them is made on a place behind a link.

Two views of a tree carry the proofs: the data of the files, and the places of the folders.
-/
import Mathlib.Data.List.Infix

namespace AeroFtp.FileTree

open List

variable {N D : Type}

inductive Entry (D : Type) where
  | file (data : D)
  /-- A folder, with whether every user may write in it. -/
  | folder (worldWritable : Bool)
  | link
  | special
  deriving DecidableEq, Repr

abbrev Tree (N D : Type) := List N → Option (Entry D)

inductive Errno
  | notFound
  | notADirectory
  | isADirectory
  | alreadyExists
  | permissionDenied
  | invalidInput
  | other
  deriving DecidableEq, Repr

variable (tree : Tree N D) (place : List N)

def Tree.isFolder : Bool :=
  match tree place with
  | some (.folder _) => true
  | _ => false

/-- The data of the file at a place, if one stands there. -/
def Tree.fileAt : Option D :=
  match tree place with
  | some (.file data) => some data
  | _ => none

/-- Something that has nothing below it stands at the place. -/
def Tree.isLeaf : Bool :=
  match tree place with
  | some (.file _) => true
  | some .special => true
  | _ => false

/-- A name on the way is no folder. -/
def Tree.isBlocked : Bool := place.inits.any tree.isLeaf

def Tree.lstat : Except Errno (Entry D) :=
  match tree place with
  | some entry => .ok entry
  | none => .error (if tree.isBlocked place then .notADirectory else .notFound)

/-! ### The two views -/

section Views

variable {tree tree' : Tree N D} {place other : List N} {data : D}

theorem isFolder_iff : tree.isFolder place = true ↔ ∃ w, tree place = some (.folder w) := by
  unfold Tree.isFolder
  split <;> simp_all

theorem fileAt_eq_some : tree.fileAt place = some data ↔ tree place = some (.file data) := by
  unfold Tree.fileAt
  split <;> simp_all

theorem fileAt_congr (h : tree' other = tree other) : tree'.fileAt other = tree.fileAt other := by
  rw [Tree.fileAt, h, Tree.fileAt]

theorem isFolder_congr (h : tree' other = tree other) :
    tree'.isFolder other = tree.isFolder other := by
  rw [Tree.isFolder, h, Tree.isFolder]

theorem lstat_ok {entry : Entry D} : tree.lstat place = .ok entry ↔ tree place = some entry := by
  unfold Tree.lstat
  split <;> simp_all

theorem lstat_error {e : Errno} (h : tree.lstat place = .error e) : tree place = none := by
  unfold Tree.lstat at h
  split at h
  · cases h
  · assumption

end Views

/-! ### The calls that change a tree -/

variable [DecidableEq N] {tree tree' : Tree N D} {place other : List N} {data : D}

def Tree.set (tree : Tree N D) (place : List N) (entry : Option (Entry D)) : Tree N D :=
  fun other => if other = place then entry else tree other

/-- `mkdir` with a mode private to the user. -/
def Tree.mkdir (tree : Tree N D) (place : List N) : Except Errno (Tree N D) :=
  match tree.lstat place with
  | .ok _ => .error .alreadyExists
  | .error e =>
    if tree.isFolder place.dropLast then .ok (tree.set place (some (.folder false))) else .error e

def Tree.unlink (tree : Tree N D) (place : List N) : Except Errno (Tree N D) :=
  match tree.lstat place with
  | .error e => .error e
  | .ok (.folder _) => .error .isADirectory
  | .ok _ => .ok (tree.set place none)

variable {entry : Option (Entry D)}

/-- A new file of the same folder is renamed over the place. -/
def Tree.replace (tree : Tree N D) (place : List N) (data : D) : Except Errno (Tree N D) :=
  if !tree.isFolder place.dropLast then .error .notFound
  else if tree.isFolder place then .error .isADirectory
  else .ok (tree.set place (some (.file data)))

/-! ### What each call does -/

@[simp] theorem set_self : tree.set place entry place = entry := by
  simp [Tree.set]

@[simp] theorem set_of_ne (h : other ≠ place) : tree.set place entry other = tree other := by
  simp [Tree.set, h]

theorem mkdir_ok (h : tree.mkdir place = .ok tree') :
    tree place = none ∧ tree.isFolder place.dropLast = true ∧
      tree' = tree.set place (some (.folder false)) := by
  unfold Tree.mkdir at h
  split at h
  · cases h
  · rename_i e he
    by_cases hp : tree.isFolder place.dropLast = true
    · rw [if_pos hp] at h
      cases h
      exact ⟨lstat_error he, hp, rfl⟩
    · rw [if_neg hp] at h
      cases h

theorem unlink_ok (h : tree.unlink place = .ok tree') :
    tree place ≠ none ∧ tree.isFolder place = false ∧ tree' = tree.set place none := by
  unfold Tree.unlink at h
  split at h
  · cases h
  · cases h
  · rename_i entry he hnot
    cases h
    rw [lstat_ok] at hnot
    refine ⟨by simp [hnot], ?_, rfl⟩
    unfold Tree.isFolder
    rw [hnot]
    split
    · rename_i w hw
      cases hw
      exact absurd rfl (he w)
    · rfl

theorem replace_ok (h : tree.replace place data = .ok tree') :
    tree.isFolder place.dropLast = true ∧ tree.isFolder place = false ∧
      tree' = tree.set place (some (.file data)) := by
  unfold Tree.replace at h
  by_cases hp : tree.isFolder place.dropLast = true
  · by_cases hfolder : tree.isFolder place = true
    · simp [hp, hfolder] at h
    · have hfalse : tree.isFolder place = false := by simpa using hfolder
      simp only [hp, hfalse, Bool.not_true, Bool.false_eq_true, if_false, Except.ok.injEq] at h
      exact ⟨hp, hfalse, h.symm⟩
  · simp [hp] at h

/-! ### What the calls do to the files -/

theorem fileAt_set_file : (tree.set place (some (.file data))).fileAt = fun other =>
    if other = place then some data else tree.fileAt other := by
  funext other
  by_cases h : other = place
  · rw [if_pos h, h, fileAt_eq_some, set_self]
  · rw [if_neg h, fileAt_congr (set_of_ne h)]

theorem fileAt_mkdir (h : tree.mkdir place = .ok tree') : tree'.fileAt = tree.fileAt := by
  obtain ⟨hn, -, rfl⟩ := mkdir_ok h
  funext other
  by_cases ho : other = place
  · rw [ho]
    simp [Tree.fileAt, hn]
  · exact fileAt_congr (set_of_ne ho)

theorem fileAt_unlink (h : tree.unlink place = .ok tree') :
    tree'.fileAt = fun other => if other = place then none else tree.fileAt other := by
  obtain ⟨-, -, rfl⟩ := unlink_ok h
  funext other
  by_cases ho : other = place
  · rw [ho]
    simp [Tree.fileAt]
  · rw [if_neg ho, fileAt_congr (set_of_ne ho)]

theorem fileAt_replace (h : tree.replace place data = .ok tree') :
    tree'.fileAt = fun other => if other = place then some data else tree.fileAt other := by
  obtain ⟨-, -, rfl⟩ := replace_ok h
  exact fileAt_set_file

/-! ### What the calls do to the folders -/

theorem isFolder_mkdir (h : tree.mkdir place = .ok tree') :
    tree'.isFolder = fun other => if other = place then true else tree.isFolder other := by
  obtain ⟨-, -, rfl⟩ := mkdir_ok h
  funext other
  by_cases ho : other = place
  · rw [ho]
    simp [Tree.isFolder]
  · rw [if_neg ho, isFolder_congr (set_of_ne ho)]

theorem isFolder_set (hp : tree.isFolder place = false)
    (he : ∀ w, entry ≠ some (.folder w)) : (tree.set place entry).isFolder = tree.isFolder := by
  funext other
  by_cases ho : other = place
  · rw [ho, hp]
    by_contra h
    obtain ⟨w, hw⟩ := isFolder_iff.mp (by simpa using h)
    rw [set_self] at hw
    exact he w hw
  · exact isFolder_congr (set_of_ne ho)

theorem isFolder_unlink (h : tree.unlink place = .ok tree') : tree'.isFolder = tree.isFolder := by
  obtain ⟨-, hp, rfl⟩ := unlink_ok h
  exact isFolder_set hp (fun w hc => by cases hc)

theorem isFolder_replace (h : tree.replace place data = .ok tree') :
    tree'.isFolder = tree.isFolder := by
  obtain ⟨-, hp, rfl⟩ := replace_ok h
  exact isFolder_set hp (fun w hc => by cases hc)

/-! ### Trees of files and private folders -/

/-- Nothing but files and private folders, each in a folder. -/
structure Tree.Clean (tree : Tree N D) : Prop where
  root : tree.isFolder [] = true
  plain : ∀ p, tree p = none ∨ (∃ data, tree p = some (.file data)) ∨ tree p = some (.folder false)
  closed : ∀ p name, tree (p ++ [name]) ≠ none → tree.isFolder p = true

/-- A tree after calls on the way to a place: it stays clean, and folders are only added, and
only on the way there. -/
structure Tree.Extends (place : List N) (tree tree' : Tree N D) : Prop where
  clean : tree.Clean → tree'.Clean
  grows : ∀ q, tree.isFolder q = true → tree'.isFolder q = true
  folders : ∀ q, tree'.isFolder q = true → tree.isFolder q = true ∨ (q <+: place ∧ q ≠ place)

namespace Tree.Clean

omit [DecidableEq N] in
theorem isFolder_of_append (h : tree.Clean) {p rest : List N} (hr : rest ≠ [])
    (hp : tree (p ++ rest) ≠ none) : tree.isFolder p = true := by
  induction rest using reverseRecOn with
  | nil => exact absurd rfl hr
  | append_singleton rest name ih =>
    rw [← append_assoc] at hp
    have hf := h.closed _ _ hp
    cases rest with
    | nil => simpa using hf
    | cons first rest =>
      refine ih (by simp) ?_
      obtain ⟨w, hw⟩ := isFolder_iff.mp hf
      rw [hw]
      simp

omit [DecidableEq N] in
theorem fileAt_of_above (h : tree.Clean) {p q : List N} (hq : q <+: p) (hne : q ≠ p)
    (hp : tree p ≠ none) : tree.fileAt q = none := by
  obtain ⟨rest, rfl⟩ := hq
  have hr : rest ≠ [] := by
    intro hc
    exact hne (by rw [hc, append_nil])
  obtain ⟨w, hw⟩ := isFolder_iff.mp (h.isFolder_of_append hr hp)
  simp [Tree.fileAt, hw]

omit [DecidableEq N] in
theorem isLeaf_iff (h : tree.Clean) {p : List N} : tree.isLeaf p = true ↔ tree.fileAt p ≠ none := by
  unfold Tree.isLeaf Tree.fileAt
  rcases h.plain p with hp | ⟨data, hp⟩ | hp <;> simp [hp]

omit [DecidableEq N] in
theorem lstat_cases (h : tree.Clean) (p : List N) :
    (∃ data, tree.lstat p = .ok (.file data) ∧ tree.fileAt p = some data) ∨
      (tree.lstat p = .ok (.folder false) ∧ tree.isFolder p = true) ∨
      (tree.lstat p = .error .notFound ∧ tree p = none ∧ ∀ q, q <+: p → tree.fileAt q = none) ∨
      (tree.lstat p = .error .notADirectory ∧ tree p = none ∧ ∃ q, q <+: p ∧ q ≠ p ∧
        tree.fileAt q ≠ none) := by
  rcases h.plain p with hp | ⟨data, hp⟩ | hp
  · by_cases hb : tree.isBlocked p = true
    · refine Or.inr (Or.inr (Or.inr ⟨by simp [Tree.lstat, hp, hb], hp, ?_⟩))
      obtain ⟨q, hq, hl⟩ := any_eq_true.mp hb
      refine ⟨q, (mem_inits _ _).mp hq, ?_, h.isLeaf_iff.mp hl⟩
      intro hc
      rw [hc, h.isLeaf_iff, Tree.fileAt, hp] at hl
      exact hl rfl
    · refine Or.inr (Or.inr (Or.inl ⟨by simp [Tree.lstat, hp, hb], hp, ?_⟩))
      intro q hq
      by_contra hf
      exact hb (any_eq_true.mpr ⟨q, (mem_inits _ _).mpr hq, h.isLeaf_iff.mpr hf⟩)
  · exact Or.inl ⟨data, by simp [Tree.lstat, hp], fileAt_eq_some.mpr hp⟩
  · exact Or.inr (Or.inl ⟨by simp [Tree.lstat, hp], isFolder_iff.mpr ⟨false, hp⟩⟩)

/-- A clean tree stays clean where an entry is put into a folder, or taken out, that has nothing
below it. -/
theorem set (h : tree.Clean) {entry : Option (Entry D)} (hplace : tree.isFolder place = false)
    (hpar : tree.isFolder place.dropLast = true)
    (he : entry = none ∨ (∃ data, entry = some (.file data)) ∨ entry = some (.folder false)) :
    (tree.set place entry).Clean := by
  have hk : ∀ p, tree.isFolder p = true → (tree.set place entry).isFolder p = true := by
    intro p hp
    have ho : p ≠ place := by
      intro hc
      rw [hc, hplace] at hp
      cases hp
    rwa [isFolder_congr (set_of_ne ho)]
  refine ⟨hk [] h.root, ?_, ?_⟩
  · intro p
    by_cases hp : p = place
    · rw [hp, set_self]
      exact he
    · rw [set_of_ne hp]
      exact h.plain p
  · intro p name hpres
    by_cases hp : p ++ [name] = place
    · rw [← hp, dropLast_concat] at hpar
      exact hk p hpar
    · rw [set_of_ne hp] at hpres
      exact hk p (h.closed p name hpres)

end Tree.Clean

namespace Tree.Extends

omit [DecidableEq N] in
theorem refl (place : List N) (tree : Tree N D) : tree.Extends place tree :=
  ⟨fun h => h, fun _ h => h, fun _ h => .inl h⟩

omit [DecidableEq N] in
theorem trans {tree'' : Tree N D} (h : Tree.Extends place tree tree')
    (h' : Tree.Extends place tree' tree'') : Tree.Extends place tree tree'' := by
  refine ⟨fun hc => h'.clean (h.clean hc), fun q hq => h'.grows q (h.grows q hq), ?_⟩
  intro q hq
  rcases h'.folders q hq with hq | hq
  · exact h.folders q hq
  · exact .inr hq

end Tree.Extends

theorem extends_mkdir {target : List N} (h : tree.mkdir place = .ok tree') (ht : place <+: target)
    (hne : place ≠ target) : Tree.Extends target tree tree' := by
  have hf := isFolder_mkdir h
  obtain ⟨hnone, hp, rfl⟩ := mkdir_ok h
  refine ⟨fun hc => hc.set ?_ hp (by simp), ?_, ?_⟩
  · simp [Tree.isFolder, hnone]
  · intro q hq
    rw [hf]
    simp [hq]
  · intro q hq
    rw [hf] at hq
    by_cases hqp : q = place
    · exact .inr (hqp ▸ ⟨ht, hne⟩)
    · exact .inl ((if_neg hqp).symm.trans hq)

theorem extends_replace (h : tree.replace place data = .ok tree') :
    Tree.Extends place tree tree' := by
  have hf := isFolder_replace h
  obtain ⟨hpar, hplace, rfl⟩ := replace_ok h
  refine ⟨fun hc => hc.set hplace hpar (by simp), ?_, ?_⟩
  · intro q hq
    rwa [hf]
  · intro q hq
    rw [hf] at hq
    exact .inl hq

theorem extends_unlink (h : tree.unlink place = .ok tree') : Tree.Extends place tree tree' := by
  have hf := isFolder_unlink h
  obtain ⟨ht, hp, rfl⟩ := unlink_ok h
  refine ⟨?_, ?_, ?_⟩
  · intro hc
    refine hc.set hp ?_ (.inl rfl)
    rcases eq_nil_or_concat place with rfl | ⟨front, name, rfl⟩
    · rw [hc.root] at hp
      cases hp
    · rw [concat_eq_append] at ht ⊢
      rw [dropLast_concat]
      exact hc.closed front name ht
  · intro q hq
    rwa [hf]
  · intro q hq
    rw [hf] at hq
    exact .inl hq

end AeroFtp.FileTree
