/-
What the tree of an inventory holds.

Each entry that is accepted puts its components into the tree, one under the other, and
says of each whether it is a folder.  A name is in a folder of the tree when an entry has
the components that lead to it; it is a folder when the last entry to say so says so.  An
inventory may list a file and entries below it, so the entries can disagree: then it is the
order that decides.
-/
import AeroFtp.Proofs.Sync.Paths

namespace AeroFtp.Sync

open Std List Option

variable {inv : Inventory} {entry : Sigma fun _ : Path => FileInfo}
  {entries : List (Sigma fun _ : Path => FileInfo)} {qs ps : List Path} {name : Path}

/-! ### What an entry says -/

/-- The entry has these first components. -/
def LiesAt (entry : Sigma fun _ : Path => FileInfo) (qs : List Path) : Prop :=
  accepted entry.1 = true ∧ qs <+: splitSlash entry.1

/-- It is below them, or it is a directory with these components. -/
def SaysFolder (entry : Sigma fun _ : Path => FileInfo) (qs : List Path) : Prop :=
  LiesAt entry qs ∧ (qs ≠ splitSlash entry.1 ∨ entry.2.isDir = true)

/-- It is a file with these components. -/
def SaysFile (entry : Sigma fun _ : Path => FileInfo) (qs : List Path) : Prop :=
  LiesAt entry qs ∧ qs = splitSlash entry.1 ∧ entry.2.isDir = false

/-- Some entry has these first components. -/
def Lies (inv : Inventory) (qs : List Path) : Prop := ∃ entry ∈ inv.entries, LiesAt entry qs

/-- These components are a folder: an entry says so, and none behind it lists a file there. -/
def Opens (inv : Inventory) (qs : List Path) : Prop :=
  ∃ before entry behind, inv.entries = before ++ entry :: behind ∧ SaysFolder entry qs ∧
    ∀ later ∈ behind, ¬SaysFile later qs

instance : Decidable (LiesAt entry qs) := inferInstanceAs (Decidable (_ ∧ _))

theorem LiesAt.of_append {rs : List Path} (h : LiesAt entry (qs ++ rs)) : LiesAt entry qs :=
  ⟨h.1, (prefix_append _ _).trans h.2⟩

theorem Lies.of_append {rs : List Path} (h : Lies inv (qs ++ rs)) : Lies inv qs := by
  obtain ⟨entry, he, hl⟩ := h
  exact ⟨entry, he, hl.of_append⟩

theorem LiesAt.slashFree (h : LiesAt entry (qs ++ [name])) : '/' ∉ name :=
  slash_notMem_splitSlash entry.1 name (h.2.subset (by simp))

theorem Lies.slashFree (h : Lies inv (qs ++ [name])) : '/' ∉ name := by
  obtain ⟨entry, -, hl⟩ := h
  exact hl.slashFree

/-- What the entry writes for these components. -/
def touch (entry : Sigma fun _ : Path => FileInfo) (qs : List Path) : Option Bool :=
  if LiesAt entry qs then some (qs ≠ splitSlash entry.1 || entry.2.isDir) else none

theorem touch_isSome : (touch entry qs).isSome = true ↔ LiesAt entry qs := by
  unfold touch
  split <;> simp_all

theorem touch_eq_true : touch entry qs = some true ↔ SaysFolder entry qs := by
  unfold touch SaysFolder
  split <;> simp_all

theorem touch_eq_false : touch entry qs = some false ↔ SaysFile entry qs := by
  unfold touch SaysFile
  split <;> simp_all

/-! ### The tree -/

theorem siblingsAt_insert (tree : Tree) (parent path : Path) (siblings : Siblings) :
    siblingsAt (tree.insert parent siblings) (some path) =
      if parent = path then siblings else siblingsAt tree (some path) := by
  simp only [siblingsAt, bind_some, TreeMap.getElem?_insert, LawfulEqCmp.compare_eq_iff_eq]
  split <;> rfl

theorem getD_eq_siblingsAt (tree : Tree) (path : Path) :
    tree.getD path ∅ = siblingsAt tree (some path) :=
  TreeMap.getD_eq_getD_getElem?

theorem insert_component (tree : Tree) {before : List Path} (hb : Proper before) (hps : Proper ps)
    (component : Path) (flag : Bool) :
    (siblingsAt (tree.insert (pathOf before) ((tree.getD (pathOf before) ∅).insert component flag))
        (some (pathOf ps)))[name]? =
      if before = ps ∧ component = name then some flag else
        (siblingsAt tree (some (pathOf ps)))[name]? := by
  rw [siblingsAt_insert, getD_eq_siblingsAt]
  by_cases hparts : before = ps
  · subst hparts
    simp only [if_true, TreeMap.getElem?_insert, LawfulEqCmp.compare_eq_iff_eq, true_and]
  · have hpath : pathOf before ≠ pathOf ps := fun h => hparts (hb.pathOf_inj hps h)
    simp only [hpath, hparts, if_false, false_and]

theorem insertParts_spec (isDir : Bool) (hps : Proper ps) :
    ∀ (rest : List Path) (tree : Tree) (before : List Path), Proper (before ++ rest).dropLast →
      (siblingsAt (insertParts isDir tree (pathOf before) rest) (some (pathOf ps)))[name]? =
      if before <+: ps ∧ ps ++ [name] <+: before ++ rest then
        some (ps ++ [name] ≠ before ++ rest || isDir)
      else (siblingsAt tree (some (pathOf ps)))[name]? := by
  intro rest
  induction rest with
  | nil =>
    intro tree before _
    have hno : ¬(before <+: ps ∧ ps ++ [name] <+: before ++ []) := by
      rintro ⟨h, h'⟩
      have := h.length_le
      have := h'.length_le
      simp at this
      omega
    rw [if_neg hno]
    rfl
  | cons component rest ih =>
    intro tree before hprop
    have hb : Proper before := by
      rw [dropLast_append_of_ne_nil (by simp)] at hprop
      exact hprop.of_append
    have hs := ih (tree.insert (pathOf before) ((tree.getD (pathOf before) ∅).insert component
      (rest ≠ [] || isDir))) (before ++ [component]) (by simpa using hprop)
    rw [pathOf_append_singleton] at hs
    rw [insertParts, hs, insert_component tree hb hps]
    simp only [append_assoc, singleton_append]
    by_cases hd : before ++ [component] <+: ps ∧ ps ++ [name] <+: before ++ component :: rest
    · have hh : before <+: ps ∧ ps ++ [name] <+: before ++ component :: rest :=
        ⟨(prefix_append _ _).trans hd.1, hd.2⟩
      rw [if_pos hd, if_pos hh]
    · rw [if_neg hd]
      by_cases ht : before = ps ∧ component = name
      · obtain ⟨rfl, rfl⟩ := ht
        simp [eq_comm]
      · rw [if_neg ht, if_neg]
        rintro ⟨⟨more, rfl⟩, hlie⟩
        rw [append_assoc, prefix_append_right_inj] at hlie
        cases more with
        | nil =>
          have hname : name = component := by simpa using hlie
          exact ht ⟨by simp, hname.symm⟩
        | cons next more =>
          have hnext : next = component := by
            have := (cons_prefix_cons.mp hlie).1
            exact this
          subst hnext
          exact hd ⟨by simp, by simpa using hlie⟩

theorem insertEntry_spec (tree : Tree) (hps : Proper ps) :
    (siblingsAt (insertEntry tree entry) (some (pathOf ps)))[name]? =
      (touch entry (ps ++ [name])).or (siblingsAt tree (some (pathOf ps)))[name]? := by
  by_cases hacc : accepted entry.1 = true
  · obtain ⟨init, last, hs⟩ := (eq_nil_or_concat' _).resolve_left (splitSlash_ne_nil entry.1)
    have hprop : Proper ([] ++ splitSlash entry.1).dropLast := by
      rw [nil_append, hs, dropLast_concat]
      exact proper_of_accepted hacc hs
    rw [insertEntry, if_pos hacc]
    refine (insertParts_spec entry.2.isDir hps (splitSlash entry.1) tree [] hprop).trans ?_
    simp only [nil_append, nil_prefix, true_and]
    by_cases hlie : ps ++ [name] <+: splitSlash entry.1
    · rw [if_pos hlie, touch, if_pos ⟨hacc, hlie⟩]
      rfl
    · rw [if_neg hlie, touch, if_neg fun h => hlie h.2]
      rfl
  · rw [insertEntry, if_neg hacc, touch, if_neg fun h => hacc h.1]
    rfl

/-- What the entries say of these components in the end. -/
def said (entries : List (Sigma fun _ : Path => FileInfo)) (qs : List Path) : Option Bool :=
  entries.foldl (fun flag entry => (touch entry qs).or flag) none

theorem said_concat : said (entries ++ [entry]) qs = (touch entry qs).or (said entries qs) := by
  simp [said]

theorem getElem?_siblingsAt (hps : Proper ps) :
    (siblingsAt (tree inv) (some (pathOf ps)))[name]? = said inv.entries (ps ++ [name]) := by
  rw [tree]
  induction inv.entries using reverseRecOn with
  | nil => simp [siblingsAt, said]
  | append_singleton entries entry ih =>
    rw [foldl_append, foldl_cons, foldl_nil, insertEntry_spec _ hps, ih, said_concat]

theorem said_isSome : (said entries qs).isSome = true ↔ ∃ entry ∈ entries, LiesAt entry qs := by
  induction entries using reverseRecOn with
  | nil => simp [said]
  | append_singleton entries entry ih =>
    rw [said_concat, isSome_or, Bool.or_eq_true, touch_isSome, ih]
    simp [or_comm]

theorem said_eq_true : said entries qs = some true ↔ ∃ before entry behind,
    entries = before ++ entry :: behind ∧ SaysFolder entry qs ∧ ∀ later ∈ behind,
      ¬SaysFile later qs := by
  induction entries using reverseRecOn with
  | nil => simp [said]
  | append_singleton entries last ih =>
    rw [said_concat]
    constructor
    · intro h
      cases ht : touch last qs with
      | none =>
        rw [ht, none_or, ih] at h
        obtain ⟨before, entry, behind, rfl, hf, hb⟩ := h
        refine ⟨before, entry, behind ++ [last], by simp, hf, fun later hlater => ?_⟩
        rcases mem_append.mp hlater with hlater | hlater
        · exact hb later hlater
        · rw [mem_singleton.mp hlater, ← touch_eq_false, ht]
          simp
      | some flag =>
        rw [ht] at h
        exact ⟨entries, last, [], rfl, touch_eq_true.mp (ht.trans h), by simp⟩
    · rintro ⟨before, entry, behind, heq, hf, hb⟩
      rcases eq_nil_or_concat' behind with rfl | ⟨behind, later, rfl⟩
      · obtain ⟨-, hlast⟩ := append_inj' heq rfl
        rw [singleton_inj.mp hlast, touch_eq_true.mpr hf]
        rfl
      · have heq' : entries ++ [last] = (before ++ entry :: behind) ++ [later] := by simpa using heq
        obtain ⟨rfl, hlast⟩ := append_inj' heq' rfl
        have hlast : last = later := singleton_inj.mp hlast
        have hs : said (before ++ entry :: behind) qs = some true :=
          ih.mpr ⟨before, entry, behind, rfl, hf, fun l hl => hb l (by simp [hl])⟩
        have hnot : touch last qs ≠ some false := by
          rw [Ne, touch_eq_false, hlast]
          exact hb later (by simp)
        cases ht : touch last qs with
        | none => simpa using hs
        | some flag =>
          cases flag with
          | true => rfl
          | false => exact absurd ht hnot

/-- **The names of a folder in the tree.** -/
theorem mem_siblingsAt (hps : Proper ps) :
    name ∈ siblingsAt (tree inv) (some (pathOf ps)) ↔ Lies inv (ps ++ [name]) := by
  rw [TreeMap.mem_iff_isSome_getElem?, getElem?_siblingsAt hps, said_isSome]
  rfl

/-- **The folders in a folder of the tree.** -/
theorem siblingsAt_eq_true (hps : Proper ps) :
    (siblingsAt (tree inv) (some (pathOf ps)))[name]? = some true ↔ Opens inv (ps ++ [name]) := by
  rw [getElem?_siblingsAt hps, said_eq_true]
  rfl

theorem Opens.lies (h : Opens inv qs) : Lies inv qs := by
  obtain ⟨before, entry, behind, heq, hf, -⟩ := h
  exact ⟨entry, by simp [heq], hf.1⟩

end AeroFtp.Sync
