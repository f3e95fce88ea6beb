/-
A path and its components.

A list of components without a separator is the path `pathOf` makes of it, and
`splitSlash` gives the components back.  The empty name is in the way: at the root it makes
the path of the root again, so lists that start with it are kept out.  No path that is
accepted has one, the empty path apart.
-/
import AeroFtp.Sync.Names
import Mathlib.Data.List.Induction

namespace AeroFtp.Sync

open List

/-- The path with these components. -/
def pathOf (parts : List Path) : Path := parts.foldl join []

variable {parts : List Path} {name path : Path}

@[simp] theorem pathOf_nil : pathOf [] = [] := rfl

@[simp] theorem pathOf_append_singleton : pathOf (parts ++ [name]) = join (pathOf parts) name := by
  simp [pathOf]

theorem join_nil (name : Path) : join [] name = name := rfl

theorem join_of_ne_nil {parent : Path} (h : parent ≠ []) :
    join parent name = parent ++ '/' :: name :=
  if_neg h

/-- Components that make a folder: none has a separator, and the first is not empty. -/
structure Proper (parts : List Path) : Prop where
  slashFree : ∀ n ∈ parts, '/' ∉ n
  head : parts.head? ≠ some []

theorem Proper.nil : Proper [] := ⟨by simp, by simp⟩

theorem Proper.snoc (h : Proper parts) (hname : '/' ∉ name) (hne : parts ++ [name] ≠ [[]]) :
    Proper (parts ++ [name]) where
  slashFree := by
    intro n hn
    rcases mem_append.mp hn with hn | hn
    · exact h.slashFree n hn
    · rw [mem_singleton.mp hn]
      exact hname
  head := by
    cases parts with
    | nil => simpa using hne
    | cons first rest => simpa using h.head

theorem Proper.of_append {rest : List Path} (h : Proper (parts ++ rest)) : Proper parts where
  slashFree n hn := h.slashFree n (mem_append_left _ hn)
  head := by
    cases parts with
    | nil => simp
    | cons first rest => simpa using h.head

theorem Proper.pathOf_eq_nil (h : Proper parts) : pathOf parts = [] ↔ parts = [] := by
  induction parts using reverseRecOn with
  | nil => simp
  | append_singleton init last ih =>
    rw [pathOf_append_singleton]
    by_cases hi : init = []
    · subst hi
      have hl : last ≠ [] := by simpa using h.head
      simp [join_nil, hl]
    · have hne : pathOf init ≠ [] := fun he => hi ((ih h.of_append).mp he)
      simp [join_of_ne_nil hne]

theorem Proper.splitSlash_join (h : Proper parts) (hname : '/' ∉ name) :
    splitSlash (join (pathOf parts) name) = parts ++ [name] := by
  induction parts using reverseRecOn generalizing name with
  | nil =>
    exact splitOn_eq_singleton hname
  | append_singleton init last ih =>
    have hl : '/' ∉ last := h.slashFree last (by simp)
    have hne : pathOf (init ++ [last]) ≠ [] := by
      rw [Ne, h.pathOf_eq_nil]
      simp
    rw [join_of_ne_nil hne, splitSlash, splitOn_append_cons_self, pathOf_append_singleton]
    rw [splitOn_eq_singleton hname]
    exact congrArg (· ++ [name]) (ih h.of_append hl)

theorem Proper.splitSlash_pathOf (h : Proper parts) (hne : parts ≠ []) :
    splitSlash (pathOf parts) = parts := by
  obtain ⟨init, last, rfl⟩ := (eq_nil_or_concat' parts).resolve_left hne
  rw [pathOf_append_singleton]
  exact h.of_append.splitSlash_join (h.slashFree last (by simp))

theorem Proper.pathOf_inj {parts' : List Path} (h : Proper parts) (h' : Proper parts')
    (heq : pathOf parts = pathOf parts') : parts = parts' := by
  by_cases hnil : parts = []
  · subst hnil
    exact (h'.pathOf_eq_nil.mp heq.symm).symm
  · have hnil' : parts' ≠ [] := by
      rintro rfl
      exact hnil (h.pathOf_eq_nil.mp heq)
    rw [← h.splitSlash_pathOf hnil, heq, h'.splitSlash_pathOf hnil']

/-! ### Accepted paths -/

theorem slash_notMem_splitSlash (path : Path) : ∀ part ∈ splitSlash path, '/' ∉ part := by
  induction path with
  | nil => simp [splitSlash]
  | cons c path ih =>
    intro part hp
    rw [splitSlash, splitOn_cons_eq_if_modifyHead] at hp
    split at hp
    · rcases mem_cons.mp hp with rfl | hp
      · simp
      · exact ih part hp
    · rename_i hc
      obtain ⟨first, rest, hs⟩ := exists_cons_of_ne_nil (splitOn_ne_nil '/' path)
      rw [hs] at hp
      rw [splitSlash, hs] at ih
      rcases mem_cons.mp hp with rfl | hp
      · have hne : c ≠ '/' := by simpa using hc
        exact fun h => (mem_cons.mp h).elim (fun h => hne h.symm) (ih first (by simp))
      · exact ih part (by simp [hp])

theorem splitSlash_ne_nil (path : Path) : splitSlash path ≠ [] := splitOn_ne_nil '/' path

theorem intercalate_splitSlash (path : Path) : ['/'].intercalate (splitSlash path) = path :=
  intercalate_splitOn '/'

theorem splitSlash_injective {path path' : Path} (h : splitSlash path = splitSlash path') :
    path = path' := by
  rw [← intercalate_splitSlash path, h, intercalate_splitSlash]

/-- Components that may make a path: none holds a null byte or climbs, and the first does
not look like a root. -/
structure Acceptable (parts : List Path) : Prop where
  nul : ∀ n ∈ parts, '\x00' ∉ n
  dots : ['.', '.'] ∉ parts
  first : ∀ n, parts.head? = some n → n.head? ≠ some '\\' ∧ hasDriveLetter n = false

theorem path_eq_first (path : Path) : ∃ first rest tail, splitSlash path = first :: rest ∧
    path = first ++ tail ∧ (tail = [] ∨ ∃ tail', tail = '/' :: tail') := by
  obtain ⟨first, rest, hs⟩ := exists_cons_of_ne_nil (splitSlash_ne_nil path)
  have hp := intercalate_splitSlash path
  rw [hs] at hp
  cases rest with
  | nil => exact ⟨first, [], [], hs, by simpa using hp.symm, .inl rfl⟩
  | cons second rest =>
    refine ⟨first, second :: rest, '/' :: ['/'].intercalate (second :: rest), hs, ?_, .inr ⟨_, rfl⟩⟩
    rw [← hp]
    simp

theorem mem_intercalate_slash {c : Char} (hc : c ≠ '/') : ∀ parts : List Path,
    c ∈ ['/'].intercalate parts ↔ ∃ part ∈ parts, c ∈ part
  | [] => by simp [intercalate]
  | [part] => by simp [intercalate]
  | part :: next :: parts => by
    rw [intercalate_cons_cons, mem_append, mem_append, mem_intercalate_slash hc (next :: parts)]
    simp [hc]

theorem mem_path_iff {c : Char} (hc : c ≠ '/') : c ∈ path ↔ ∃ part ∈ splitSlash path, c ∈ part := by
  rw [← mem_intercalate_slash hc, intercalate_splitSlash]

theorem first_checks (hslash : path.head? ≠ some '/') :
    (path.head? = some '\\' ↔ ∃ n, (splitSlash path).head? = some n ∧ n.head? = some '\\') ∧
      (hasDriveLetter path = true ↔ ∃ n, (splitSlash path).head? = some n ∧
        hasDriveLetter n = true) := by
  obtain ⟨first, rest, tail, hsplit, rfl, ht⟩ := path_eq_first path
  rw [hsplit]
  rcases first with _ | ⟨c, _ | ⟨d, first⟩⟩
  · rcases ht with rfl | ⟨tail, rfl⟩
    · simp
    · exact absurd rfl hslash
  · rcases ht with rfl | ⟨tail, rfl⟩
    · simp
    · simp [hasDriveLetter]
  · by_cases hd : d = ':'
    · subst hd
      simp [hasDriveLetter]
    · simp [hasDriveLetter, hd]

theorem accepted_eq : accepted path = true ↔ '\x00' ∉ path ∧ path.head? ≠ some '/' ∧
    path.head? ≠ some '\\' ∧ hasDriveLetter path = false ∧ ['.', '.'] ∉ splitSlash path := by
  unfold accepted validateRelativePath
  split_ifs with hnul hr hdrive hdots
  · simp [Except.toBool, hnul]
  · simp only [Except.toBool, Bool.false_eq_true, false_iff]
    rintro ⟨-, hs, hb, -⟩
    exact hr.elim hs hb
  · simp [Except.toBool, hdrive]
  · simp [Except.toBool, hdots]
  · simp only [not_or] at hr
    simpa [Except.toBool] using ⟨hnul, hr.1, hr.2, by simpa using hdrive, hdots⟩

theorem accepted_iff :
    accepted path = true ↔ path.head? ≠ some '/' ∧ Acceptable (splitSlash path) := by
  rw [accepted_eq, mem_path_iff (by decide)]
  constructor
  · rintro ⟨hnul, hs, hback, hdrive, hdots⟩
    refine ⟨hs, fun n hn hmem => hnul ⟨n, hn, hmem⟩, hdots, fun n hn => ⟨fun hb => ?_, ?_⟩⟩
    · exact hback ((first_checks hs).1.mpr ⟨n, hn, hb⟩)
    · rw [Bool.eq_false_iff]
      intro hd
      rw [(first_checks hs).2.mpr ⟨n, hn, hd⟩] at hdrive
      cases hdrive
  · rintro ⟨hs, hnul, hdots, hf⟩
    refine ⟨fun ⟨n, hn, hmem⟩ => hnul n hn hmem, hs, fun hb => ?_, ?_, hdots⟩
    · obtain ⟨n, hn, hb⟩ := (first_checks hs).1.mp hb
      exact (hf n hn).1 hb
    · rw [Bool.eq_false_iff]
      intro hd
      obtain ⟨n, hn, hd⟩ := (first_checks hs).2.mp hd
      rw [(hf n hn).2] at hd
      cases hd

theorem accepted_join (h : Proper parts) (hn : '/' ∉ name) (hparts : Acceptable (parts ++ [name])) :
    accepted (join (pathOf parts) name) = true := by
  have hsplit := h.splitSlash_join hn
  refine accepted_iff.mpr ⟨fun hslash => ?_, hsplit ▸ hparts⟩
  cases parts with
  | nil =>
    exact hn (mem_of_head? hslash)
  | cons first rest =>
    obtain ⟨first', rest', tail, hsplit', hpath, -⟩ :=
      path_eq_first (join (pathOf (first :: rest)) name)
    obtain ⟨rfl, -⟩ := cons.inj (hsplit.symm.trans hsplit')
    cases first with
    | nil => exact h.head rfl
    | cons c first =>
      rw [hpath] at hslash
      cases hslash
      exact h.slashFree _ mem_cons_self mem_cons_self

theorem proper_of_accepted {init : List Path} {last : Path} (h : accepted path = true)
    (hs : splitSlash path = init ++ [last]) : Proper init where
  slashFree n hn := slash_notMem_splitSlash path n (hs ▸ mem_append_left _ hn)
  head := by
    cases init with
    | nil => simp
    | cons first rest =>
      intro hf
      have hf : first = [] := by simpa using hf
      subst hf
      obtain ⟨first, rest', tail, hs', hp, ht⟩ := path_eq_first path
      rw [hs] at hs'
      obtain ⟨rfl, hr⟩ := cons.inj hs'
      rcases ht with rfl | ⟨tail, rfl⟩
      · subst hp
        have hone : splitSlash [] = [[]] := rfl
        simp [hone] at hs
      · exact (accepted_iff.mp h).1 (by rw [hp]; rfl)

theorem pathOf_splitSlash (h : accepted path = true) : pathOf (splitSlash path) = path := by
  obtain ⟨init, last, hs⟩ := (eq_nil_or_concat' _).resolve_left (splitSlash_ne_nil path)
  have hi : Proper init := proper_of_accepted h hs
  have hl : '/' ∉ last := slash_notMem_splitSlash path last (by simp [hs])
  refine splitSlash_injective ?_
  rw [hs, pathOf_append_singleton, hi.splitSlash_join hl]

end AeroFtp.Sync
