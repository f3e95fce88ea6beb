/-
Which targets a crypt overlay encrypts.

A caller's target is written somehow and resolves to somewhere: a server drops the empty
segments and the dots.  The overlay goes by the writing.  It trims the slashes at the ends
and asks whether what is left continues the text of the anchor, so its verdict is about the
segments as they are spelled, and it is right about a target where spelling and resolving
make no difference to it.  A target such as `/./vault/x` is written outside and resolves
inside, and is passed through in the clear.
-/
import AeroFtp.CryptOverlay.Paths
import AeroFtp.Proofs.RcloneCrypt.Names
import AeroFtp.Proofs.Sync.Paths

namespace AeroFtp.CryptOverlay

open Sync RcloneCrypt List CryptOverlayProvider Texts

variable {parts : List Path} {target : Path}
variable {part : Path} {comps : List Path}

/-! ### Splitting and joining -/

theorem splitSlash_append_slash (front back : Path) :
    splitSlash (front ++ '/' :: back) = splitSlash front ++ splitSlash back :=
  splitOnP_append_cons front back (by simp)

theorem splitSlash_joinSlash (hne : parts ≠ []) (h : ∀ part ∈ parts, '/' ∉ part) :
    splitSlash (joinSlash parts) = parts :=
  splitOn_intercalate '/' h hne

variable (path : Path)

theorem joinSlash_splitSlash : joinSlash (splitSlash path) = path :=
  intercalate_splitSlash path

@[simp] theorem joinSlash_singleton (part : Path) : joinSlash [part] = part := by
  simp [joinSlash]

theorem joinSlash_cons (h : parts ≠ []) :
    joinSlash (part :: parts) = part ++ '/' :: joinSlash parts := by
  rw [joinSlash, intercalate_cons_of_ne_nil h, append_assoc]
  rfl

theorem joinSlash_append {front back : List Path} (hf : front ≠ []) (hb : back ≠ []) :
    joinSlash (front ++ back) = joinSlash front ++ '/' :: joinSlash back := by
  induction front with
  | nil => exact absurd rfl hf
  | cons part front ih =>
    by_cases hnil : front = []
    · subst hnil
      rw [singleton_append, joinSlash_cons hb, joinSlash_singleton]
    · rw [cons_append, joinSlash_cons (by simp [hnil]), ih hnil, joinSlash_cons hnil,
        append_assoc, cons_append]

theorem flatMap_slash (h : parts ≠ []) : parts.flatMap ('/' :: ·) = '/' :: joinSlash parts := by
  induction parts with
  | nil => exact absurd rfl h
  | cons part parts ih =>
    by_cases hnil : parts = []
    · subst hnil
      simp
    · rw [flatMap_cons, ih hnil, joinSlash_cons hnil, cons_append]

/-! ### What a path resolves to -/

/-- A part that names something. -/
def Named (part : Path) : Prop := part ≠ [] ∧ part ≠ ['.'] ∧ '/' ∉ part

theorem components_eq_self (h : ∀ part ∈ parts, Named part) :
    (parts.filter fun c => c ≠ [] && c ≠ ['.']) = parts := by
  rw [filter_eq_self]
  intro part hp
  simp [(h part hp).1, (h part hp).2.1]

theorem components_append_slash (front back : Path) :
    components (front ++ '/' :: back) = components front ++ components back := by
  rw [components, splitSlash_append_slash, filter_append, components, components]

@[simp] theorem components_nil : components [] = [] := by decide

theorem components_slash : components ('/' :: path) = components path :=
  components_append_slash [] path

theorem components_trimStartSlash : components (trimStartSlash path) = components path := by
  induction path with
  | nil => rfl
  | cons c path ih =>
    by_cases hc : c = '/'
    · subst hc
      rw [components_slash, ← ih]
      simp [trimStartSlash]
    · simp [trimStartSlash, hc]

theorem components_trimEndSlash : components (trimEndSlash path) = components path := by
  induction path using reverseRecOn with
  | nil => rfl
  | append_singleton path c ih =>
    by_cases hc : c = '/'
    · subst hc
      rw [components_append_slash, ← ih]
      simp [trimEndSlash]
    · simp [trimEndSlash, hc]

/-- The segments of a target as it is written, but for the slashes at its ends. -/
def spelled (target : Path) : List Path := splitSlash (trimStartSlash (trimEndSlash target))

theorem components_eq_spelled (target : Path) :
    components target = (spelled target).filter fun c => c ≠ [] && c ≠ ['.'] := by
  rw [← components_trimEndSlash, ← components_trimStartSlash]
  rfl

theorem spelled_ne_nil (target : Path) : spelled target ≠ [] := splitSlash_ne_nil _

theorem normAbs_eq (target : Path) : normAbs target = '/' :: joinSlash (spelled target) := by
  rw [spelled, joinSlash_splitSlash, normAbs]
  by_cases hnil : trimEndSlash target = []
  · rw [hnil]
    rfl
  · rw [if_neg hnil]

theorem components_normAbs (target : Path) : components (normAbs target) = components target := by
  rw [normAbs_eq, components_slash, components_eq_spelled target, components, spelled,
    joinSlash_splitSlash]

/-! ### The anchor -/

/-- The scope of an overlay is made of these segments. -/
structure Anchored (scope : Path) (segs : List Path) : Prop where
  named : ∀ seg ∈ segs, Named seg
  scope_eq : scope = if segs = [] then [] else '/' :: joinSlash segs

variable {segs : List Path}

theorem pushAnchor_named (h : ∀ seg ∈ segs, Named seg) (hp : '/' ∉ part) :
    ∀ seg ∈ pushAnchor segs part, Named seg := by
  intro seg hseg
  unfold pushAnchor at hseg
  by_cases hskip : part = [] ∨ part = ['.']
  · rw [if_pos hskip] at hseg
    exact h seg hseg
  · rw [if_neg hskip] at hseg
    rw [not_or] at hskip
    by_cases hup : part = ['.', '.']
    · rw [if_pos hup] at hseg
      exact h seg (mem_of_mem_dropLast hseg)
    · rw [if_neg hup] at hseg
      rcases mem_append.mp hseg with hseg | hseg
      · exact h seg hseg
      · rw [mem_singleton.mp hseg]
        exact ⟨hskip.1, hskip.2, hp⟩

theorem foldl_pushAnchor_named (parts : List Path) : ∀ segs : List Path, (∀ seg ∈ segs, Named seg) →
    (∀ part ∈ parts, '/' ∉ part) → ∀ seg ∈ parts.foldl pushAnchor segs, Named seg := by
  induction parts with
  | nil => intro segs h _; exact h
  | cons part parts ih =>
    intro segs h hparts
    exact ih _ (pushAnchor_named h (hparts part (by simp))) fun p hp => hparts p (by simp [hp])

theorem normAnchor_anchored (scope : Path) : ∃ segs, Anchored (normAnchor scope) segs := by
  by_cases hr : scope = [] ∨ scope = ['/']
  · refine ⟨[], by simp, ?_⟩
    rw [normAnchor, if_pos hr, if_pos rfl]
  · refine ⟨(splitSlash scope).foldl pushAnchor [], ?_, ?_⟩
    · exact foldl_pushAnchor_named _ [] (by simp) (slash_notMem_splitSlash scope)
    · rw [normAnchor, if_neg hr]

variable {scope : Path}

theorem Anchored.components_eq (h : Anchored scope segs) : components scope = segs := by
  rw [h.scope_eq]
  by_cases hnil : segs = []
  · rw [if_pos hnil, hnil, components_nil]
  · rw [if_neg hnil, components_slash, components,
      splitSlash_joinSlash hnil fun seg hseg => (h.named seg hseg).2.2, components_eq_self h.named]

theorem Anchored.scope_eq_nil (h : Anchored scope segs) : scope = [] ↔ segs = [] := by
  rw [h.scope_eq]
  by_cases hnil : segs = []
  · simp
  · simp

/-- Strictly below an anchor: its segments and more. -/
def Below (anchor parts : List Path) : Prop := anchor <+: parts ∧ anchor ≠ parts

instance (anchor parts : List Path) : Decidable (Below anchor parts) :=
  inferInstanceAs (Decidable (_ ∧ _))

theorem below_iff {anchor : List Path} :
    Below anchor parts ↔ ∃ rest, rest ≠ [] ∧ parts = anchor ++ rest := by
  constructor
  · intro ⟨⟨rest, hr⟩, hne⟩
    refine ⟨rest, ?_, hr.symm⟩
    intro hnil
    rw [hnil, append_nil] at hr
    exact hne hr
  · intro ⟨rest, hne, heq⟩
    refine ⟨⟨rest, heq.symm⟩, ?_⟩
    intro hs
    rw [← hs] at heq
    exact hne (append_right_eq_self.mp heq.symm)

theorem below_nil_spelled (target : Path) : Below [] (spelled target) :=
  ⟨ List.nil_prefix, (spelled_ne_nil target).symm⟩

section Spelling

variable {scope : Path} {segs : List Path} (h : Anchored scope segs) (hne : segs ≠ [])
include h hne

theorem Anchored.normAbs_eq_scope (target : Path) :
    normAbs target = scope ↔ spelled target = segs := by
  rw [normAbs_eq, h.scope_eq, if_neg hne]
  constructor
  · intro heq
    have hj := (cons.inj heq).2
    rw [spelled, joinSlash_splitSlash] at hj
    rw [spelled, hj, splitSlash_joinSlash hne fun seg hseg => (h.named seg hseg).2.2]
  · intro heq
    rw [heq]

variable {rest : List Path}

theorem Anchored.normAbs_of_below (hr : rest ≠ [])
    (heq : spelled target = segs ++ rest) : normAbs target = scope ++ '/' :: joinSlash rest := by
  rw [normAbs_eq, heq, h.scope_eq, if_neg hne, joinSlash_append hne hr]
  rfl

theorem Anchored.spelled_of_normAbs {below : Path} (heq : normAbs target = scope ++ '/' :: below) :
    spelled target = segs ++ splitSlash below := by
  rw [normAbs_eq, h.scope_eq, if_neg hne, cons_append] at heq
  have hj := (cons.inj heq).2
  rw [spelled, joinSlash_splitSlash] at hj
  rw [spelled, hj, splitSlash_append_slash, splitSlash_joinSlash hne fun seg hseg =>
    (h.named seg hseg).2.2]

/-- The text of the anchor and a slash are continued exactly by the targets spelled below it. -/
theorem Anchored.isPrefixOf_normAbs (target : Path) :
    (scope ++ ['/']).isPrefixOf (normAbs target) = true ↔ Below segs (spelled target) := by
  rw [List.isPrefixOf_iff_prefix, below_iff]
  constructor
  · intro ⟨below, hb⟩
    rw [append_assoc] at hb
    exact ⟨splitSlash below, splitSlash_ne_nil _, h.spelled_of_normAbs hne hb.symm⟩
  · intro ⟨rest, hr, heq⟩
    refine ⟨joinSlash rest, ?_⟩
    rw [h.normAbs_of_below hne hr heq, append_assoc, singleton_append]

theorem Anchored.stripFront_normAbs (hr : rest ≠ []) (heq : spelled target = segs ++ rest) :
    stripFront (normAbs target) (scope ++ ['/']) = some (joinSlash rest) := by
  rw [stripFront, h.normAbs_of_below hne hr heq]
  simp

end Spelling

/-! ### The verdict and the mapping -/

variable {prims : Primitives} {keys : OverlayKeys} {isDirLeaf : Bool}

theorem targetIsEncrypted_iff (provider : CryptOverlayProvider)
    (h : Anchored provider.scope segs) (habs : target.head? = some '/') :
    provider.targetIsEncrypted target = true ↔ Below segs (spelled target) := by
  unfold targetIsEncrypted
  rw [if_neg (by simp [habs])]
  by_cases hnil : segs = []
  · rw [if_pos (h.scope_eq_nil.mpr hnil), hnil]
    exact iff_of_true rfl (below_nil_spelled target)
  · rw [if_neg (fun hs => hnil (h.scope_eq_nil.mp hs))]
    by_cases hr : normAbs target = provider.scope
    · simp only [hr]
      have hself := (h.normAbs_eq_scope hnil target).mp hr
      exact iff_of_false (by simp) fun hb => hb.2 hself.symm
    · simp only [hr]
      exact h.isPrefixOf_normAbs hnil target

theorem encodeRelPath_ok {rel w : Path} (h : encodeRelPath prims keys rel isDirLeaf = .ok w) :
    ∃ parts, encodeComponents prims keys isDirLeaf (components rel) = .ok parts ∧
      w = if rel.head? = some '/' then '/' :: joinSlash parts else joinSlash parts := by
  unfold encodeRelPath at h
  by_cases hbad : (components rel).any badComponent = true
  · rw [if_pos hbad] at h
    cases h
  · rw [if_neg hbad] at h
    cases hp : encodeComponents prims keys isDirLeaf (components rel) with
    | error e =>
      rw [hp] at h
      cases h
    | ok parts =>
      rw [hp] at h
      exact ⟨parts, rfl, (Except.ok.inj h).symm⟩

variable {kind : AccessKind}

/-- What is accepted: everything where the anchor is the root, else what continues the anchor and
what passes through. -/
theorem encodePlainTarget_cases {scope mapped : Path} (h : Anchored scope segs)
    (habs : target.head? = some '/')
    (hok : encodePlainTarget prims keys scope target isDirLeaf kind = .ok mapped) :
    (segs = [] ∧ encodeRelPath prims keys target isDirLeaf = .ok mapped) ∨
    (segs ≠ [] ∧ ¬ Below segs (spelled target) ∧ mapped = normAbs target) ∨
    (segs ≠ [] ∧ ∃ rest enc, rest ≠ [] ∧ spelled target = segs ++ rest ∧
      encodeRelPath prims keys (joinSlash rest) isDirLeaf = .ok enc ∧
        mapped = scope ++ '/' :: enc) := by
  unfold encodePlainTarget at hok
  by_cases hbad : (splitSlash target).any badComponent = true
  · rw [if_pos hbad] at hok
    cases hok
  rw [if_neg hbad] at hok
  simp only [habs] at hok
  by_cases hnil : segs = []
  · rw [if_pos (h.scope_eq_nil.mpr hnil)] at hok
    exact .inl ⟨hnil, hok⟩
  rw [if_neg (fun hs => hnil (h.scope_eq_nil.mp hs))] at hok
  refine .inr ?_
  by_cases hroot : normAbs target = scope
  · rw [if_pos hroot] at hok
    have hself := (h.normAbs_eq_scope hnil target).mp hroot
    exact .inl ⟨hnil, fun hbelow => hbelow.2 hself.symm, (Except.ok.inj hok).symm.trans hroot.symm⟩
  rw [if_neg hroot] at hok
  by_cases hbelow : Below segs (spelled target)
  · obtain ⟨rest, hrest, heq⟩ := below_iff.mp hbelow
    simp only [h.stripFront_normAbs hnil hrest heq] at hok
    cases henc : encodeRelPath prims keys (joinSlash rest) isDirLeaf with
    | error e =>
      rw [henc] at hok
      cases hok
    | ok enc =>
      rw [henc] at hok
      exact .inr ⟨hnil, rest, enc, hrest, heq, henc, (Except.ok.inj hok).symm⟩
  · have hstrip : stripFront (normAbs target) (scope ++ ['/']) = none :=
      if_neg fun hf => hbelow ((h.isPrefixOf_normAbs hnil target).mp hf)
    simp only [hstrip, ite_self] at hok
    exact .inl ⟨hnil, hbelow, (Except.ok.inj hok).symm⟩

theorem encodeComponents_cons {c : Path}
    (h : encodeComponents prims keys isDirLeaf (c :: comps) = .ok parts) :
    ∃ part rest, parts = part :: rest ∧
      keys.encodeName prims c (if comps.isEmpty then isDirLeaf else true) = .ok part ∧
      encodeComponents prims keys isDirLeaf comps = .ok rest := by
  rw [encodeComponents] at h
  cases hp : keys.encodeName prims c (if comps.isEmpty then isDirLeaf else true) with
  | error e =>
    rw [hp] at h
    cases h
  | ok part =>
    rw [hp] at h
    cases hr : encodeComponents prims keys isDirLeaf comps with
    | error e =>
      rw [hr] at h
      cases h
    | ok rest =>
      rw [hr] at h
      cases h
      exact ⟨part, rest, rfl, rfl, rfl⟩

theorem length_encodeComponents (h : encodeComponents prims keys isDirLeaf comps = .ok parts) :
    parts.length = comps.length := by
  induction comps generalizing parts with
  | nil =>
    cases h
    rfl
  | cons c comps ih =>
    obtain ⟨part, rest, rfl, _, hr⟩ := encodeComponents_cons h
    rw [length_cons, length_cons, ih hr]

theorem encodeComponents_ne_nil (hne : comps ≠ [])
    (h : encodeComponents prims keys isDirLeaf comps = .ok parts) : parts ≠ [] := by
  intro hnil
  have hlen := length_encodeComponents h
  rw [hnil] at hlen
  exact hne (length_eq_zero_iff.mp hlen.symm)

theorem head?_joinSlash (hs : '/' ∉ part) (hne : part = [] → parts ≠ []) :
    (joinSlash (part :: parts)).head? = some '/' ↔ part = [] := by
  cases part with
  | nil =>
    rw [joinSlash_cons (hne rfl)]
    simp
  | cons c part =>
    have hc : c ≠ '/' := fun hc => hs (by simp [hc])
    have hh : (joinSlash ((c :: part) :: parts)).head? = some c := by
      by_cases hnil : parts = []
      · subst hnil
        simp
      · rw [joinSlash_cons hnil]
        rfl
    rw [hh]
    simp [hc]

theorem mem_spelled (h : part ∈ spelled target) : '/' ∉ part :=
  slash_notMem_splitSlash _ part h

/-- Where a target is spelled below the anchor it resolves to the anchor and what the rest
resolves to. -/
theorem Anchored.components_of_below {segs rest : List Path} (h : Anchored scope segs)
    (hr : rest ≠ []) (heq : spelled target = segs ++ rest) :
    components target = segs ++ components (joinSlash rest) := by
  have hs : ∀ part ∈ rest, '/' ∉ part := fun part hp => mem_spelled (heq ▸ mem_append_right segs hp)
  rw [components_eq_spelled, heq, filter_append, components_eq_self h.named, components,
    splitSlash_joinSlash hr hs]

theorem components_of_spelled_nil (h : (spelled target)[0]? = some []) :
    components target = [] := by
  have hp : trimStartSlash (trimEndSlash target) = [] := by
    obtain ⟨first, rest, tail, hs, hp, ht⟩ := path_eq_first (trimStartSlash (trimEndSlash target))
    rw [spelled, hs] at h
    have hf : first = [] := by simpa using h
    rw [hf, nil_append] at hp
    rcases ht with ht | ⟨tail', ht⟩
    · rw [hp, ht]
    · -- a trimmed text does not start with a slash
      have hh : (trimStartSlash (trimEndSlash target)).head? = some '/' := by rw [hp, ht]; rfl
      have hnot := head?_dropWhile_not (· == '/') (trimEndSlash target)
      rw [trimStartSlash] at hh
      rw [hh] at hnot
      simp at hnot
  rw [components_eq_spelled, spelled, hp]
  decide

/-! ### The two sides of the anchor -/

/-- What is resolved below the anchor is mapped to the anchor and the encoded components, and
counts as encrypted; what is not is mapped to itself and does not. -/
def KeptApart (prims : Primitives) (provider : CryptOverlayProvider) (target : Path)
    (isDirLeaf : Bool) (mapped : Path) : Prop :=
  (Below (components provider.scope) (components target) →
    (∃ parts, encodeComponents prims provider.keys isDirLeaf
        ((components target).drop (components provider.scope).length) = .ok parts ∧
      mapped = provider.scope ++ parts.flatMap ('/' :: ·)) ∧
    provider.targetIsEncrypted target = true) ∧
  (¬ Below (components provider.scope) (components target) →
    components mapped = components target ∧ provider.targetIsEncrypted target = false)

/-- The target is below the anchor as it is written just where it is as it resolves, and if it is
below, no empty segment follows the anchor. -/
def SpelledTrue (anchor : List Path) (target : Path) : Prop :=
  (Below anchor (components target) ↔ Below anchor (spelled target)) ∧
  (Below anchor (components target) → (spelled target)[anchor.length]? ≠ some [])

/-- Below an anchor that is not the root, the mapped path is the anchor and the encoded components
unless an empty segment follows the anchor. -/
theorem mapped_rest_iff {scope enc : Path} {rest : List Path} (hc : comps ≠ [])
    (hs : '/' ∉ part) (hrel : components (joinSlash (part :: rest)) = comps)
    (henc : encodeRelPath prims keys (joinSlash (part :: rest)) isDirLeaf = .ok enc) :
    (∃ parts, encodeComponents prims keys isDirLeaf comps = .ok parts ∧
      scope ++ '/' :: enc = scope ++ parts.flatMap ('/' :: ·)) ↔ part ≠ [] := by
  obtain ⟨parts, hp, hw⟩ := encodeRelPath_ok henc
  rw [hrel] at hp
  have hf := flatMap_slash (encodeComponents_ne_nil hc hp)
  have hm : part = [] → rest ≠ [] := by
    rintro rfl rfl
    exact hc (hrel ▸ by decide)
  by_cases hempty : part = []
  · rw [if_pos ((head?_joinSlash hs hm).mpr hempty)] at hw
    refine iff_of_false ?_ (not_not_intro hempty)
    intro ⟨parts', hp', heq⟩
    rw [hp] at hp'
    cases hp'
    rw [hf, hw] at heq
    simpa using congrArg length (append_cancel_left heq)
  · rw [if_neg (fun hh => hempty ((head?_joinSlash hs hm).mp hh))] at hw
    refine iff_of_true ⟨parts, hp, ?_⟩ hempty
    rw [hf, hw]

/-- Below the anchor, by spelling and resolving: the mapped path is the anchor and the encoded
components unless an empty segment stands between. -/
theorem mapped_below_iff {scope mapped : Path} (h : Anchored scope segs)
    (habs : target.head? = some '/')
    (hok : encodePlainTarget prims keys scope target isDirLeaf kind = .ok mapped)
    (hspelled : Below segs (spelled target)) (hb : Below segs (components target)) :
    (∃ parts, encodeComponents prims keys isDirLeaf ((components target).drop segs.length)
      = .ok parts ∧
      mapped = scope ++ parts.flatMap ('/' :: ·)) ↔ (spelled target)[segs.length]? ≠ some [] := by
  obtain ⟨comps, hc, ht⟩ := below_iff.mp hb
  have hd : (components target).drop segs.length = comps := by rw [ht, drop_left]
  rw [hd]
  rcases encodePlainTarget_cases h habs hok with ⟨hnil, henc⟩ | ⟨_, hout, _⟩ |
    ⟨hne, rest, enc, hrest, heq, henc, hmap⟩
  · -- the whole remote: the target is mapped as it is, from the root on
    subst hnil
    rw [nil_append] at ht
    obtain ⟨parts, hp, hw⟩ := encodeRelPath_ok henc
    rw [if_pos habs] at hw
    rw [ht] at hp
    refine iff_of_true ⟨parts, hp, ?_⟩ ?_
    · rw [flatMap_slash (encodeComponents_ne_nil hc hp), hw, h.scope_eq_nil.mpr rfl, nil_append]
    · intro hempty
      exact hc (ht ▸ components_of_spelled_nil hempty)
  · exact absurd hspelled hout
  · have hrel : components (joinSlash rest) = comps := by
      have hsum := h.components_of_below hrest heq
      rw [ht] at hsum
      exact (append_cancel_left hsum).symm
    obtain ⟨part, more, rfl⟩ := exists_cons_of_ne_nil hrest
    have hslash : '/' ∉ part := mem_spelled (heq ▸ mem_append_right segs (by simp))
    have hnext : (spelled target)[segs.length]? = some part := by rw [heq]; simp
    rw [hnext, hmap, mapped_rest_iff hc hslash hrel henc]
    simp

/-- **An overlay keeps a target on its side of the anchor exactly if the target is spelled where it
resolves to.** -/
theorem keptApart_iff (prims : Primitives) (keys : OverlayKeys) (scope target mapped : Path)
    (isDirLeaf : Bool) (kind : AccessKind) (habs : target.head? = some '/')
    (hok : encodePlainTarget prims keys (CryptOverlayProvider.new keys scope).scope target isDirLeaf
      kind = .ok mapped) :
    KeptApart prims (CryptOverlayProvider.new keys scope) target isDirLeaf mapped
      ↔ SpelledTrue (components (normAnchor scope)) target := by
  obtain ⟨segs, h⟩ := normAnchor_anchored scope
  have hverdict := targetIsEncrypted_iff (.new keys scope) h habs
  have hscope : components (new keys scope).scope = segs := h.components_eq
  rw [KeptApart, SpelledTrue, hscope, h.components_eq]
  by_cases hspelled : Below segs (spelled target)
  · have henc := hverdict.mpr hspelled
    by_cases hbelow : Below segs (components target)
    · have hmapped := mapped_below_iff h habs hok hspelled hbelow
      simp only [hspelled, hbelow, henc, and_true, not_true_eq_false, true_implies,
        false_implies, true_and]
      exact hmapped
    · simp [hspelled, hbelow, henc]
  · have hclear : (new keys scope).targetIsEncrypted target = false := by
      rw [← Bool.not_eq_true, hverdict]
      exact hspelled
    -- the anchor is not the root, and the target is passed through
    have hmap : mapped = normAbs target := by
      rcases encodePlainTarget_cases h habs hok with ⟨hnil, _⟩ | ⟨_, _, hmap⟩ |
        ⟨_, rest, _, hrest, heq, _, _⟩
      · exact absurd (hnil ▸ below_nil_spelled target) hspelled
      · exact hmap
      · exact absurd (below_iff.mpr ⟨rest, hrest, heq⟩) hspelled
    by_cases hbelow : Below segs (components target)
    · simp [hspelled, hbelow, hclear]
    · simp [hspelled, hbelow, hclear, hmap, components_normAbs]

/-! ### An overlay on a directory -/

/-- Parameters under which names can be computed. -/
def overlayPrims : Primitives where
  rclone := maskPrims
  aerocrypt :=
    { expand := fun key => some key.toList
      sivEncrypt := fun _ data => some data
      sivDecrypt := fun _ data => some data
      base64Encode := wideCodec.encode
      base64Decode := fun s => (wideCodec.decode s).toOption }

/-- The keys of a remote with `filename_encryption = off` and the suffix it comes with. -/
def offKeys : RcloneCryptKeys where
  nameKey := Vector.replicate 32 7
  nameTweak := Vector.replicate aesBlock 0
  filenameEncryption := .off
  offSuffix := ['.', 'b', 'i', 'n']
  directoryNameEncryption := true

theorem keptApart_vaultFile :
    encodePlainTarget overlayPrims (.rclone offKeys) "/vault".toList "/vault/x".toList false .write
      = .ok "/vault/x.bin".toList ∧
    KeptApart overlayPrims (CryptOverlayProvider.new (.rclone offKeys) "/vault".toList)
      "/vault/x".toList false "/vault/x.bin".toList :=
  ⟨rfl, (keptApart_iff overlayPrims (.rclone offKeys) "/vault".toList "/vault/x".toList
    "/vault/x.bin".toList false .write rfl rfl).mpr (by unfold SpelledTrue; decide)⟩

/-- A write to `/./vault/x` is passed through in the clear, though it lands below the anchor. -/
theorem dottedTarget_inTheClear :
    encodePlainTarget overlayPrims (.rclone offKeys)
      (CryptOverlayProvider.new (.rclone offKeys) "/vault".toList).scope
      "/./vault/x".toList false .write = .ok "/./vault/x".toList ∧
    (CryptOverlayProvider.new (.rclone offKeys) "/vault".toList).targetIsEncrypted
      "/./vault/x".toList = false ∧
    components "/./vault/x".toList = ["vault".toList, "x".toList] ∧
    ¬ KeptApart overlayPrims (CryptOverlayProvider.new (.rclone offKeys) "/vault".toList)
      "/./vault/x".toList false "/./vault/x".toList := by
  refine ⟨rfl, by decide, by decide, ?_⟩
  intro h
  have hencrypted := (h.1 (by decide)).2
  exact absurd hencrypted (by decide)

end AeroFtp.CryptOverlay
