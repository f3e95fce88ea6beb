/-
Encrypted paths read back.

A path is encoded component by component, so it reads back where each segment on the wire is
one hidden name and a decoder reads that name as what it is, a directory or a file.  The
decoder of the overlay knows which it is.  The decoder of a comparison does not: in `off`
mode, where a file carries a suffix and a directory none, it takes the suffix off both.

The names themselves never collide: where a decoder reads a path wrongly, the path on the wire
still is the plain one and the suffix.
-/
import AeroFtp.Proofs.CryptOverlay.Targets

namespace AeroFtp.CryptOverlay

open Sync RcloneCrypt List OverlayKeys Texts

variable {prims : Primitives} {keys : RcloneCryptKeys}
variable {rel : Path} {one : Bool → Path → Option Path}

/-! ### Plain paths -/

theorem splitSlash_of_notMem {path : Path} (h : '/' ∉ path) : splitSlash path = [path] := by
  rw [← joinSlash_singleton path, splitSlash_joinSlash (by simp) (by simpa using h),
    joinSlash_singleton]

/-- The relative path of a file: its components are names. -/
def RelFile (rel : Path) : Prop :=
  ∀ c ∈ splitSlash rel, c ≠ [] ∧ c ≠ ['.'] ∧ c ≠ ['.', '.'] ∧ '\x00' ∉ c

instance (rel : Path) : Decidable (RelFile rel) :=
  inferInstanceAs (Decidable (∀ c ∈ _, _))

theorem RelFile.components_eq (h : RelFile rel) : components rel = splitSlash rel :=
  components_eq_self fun c hc => ⟨(h c hc).1, (h c hc).2.1, slash_notMem_splitSlash rel c hc⟩

theorem RelFile.head?_ne (h : RelFile rel) : rel.head? ≠ some '/' := by
  obtain ⟨first, rest, tail, hsplit, hp, _⟩ := path_eq_first rel
  have hmem : first ∈ splitSlash rel := by simp [hsplit]
  obtain ⟨c, first, rfl⟩ := exists_cons_of_ne_nil (h first hmem).1
  have hslash := slash_notMem_splitSlash rel _ hmem
  rw [hp]
  intro hh
  exact hslash (by simp [Option.some.inj hh])

variable {w : Path}

theorem RelFile.encodeRelPath_ok {keys : OverlayKeys} (h : RelFile rel)
    (hok : encodeRelPath prims keys rel false = .ok w) :
    ∃ parts, encodeComponents prims keys false (splitSlash rel) = .ok parts ∧
      w = joinSlash parts := by
  obtain ⟨parts, hp, hw⟩ := CryptOverlay.encodeRelPath_ok hok
  rw [h.components_eq] at hp
  rw [if_neg h.head?_ne] at hw
  exact ⟨parts, hp, hw⟩

/-! ### Reading segments -/

theorem readSegments_cons_iff {segment : Path} {rest outs : List Path} :
    readSegments one (segment :: rest) = some outs ↔ ∃ x xs, outs = x :: xs ∧
      readSegment one rest.isEmpty segment = some x ∧ readSegments one rest = some xs := by
  rw [readSegments]
  cases hx : readSegment one rest.isEmpty segment with
  | none => simp
  | some x =>
    cases hxs : readSegments one rest with
    | none => simp
    | some xs => simp [eq_comm]

theorem readSegments_encodeComponents {keys : OverlayKeys} : ∀ {comps parts : List Path},
      (∀ last, ∀ c ∈ comps, ∀ part, keys.encodeName prims c (!last) = .ok part →
        part ≠ [] ∧ one last part = some c) →
      encodeComponents prims keys false comps = .ok parts →
        readSegments one parts = some comps := by
  intro comps
  induction comps with
  | nil =>
    intro parts _ h
    cases h
    rfl
  | cons c comps ih =>
    intro parts hone h
    obtain ⟨part, rest, rfl, hp, hrest⟩ := encodeComponents_cons h
    have hl : rest.isEmpty = comps.isEmpty := by
      rw [Bool.eq_iff_iff, isEmpty_iff_length_eq_zero, isEmpty_iff_length_eq_zero,
        length_encodeComponents hrest]
    have hdir : (if comps.isEmpty then false else true) = !comps.isEmpty := by
      cases comps.isEmpty with
      | false => rfl
      | true => rfl
    obtain ⟨hne, hread⟩ := hone comps.isEmpty c (by simp) part (hdir ▸ hp)
    refine readSegments_cons_iff.mpr
      ⟨c, comps, rfl, ?_, ih (fun last d hd => hone last d (by simp [hd])) hrest⟩
    rw [readSegment, if_neg hne, hl, hread]

theorem slash_notMem_encodeComponents {keys : OverlayKeys} : ∀ {comps parts : List Path},
      (∀ isDir, ∀ c ∈ comps, ∀ part, keys.encodeName prims c isDir = .ok part → '/' ∉ part) →
      encodeComponents prims keys false comps = .ok parts → ∀ part ∈ parts, '/' ∉ part := by
  intro comps
  induction comps with
  | nil =>
    intro parts _ h
    cases h
    simp
  | cons c comps ih =>
    intro parts hone h
    obtain ⟨part, rest, rfl, hpart, hr⟩ := encodeComponents_cons h
    intro p hp
    rcases mem_cons.mp hp with rfl | hp
    · exact hone _ c (by simp) _ hpart
    · exact ih (fun isDir d hd => hone isDir d (by simp [hd])) hr p hp

/-- **A path reads back through any decoder of its names.** -/
theorem readPath_encodeRelPath {keys : OverlayKeys} (h : RelFile rel)
    (hok : encodeRelPath prims keys rel false = .ok w)
    (hs : ∀ isDir, ∀ c ∈ splitSlash rel, ∀ part, keys.encodeName prims c isDir = .ok part →
      '/' ∉ part)
    (hone : ∀ last, ∀ c ∈ splitSlash rel, ∀ part, keys.encodeName prims c (!last) = .ok part →
      part ≠ [] ∧ one last part = some c) : readPath one w = some rel := by
  obtain ⟨parts, hp, rfl⟩ := h.encodeRelPath_ok hok
  have hne := encodeComponents_ne_nil (splitSlash_ne_nil rel) hp
  rw [readPath, splitSlash_joinSlash hne (slash_notMem_encodeComponents hs hp),
    readSegments_encodeComponents hone hp]
  exact congrArg some (joinSlash_splitSlash rel)

/-! ### Names of an rclone overlay -/

theorem encodeName_hidden (hm : keys.filenameEncryption ≠ .off) {c part : Path} {isDir : Bool}
    (hne : c ≠ []) (hs : '/' ∉ c) (h : (rclone keys).encodeName prims c isDir = .ok part) :
    part ≠ [] ∧ '/' ∉ part ∧ (rclone keys).decodeName prims part isDir = some c ∧
      (if keys.directoryNameEncryption || !isDir then decryptOneName prims.rclone keys part else
        some part) = some c := by
  have hcond : (!isDir || keys.directoryNameEncryption)
      = (keys.directoryNameEncryption || !isDir) := Bool.or_comm _ _
  simp only [encodeName, decodeName, rcloneNameIsEncrypted, hm, ne_eq, not_false_eq_true,
    true_and, decide_true, Bool.true_and, hcond] at h ⊢
  by_cases hclear : (keys.directoryNameEncryption || !isDir) = false
  · rw [if_pos hclear] at h ⊢
    cases h
    exact ⟨hne, hs, rfl, by simp [hclear]⟩
  · rw [if_neg hclear] at h ⊢
    rw [Bool.not_eq_false] at hclear
    rw [if_pos hclear, decryptOneName]
    cases hk : keys.filenameEncryption with
    | off => exact absurd hk hm
    | standard =>
      obtain ⟨hidden, henc, hh, hno, hdec⟩ :=
        decryptName_encryptName prims.rclone keys.nameKey keys.nameTweak c
      rw [hk] at h
      rw [show part = hidden from Except.ok.inj (h.symm.trans henc)]
      exact ⟨hh, hno, congrArg Except.toOption hdec, congrArg Except.toOption hdec⟩
    | obfuscate =>
      obtain ⟨hidden, henc, hh, hno, hdec⟩ :=
        deobfuscateName_obfuscateName prims.rclone keys.nameTweak hne hs
      rw [hk] at h
      rw [show part = hidden from Except.ok.inj (h.symm.trans henc)]
      exact ⟨hh, hno, congrArg Except.toOption hdec, congrArg Except.toOption hdec⟩

/-! ### The suffix of an `off` remote -/

theorem stripSuffix_nil (text : Path) : stripSuffix text [] = some text := by
  simpa using stripSuffix_append text []

section Off

variable (hoff : keys.filenameEncryption = .off)
include hoff

theorem encodeName_off (c : Path) (isDir : Bool) :
    (rclone keys).encodeName prims c isDir = .ok (c ++ if isDir then [] else keys.offSuffix) := by
  rw [encodeName, hoff]
  by_cases hc : isDir ∨ keys.offSuffix = []
  · rcases hc with hdir | hnil
    · simp [hdir]
    · simp [hnil]
  · rw [not_or] at hc
    simp [hc.1]

theorem decodeName_off (part : Path) (isDir : Bool) :
    (rclone keys).decodeName prims part isDir
      = if isDir then some part else stripSuffix part keys.offSuffix := by
  rw [decodeName, hoff]
  by_cases hc : isDir ∨ keys.offSuffix = []
  · rcases hc with hdir | hnil
    · simp [hdir]
    · simp [hnil, stripSuffix_nil]
  · rw [if_neg hc]
    rw [not_or] at hc
    simp [hc.1]

theorem decryptOneName_off (part : Path) :
    decryptOneName prims.rclone keys part = stripSuffix part keys.offSuffix := by
  rw [decryptOneName, hoff]
  by_cases hnil : keys.offSuffix = []
  · rw [if_pos hnil, hnil, stripSuffix_nil]
  · rw [if_neg hnil]

theorem encodeComponents_off : ∀ {comps parts : List Path}, comps ≠ [] →
    encodeComponents prims (.rclone keys) false comps = .ok parts →
    joinSlash parts = joinSlash comps ++ keys.offSuffix := by
  intro comps
  induction comps with
  | nil => intro parts hne _; exact absurd rfl hne
  | cons c comps ih =>
    intro parts _ h
    obtain ⟨part, rest, rfl, hp, hr⟩ := encodeComponents_cons h
    rw [encodeName_off hoff] at hp
    by_cases hnil : comps = []
    · subst hnil
      cases hr
      simp [← Except.ok.inj hp]
    · have hne := encodeComponents_ne_nil hnil hr
      have hdir : part = c := by simpa [hnil] using (Except.ok.inj hp).symm
      rw [joinSlash_cons hne, joinSlash_cons hnil, ih hnil hr, hdir, append_assoc, cons_append]

/-- **On the wire of an `off` remote a path is the plain one and the suffix.** -/
theorem encodeRelPath_off {w : Path} (h : RelFile rel)
    (hok : encodeRelPath prims (.rclone keys) rel false = .ok w) : w = rel ++ keys.offSuffix := by
  obtain ⟨parts, hp, rfl⟩ := h.encodeRelPath_ok hok
  rw [encodeComponents_off hoff (splitSlash_ne_nil rel) hp, joinSlash_splitSlash]

theorem encodeName_off_segment (hsuf : '/' ∉ keys.offSuffix) {c part : Path} {isDir : Bool}
    (hne : c ≠ []) (hslash : '/' ∉ c) (h : (rclone keys).encodeName prims c isDir = .ok part) :
    part ≠ [] ∧ '/' ∉ part ∧ (rclone keys).decodeName prims part isDir = some c := by
  rw [encodeName_off hoff] at h
  rw [← Except.ok.inj h, decodeName_off hoff]
  cases isDir with
  | true => simp [hne, hslash]
  | false => simp [hne, hslash, hsuf, stripSuffix_append]

theorem readSegments_off {leaf : Path} : ∀ {front outs : List Path},
    readSegments (fun last segment => (rclone keys).decodeName prims segment (!last || false))
      (front ++ [leaf]) = some outs →
    ∃ x, outs = front ++ [x] ∧ (leaf = [] ∧ x = [] ∨ stripSuffix leaf keys.offSuffix = some x) := by
  intro front
  induction front with
  | nil =>
    intro outs h
    obtain ⟨x, xs, rfl, hx, hxs⟩ := readSegments_cons_iff.mp h
    cases hxs
    refine ⟨x, rfl, ?_⟩
    by_cases hl : leaf = []
    · rw [readSegment, if_pos hl] at hx
      exact .inl ⟨hl, (Option.some.inj hx).symm⟩
    · rw [readSegment, if_neg hl, decodeName_off hoff] at hx
      exact .inr hx
  | cons segment front ih =>
    intro outs h
    obtain ⟨y, ys, rfl, hy, hys⟩ := readSegments_cons_iff.mp h
    obtain ⟨x, rfl, hl⟩ := ih hys
    refine ⟨x, ?_, hl⟩
    have hs : y = segment := by
      by_cases he : segment = []
      · rw [readSegment, if_pos he] at hy
        rw [he, Option.some.inj hy]
      · rw [readSegment, if_neg he, decodeName_off hoff] at hy
        simpa using hy.symm
    rw [hs, cons_append]

theorem decodeRelPath_off_slash (hslash : '/' ∈ keys.offSuffix) (rel : Path) :
    (rclone keys).decodeRelPath prims (rel ++ keys.offSuffix) false ≠ some rel := by
  intro h
  rw [decodeRelPath, readPath, Option.map_eq_some_iff] at h
  obtain ⟨outs, hr, hj⟩ := h
  obtain ⟨front, leaf, hsplit⟩ :=
    eq_nil_or_concat' (splitSlash (rel ++ keys.offSuffix)) |>.resolve_left (splitSlash_ne_nil _)
  rw [hsplit] at hr
  obtain ⟨x, houts, hl | hstrip⟩ := readSegments_off hoff hr
  · -- nothing was taken off
    rw [houts, hl.2, ← hl.1, ← hsplit, joinSlash_splitSlash, append_right_eq_self] at hj
    rw [hj] at hslash
    cases hslash
  · have hmem : '/' ∈ leaf := by
      rw [eq_append_of_stripSuffix hstrip]
      exact mem_append_right x hslash
    exact slash_notMem_splitSlash (rel ++ keys.offSuffix) leaf (by simp [hsplit]) hmem

/-- Where directory names count as encrypted a comparison takes the suffix off the first directory,
which never had it. -/
theorem decryptRelRclone_off_dir (hd : keys.directoryNameEncryption = true)
    (hsuf : keys.offSuffix ≠ []) (h : RelFile rel) (hslash : '/' ∈ rel) :
    decryptRelRclone prims keys (rel ++ keys.offSuffix) ≠ some rel := by
  obtain ⟨first, rest, tail, hsplit, hrel, ht⟩ := path_eq_first rel
  have hmem : first ∈ splitSlash rel := by simp [hsplit]
  have hno := slash_notMem_splitSlash rel first hmem
  obtain ⟨tail, rfl⟩ : ∃ tail', tail = '/' :: tail' := by
    rcases ht with rfl | ht
    · rw [hrel, append_nil] at hslash
      exact absurd hslash hno
    · exact ht
  have hw : splitSlash (rel ++ keys.offSuffix) = first :: splitSlash (tail ++ keys.offSuffix) := by
    rw [hrel, append_assoc, cons_append, splitSlash_append_slash, splitSlash_of_notMem hno]
    rfl
  have hf : first ≠ [] := (h first hmem).1
  intro hread
  rw [decryptRelRclone, readPath, hw, Option.map_eq_some_iff] at hread
  obtain ⟨outs, houts, hj⟩ := hread
  obtain ⟨x, xs, rfl, hx, hxs⟩ := readSegments_cons_iff.mp houts
  rw [readSegment, if_neg hf, hd, decryptOneName_off hoff] at hx
  have hxs_ne : xs ≠ [] := by
    rintro rfl
    obtain ⟨second, more, hmore⟩ :=
      exists_cons_of_ne_nil (splitSlash_ne_nil (tail ++ keys.offSuffix))
    rw [hmore] at hxs
    obtain ⟨_, _, hnil, _⟩ := readSegments_cons_iff.mp hxs
    cases hnil
  -- what is left of the first directory is followed by a slash, and by the suffix
  obtain ⟨c, suffix, hsuffix_eq⟩ := exists_cons_of_ne_nil hsuf
  have hstripped := eq_append_of_stripSuffix hx
  rw [joinSlash_cons hxs_ne, hrel, hstripped, append_assoc, hsuffix_eq] at hj
  have hslash_c : '/' = c := (cons.inj (append_cancel_left hj)).1
  rw [hstripped, hsuffix_eq, ← hslash_c] at hno
  exact hno (by simp)

end Off

/-! ### The round trip -/

/-- The names are hidden or plain, or the suffix has no slash and the file is at the top, unless
directory names are taken for plain. -/
def ReadsBack (keys : RcloneCryptKeys) (rel : Path) : Prop :=
  keys.filenameEncryption ≠ .off ∨ keys.offSuffix = [] ∨
    '/' ∉ keys.offSuffix ∧ (keys.directoryNameEncryption = false ∨ '/' ∉ rel)

theorem RelFile.named {c : Path} (h : RelFile rel) (hc : c ∈ splitSlash rel) : c ≠ [] ∧ '/' ∉ c :=
  ⟨(h c hc).1, slash_notMem_splitSlash rel c hc⟩

theorem decodeRelPath_encodeRelPath (h : RelFile rel)
    (hok : encodeRelPath prims (.rclone keys) rel false = .ok w)
    (hsuf : keys.filenameEncryption ≠ .off ∨ '/' ∉ keys.offSuffix) :
    (rclone keys).decodeRelPath prims w false = some rel := by
  have hname : ∀ isDir, ∀ c ∈ splitSlash rel, ∀ part,
      (rclone keys).encodeName prims c isDir = .ok part →
      part ≠ [] ∧ '/' ∉ part ∧ (rclone keys).decodeName prims part isDir = some c := by
    intro isDir c hc part hp
    by_cases hoff : keys.filenameEncryption = .off
    · exact encodeName_off_segment hoff (hsuf.resolve_left (not_not_intro hoff))
        (h.named hc).1 (h.named hc).2 hp
    · obtain ⟨hne, hslash, hd, _⟩ := encodeName_hidden hoff (h.named hc).1 (h.named hc).2 hp
      exact ⟨hne, hslash, hd⟩
  refine readPath_encodeRelPath h hok (fun isDir c hc part hp => (hname isDir c hc part hp).2.1) ?_
  intro last c hc part hp
  rw [Bool.or_false]
  exact ⟨(hname _ c hc part hp).1, (hname _ c hc part hp).2.2⟩

theorem decryptRelRclone_encodeRelPath (h : RelFile rel)
    (hok : encodeRelPath prims (.rclone keys) rel false = .ok w) (hb : ReadsBack keys rel) :
    decryptRelRclone prims keys w = some rel := by
  by_cases hoff : keys.filenameEncryption = .off
  · have hslash : '/' ∉ keys.offSuffix := by
      rcases hb.resolve_left (not_not_intro hoff) with hnil | hb
      · simp [hnil]
      · exact hb.1
    by_cases htop : '/' ∈ rel
    · -- directories are read as they are, or there is nothing to take off them
      have hdirs : keys.directoryNameEncryption = false ∨ keys.offSuffix = [] := by
        rcases hb.resolve_left (not_not_intro hoff) with hnil | hb
        · exact .inr hnil
        · exact .inl (hb.2.resolve_right (not_not_intro htop))
      refine readPath_encodeRelPath h hok (fun isDir c hc part hp =>
        (encodeName_off_segment hoff hslash (h.named hc).1 (h.named hc).2 hp).2.1) ?_
      intro last c hc part hp
      refine ⟨(encodeName_off_segment hoff hslash (h.named hc).1 (h.named hc).2 hp).1, ?_⟩
      rw [encodeName_off hoff] at hp
      rw [← Except.ok.inj hp, decryptOneName_off hoff]
      cases last with
      | true => simp [stripSuffix_append]
      | false =>
        rcases hdirs with hdirs | hnil
        · simp [hdirs]
        · simp [hnil, stripSuffix_nil]
    · rw [encodeRelPath_off hoff h hok]
      have hsingle : splitSlash (rel ++ keys.offSuffix) = [rel ++ keys.offSuffix] :=
        splitSlash_of_notMem (by simp [htop, hslash])
      have hne : rel ≠ [] := by
        rintro rfl
        exact (h [] (by decide)).1 rfl
      have hr : readSegment (fun last segment =>
          if keys.directoryNameEncryption || last then decryptOneName prims.rclone keys segment else
            some segment)
          true (rel ++ keys.offSuffix) = some rel := by
        rw [readSegment, if_neg (by simp [hne]), Bool.or_true, if_pos rfl, decryptOneName_off hoff,
          stripSuffix_append]
      rw [decryptRelRclone, readPath, hsingle, readSegments_cons_iff.mpr ⟨rel, [], rfl, hr, rfl⟩]
      simp
  · refine readPath_encodeRelPath h hok (fun isDir c hc part hp =>
      (encodeName_hidden hoff (h.named hc).1 (h.named hc).2 hp).2.1) ?_
    intro last c hc part hp
    obtain ⟨hne, _, _, hdecrypt⟩ := encodeName_hidden hoff (h.named hc).1 (h.named hc).2 hp
    rw [Bool.not_not] at hdecrypt
    exact ⟨hne, hdecrypt⟩

theorem encodeRelPath_injective {rel' w : Path} (h : RelFile rel) (h' : RelFile rel')
    (hok : encodeRelPath prims (.rclone keys) rel false = .ok w)
    (hok' : encodeRelPath prims (.rclone keys) rel' false = .ok w) : rel = rel' := by
  by_cases hoff : keys.filenameEncryption = .off
  · have heq := (encodeRelPath_off hoff h hok).symm.trans (encodeRelPath_off hoff h' hok')
    exact append_cancel_right heq
  · have hr := decodeRelPath_encodeRelPath h hok (.inl hoff)
    have hr' := decodeRelPath_encodeRelPath h' hok' (.inl hoff)
    exact Option.some.inj (hr.symm.trans hr')

/-- **Both decoders read a path back exactly where the suffix is on no directory and has no slash;
distinct paths are distinct on the wire.** -/
theorem rclonePaths_roundTrip (prims : Primitives) (keys : RcloneCryptKeys) :
    (∀ rel w, RelFile rel → encodeRelPath prims (.rclone keys) rel false = .ok w →
      ((OverlayKeys.rclone keys).decodeRelPath prims w false = some rel ∧
        (CryptCompareKeys.rclone keys).decryptRel prims w = some rel ↔ ReadsBack keys rel)) ∧
    (∀ rel rel' w, RelFile rel → RelFile rel' →
      encodeRelPath prims (.rclone keys) rel false = .ok w →
      encodeRelPath prims (.rclone keys) rel' false = .ok w → rel = rel') := by
  refine ⟨?_, fun rel rel' w h h' hok hok' => encodeRelPath_injective h h' hok hok'⟩
  intro rel w h hok
  constructor
  · intro ⟨hdecode, hdecrypt⟩
    by_cases hoff : keys.filenameEncryption = .off
    · by_cases hnil : keys.offSuffix = []
      · exact .inr (.inl hnil)
      · rw [encodeRelPath_off hoff h hok] at hdecode hdecrypt
        refine .inr (.inr ⟨fun hslash => decodeRelPath_off_slash hoff hslash rel hdecode, ?_⟩)
        by_cases hdirs : keys.directoryNameEncryption = false
        · exact .inl hdirs
        · rw [Bool.not_eq_false] at hdirs
          exact .inr fun htop => decryptRelRclone_off_dir hoff hdirs hnil h htop hdecrypt
    · exact .inl hoff
  · intro hback
    refine ⟨decodeRelPath_encodeRelPath h hok ?_, decryptRelRclone_encodeRelPath h hok hback⟩
    rcases hback with hmode | hnil | hslash
    · exact .inl hmode
    · exact .inr (by simp [hnil])
    · exact .inr hslash.1

/-- The keys of a remote with obfuscated names, rotated by three. -/
def obfuscateKeys : RcloneCryptKeys where
  nameKey := Vector.replicate 32 7
  nameTweak := Vector.ofFn fun i => if i.val = 0 then 3 else 0
  filenameEncryption := .obfuscate
  offSuffix := []
  directoryNameEncryption := true

theorem rclonePaths_roundTrip_obfuscated :
    encodeRelPath overlayPrims (.rclone obfuscateKeys) "docs/a".toList false
      = .ok "3.grfv/3.d".toList ∧
    (OverlayKeys.rclone obfuscateKeys).decodeRelPath overlayPrims "3.grfv/3.d".toList false
      = some "docs/a".toList ∧
    (CryptCompareKeys.rclone obfuscateKeys).decryptRel overlayPrims "3.grfv/3.d".toList
      = some "docs/a".toList :=
  ⟨rfl, ((rclonePaths_roundTrip overlayPrims obfuscateKeys).1 "docs/a".toList "3.grfv/3.d".toList
    (by decide) rfl).mpr (.inl (by decide))⟩

/-- A comparison finds no plain name for `docs/a.bin`. -/
theorem offDirectory_notCompared :
    RelFile "docs/a".toList ∧
    encodeRelPath overlayPrims (.rclone offKeys) "docs/a".toList false = .ok "docs/a.bin".toList ∧
    (OverlayKeys.rclone offKeys).decodeRelPath overlayPrims "docs/a.bin".toList false
      = some "docs/a".toList ∧
    (CryptCompareKeys.rclone offKeys).decryptRel overlayPrims "docs/a.bin".toList = none :=
  ⟨by decide, rfl, by decide, by decide⟩

end AeroFtp.CryptOverlay
