/-
Encoded names, there and back.

The decoder undoes the encoder on every name, and what the encoder writes a provider accepts.
The other way round the decoder is lenient: a quote rune before an ordinary character is dropped,
and a symbol for a space inside a name is taken as it is, so such names, which other clients may
write, are not spelled again as they were listed.
-/
import AeroFtp.RestrictedChars
import AeroFtp.Proofs.Sync.Paths

namespace AeroFtp.RestrictedChars

open Sync List

variable {provider : ProviderType} {spec : EncodeSpec}
variable {c r : Char} {leaf rest w a m b : Path}

-- decided along the list, never over all of `Char`
local instance (priority := 1100) (p : Char → Prop) [DecidablePred p] : Decidable (∀ c ∈ w, p c) :=
  decidableBAll p w

/-! ### Characters and their runes -/

/-- A character that is encoded anywhere in a name, and the rune that stands for it. -/
def Encodes (spec : EncodeSpec) (c r : Char) : Prop :=
  (encodeSource spec c = some r ∧ decodeTarget spec r = some c) ∧
    (c.toNat < 0x80 ∧ c ∉ [' ', '.', '/']) ∧ 0x2400 ≤ r.toNat ∧ r ∉ [symbolSpace, fullwidthDot]

instance : Decidable (Encodes spec c r) := inferInstanceAs (Decidable (_ ∧ _))

/-- A rune that is written as it is: not a quote, and not a symbol that would be read as a space. -/
def Bare (spec : EncodeSpec) (c : Char) : Prop :=
  c ≠ quote ∧ (c = symbolSpace → isReserved spec c = false)

instance : Decidable (Bare spec c) := inferInstanceAs (Decidable (_ ∧ _))

/-- Every quote rune stands before a rune that has to be quoted. -/
inductive Quoted (spec : EncodeSpec) : Path → Prop
  | nil : Quoted spec []
  | quoted {c : Char} {w : Path} (hc : isReserved spec c = true) (h : Quoted spec w) :
      Quoted spec (quote :: c :: w)
  | bare {r : Char} {w : Path} (hr : Bare spec r) (h : Quoted spec w) : Quoted spec (r :: w)

/-- A space at an edge of a name where it is restricted, or none. -/
def Edge (restricted : Bool) (a : Path) : Prop := a = [] ∨ restricted = true ∧ a = [' ']

/-- What stands for the space at an edge. -/
def mark (a : Path) : Path := a.map fun _ => symbolSpace

/-- A name as the encoder spells it, the forms of whole names apart. -/
def Spelled (spec : EncodeSpec) (w : Path) : Prop :=
  ∃ a m b, Edge spec.leftSpace a ∧ Edge spec.rightSpace b ∧ Quoted spec m ∧
    w = mark a ++ (m ++ mark b)

/-- A name as the encoder spells it. -/
def Canonical (spec : EncodeSpec) (w : Path) : Prop :=
  w = [quote, fullwidthDot] ∨ w = [quote, fullwidthDot, quote, fullwidthDot] ∨ Spelled spec w

/-- A name the provider accepts: it is not one of the two with dots only, there is no control
character, no DEL and none of the forbidden characters in it, and no space at a restricted edge. -/
def Admissible (spec : EncodeSpec) (w : Path) : Prop :=
  (w ≠ [] ∧ w ≠ ['.'] ∧ w ≠ ['.', '.']) ∧
    (∀ c ∈ w, 0x20 ≤ c.toNat ∧ c ≠ '\x7f' ∧ c ∉ spec.chars) ∧
    (spec.leftSpace = true → w.head? ≠ some ' ') ∧ (spec.rightSpace = true → w.getLast? ≠ some ' ')

instance : Decidable (Admissible spec w) := inferInstanceAs (Decidable (_ ∧ _))

section Spec

variable (hp : encodeSpec provider = some spec)
include hp

theorem encodes_source (h : encodeSource spec c = some r) : Encodes spec c r := by
  have hall : ∀ n < 0x80, (encodeSource spec (Char.ofNat n)).all
      (Encodes spec (Char.ofNat n) ·) := by
    cases provider <;> cases hp <;> decide +kernel
  have hchars : ∀ c ∈ spec.chars, c.toNat < 0x80 := by
    cases provider <;> cases hp <;> decide
  have hlt : c.toNat < 0x80 := by
    unfold encodeSource at h
    split at h
    · next hc => rw [hc]; decide
    split at h
    · omega
    split at h
    · next hc => exact hchars c (by simpa using hc)
    · cases h
  have hc := hall c.toNat hlt
  rw [Char.ofNat_toNat, h] at hc
  exact of_decide_eq_true hc

theorem encodes_target (h : decodeTarget spec r = some c) : Encodes spec c r := by
  have hall : ∀ n ∈ range' 0x2400 0x22 ++ range' 0xFF01 0x5E,
      (decodeTarget spec (Char.ofNat n)).all (Encodes spec · (Char.ofNat n)) := by
    cases provider <;> cases hp <;> decide +kernel
  have hmem : r.toNat ∈ range' 0x2400 0x22 ++ range' 0xFF01 0x5E := by
    rw [mem_append, mem_range'_1, mem_range'_1]
    unfold decodeTarget at h
    split at h
    · next hr => rw [hr]; decide
    split at h
    · omega
    split at h
    · omega
    · cases h
  have hr := hall r.toNat hmem
  rw [Char.ofNat_toNat, h] at hr
  exact of_decide_eq_true hr

theorem encodeSource_eq_none (h : 0x80 ≤ c.toNat) : encodeSource spec c = none := by
  refine Option.eq_none_iff_forall_ne_some.mpr fun r hr => ?_
  have := (encodes_source hp hr).2.1.1
  omega

/-- What is written for a character: the character behind a quote, or one rune that is not quoted
and that no provider forbids. -/
theorem encodeChar_cases (c : Char) :
    (encodeChar spec c = [quote, c] ∧ isReserved spec c = true ∧ encodeSource spec c = none) ∨
      ∃ r, encodeChar spec c = [r] ∧ Bare spec r ∧ (decodeTarget spec r).getD r = c ∧
        encodeSource spec r = none ∧ (r = c ∨ 0x2400 ≤ r.toNat) := by
  unfold encodeChar
  split
  · next hc =>
    subst hc
    exact .inl ⟨rfl, rfl, encodeSource_eq_none hp (by decide)⟩
  next hc =>
  split
  · next r hr =>
    obtain ⟨⟨-, hd⟩, -, hle, hrune⟩ := encodes_source hp hr
    have hq : r ≠ quote := fun h => absurd hle (by rw [h]; decide)
    have hs : r ≠ symbolSpace := fun h => hrune (h ▸ mem_cons_self ..)
    exact .inr ⟨r, rfl, ⟨hq, fun h => absurd h hs⟩, by rw [hd]; rfl,
      encodeSource_eq_none hp (by omega), .inr hle⟩
  next hn =>
  split
  · next hr => exact .inl ⟨rfl, hr, hn⟩
  · next hr =>
    rw [Bool.not_eq_true] at hr
    have hd : decodeTarget spec c = none := by
      rw [isReserved, Bool.or_eq_false_iff] at hr
      exact Option.isSome_eq_false_iff.mp hr.2 |> Option.isNone_iff_eq_none.mp
    exact .inr ⟨c, rfl, ⟨hc, fun _ => hr⟩, by rw [hd]; rfl, hn, .inl rfl⟩

omit hp in
theorem encodeChar_reserved (hr : isReserved spec c = true) (hn : encodeSource spec c = none) :
    encodeChar spec c = [quote, c] := by
  unfold encodeChar
  split
  · next hc => rw [hc]
  · rw [hn]

theorem encodeChar_bare (hr : Bare spec r) (hn : encodeSource spec r = none) :
    encodeChar spec ((decodeTarget spec r).getD r) = [r] := by
  unfold encodeChar
  cases hd : decodeTarget spec r with
  | none =>
    have hres : isReserved spec r = false := by
      by_cases hs : r = symbolSpace
      · exact hr.2 hs
      · simp [isReserved, hr.1, hs, hd]
    simp [hr.1, hn, hres]
  | some c =>
    obtain ⟨⟨he, -⟩, ⟨hlt, -⟩, -⟩ := encodes_target hp hd
    have hq : c ≠ quote := fun h => absurd hlt (by rw [h]; decide)
    simp [hq, he]

theorem encodeChar_space : encodeChar spec ' ' = [' '] := by
  cases provider <;> cases hp <;> decide

theorem encodeChar_ends (h : c ≠ ' ') :
    (encodeChar spec c).head? ≠ some ' ' ∧ (encodeChar spec c).getLast? ≠ some ' ' := by
  rcases encodeChar_cases hp c with ⟨he, -⟩ | ⟨r, he, -, -, -, hc⟩
  · rw [he]
    exact ⟨by simp [quote], by simpa using h⟩
  · have hr : r ≠ ' ' := by
      rintro rfl
      exact h (hc.resolve_right (by decide)).symm
    rw [he]
    simpa using hr

theorem decodeLoop_encodeChar (c : Char) (rest : Path) :
    decodeLoop spec (encodeChar spec c ++ rest) = c :: decodeLoop spec rest := by
  rcases encodeChar_cases hp c with ⟨he, -⟩ | ⟨r, he, hr, hd, -⟩
  · rw [he]
    simp [decodeLoop]
  · rw [he]
    cases rest with
    | nil =>
      have hs : (spec.rightSpace && r == symbolSpace) = false := by
        by_contra h
        simp only [Bool.not_eq_false, Bool.and_eq_true, beq_iff_eq] at h
        have := hr.2 h.2
        simp [isReserved, h.1, h.2] at this
      simp [decodeLoop, hr.1, hs, hd]
    | cons d rest => simp [decodeLoop, hr.1, hd]

theorem quoted_flatMap (m : Path) : Quoted spec (m.flatMap (encodeChar spec)) := by
  induction m with
  | nil => exact .nil
  | cons c m ih =>
    rw [flatMap_cons]
    rcases encodeChar_cases hp c with ⟨he, hr, -⟩ | ⟨r, he, hr, -⟩
    · rw [he]
      exact .quoted hr ih
    · rw [he]
      exact .bare hr ih

/-- A name in which every quote rune stands before a rune that has to be quoted is written by the
loop. -/
theorem Quoted.exists_flatMap (h : Quoted spec w) (hn : ∀ r ∈ w, encodeSource spec r = none) :
    ∃ m : Path, w = m.flatMap (encodeChar spec) := by
  induction h with
  | nil => exact ⟨[], rfl⟩
  | @quoted c w hc _ ih =>
    obtain ⟨m, rfl⟩ := ih fun x hx => hn x (by simp [hx])
    exact ⟨c :: m, by rw [flatMap_cons, encodeChar_reserved hc (hn c (by simp))]; rfl⟩
  | @bare r w hr _ ih =>
    obtain ⟨m, rfl⟩ := ih fun x hx => hn x (mem_cons_of_mem r hx)
    exact ⟨(decodeTarget spec r).getD r
      :: m, by rw [flatMap_cons, encodeChar_bare hp hr (hn r mem_cons_self)]; rfl⟩

/-! ### The parts of a name -/

/-- A name `a ++ (m ++ b)` as the encoder takes it apart: its edges, and what the loop is given. -/
structure Parts (spec : EncodeSpec) (a m b : Path) : Prop where
  left : Edge spec.leftSpace a
  right : Edge spec.rightSpace b
  first : spec.leftSpace = true → a = [] → (m ++ b).head? ≠ some ' '
  last : spec.rightSpace = true → b = [] → m.getLast? ≠ some ' '

/-- What the encoder writes for a name in parts. -/
abbrev written (spec : EncodeSpec) (a m b : Path) : Path :=
  mark a ++ (m.flatMap (encodeChar spec) ++ mark b)

omit hp in
theorem Parts.encodeEdges_eq (h : Parts spec a m b) :
    encodeEdges spec (a ++ (m ++ b)) = written spec a m b := by
  have hl : (spec.leftSpace && (a ++ (m ++ b)).head? == some ' ') = !a.isEmpty := by
    rcases h.left with rfl | ⟨hs, rfl⟩
    · simpa using fun hs => h.first hs rfl
    · simp [hs]
  have hr : (spec.rightSpace && (m ++ b).getLast? == some ' ') = !b.isEmpty := by
    rcases h.right with rfl | ⟨hs, rfl⟩
    · simpa using fun hs => h.last hs rfl
    · simp [hs]
  have ha : (if !a.isEmpty then (a ++ (m ++ b)).tail else a ++ (m ++ b)) = m ++ b := by
    rcases h.left with rfl | ⟨-, rfl⟩ <;> rfl
  have hb : (if !b.isEmpty then (m ++ b).dropLast else m ++ b) = m := by
    rcases h.right with rfl | ⟨-, rfl⟩ <;> simp
  simp only [encodeEdges, hl, ha, hr]
  rcases h.left with rfl | ⟨-, rfl⟩ <;> rcases h.right with rfl | ⟨-, rfl⟩ <;> simp [written, mark]

omit hp in
theorem exists_parts (spec : EncodeSpec) (leaf : Path) :
    ∃ a m b, Parts spec a m b ∧ leaf = a ++ (m ++ b) := by
  have hright : ∀ mid : Path, ∃ m b, Edge spec.rightSpace b ∧ mid = m ++ b ∧
      (spec.rightSpace = true → b = [] → m.getLast? ≠ some ' ') := by
    intro mid
    by_cases h : spec.rightSpace = true ∧ mid.getLast? = some ' '
    · obtain ⟨m, rfl⟩ := getLast?_eq_some_iff.mp h.2
      exact ⟨m, [' '], .inr ⟨h.1, rfl⟩, rfl, by simp⟩
    · exact ⟨mid, [], .inl rfl, (append_nil mid).symm, fun hs _ hl => h ⟨hs, hl⟩⟩
  by_cases h : spec.leftSpace = true ∧ leaf.head? = some ' '
  · obtain ⟨mid, rfl⟩ := head?_eq_some_iff.mp h.2
    obtain ⟨m, b, hr, rfl, hl⟩ := hright mid
    exact ⟨[' '], m, b, ⟨.inr ⟨h.1, rfl⟩, hr, by simp, hl⟩, rfl⟩
  · obtain ⟨m, b, hr, rfl, hl⟩ := hright leaf
    exact ⟨[], m, b, ⟨.inl rfl, hr, fun hs _ hh => h ⟨hs, hh⟩, hl⟩, rfl⟩

theorem decodeLoop_written (h : Edge spec.rightSpace b) (m : Path) :
    decodeLoop spec (m.flatMap (encodeChar spec) ++ mark b) = m ++ b := by
  induction m with
  | nil =>
    rcases h with rfl | ⟨h, rfl⟩
    · rfl
    · simp [decodeLoop, mark, h, show symbolSpace ≠ quote by decide]
  | cons c m ih => rw [flatMap_cons, append_assoc, decodeLoop_encodeChar hp, ih, cons_append]

theorem Parts.head_written (h : Parts spec [] m b) (hl : spec.leftSpace = true) :
    (written spec [] m b).head? ≠ some ' ' ∧ (written spec [] m b).head? ≠ some symbolSpace := by
  have hf := h.first hl rfl
  cases m with
  | nil =>
    rcases h.right with rfl | ⟨-, rfl⟩
    · simp [mark]
    · exact absurd rfl hf
  | cons c m =>
    have hc : c ≠ ' ' := by simpa using hf
    have hends := (encodeChar_ends hp hc).1
    have hhead (x : Char) (w : Path) (he : encodeChar spec c = x :: w) :
        (written spec [] (c :: m) b).head? = some x := by
      rw [written, flatMap_cons, he]
      rfl
    rcases encodeChar_cases hp c with ⟨he, -⟩ | ⟨r, he, hr, -⟩
    · rw [hhead _ _ he]
      exact ⟨by decide, by decide⟩
    · rw [he] at hends
      rw [hhead _ _ he]
      refine ⟨hends, fun hs => ?_⟩
      obtain rfl := Option.some.inj hs
      have hres := hr.2 rfl
      rw [isReserved, hl, Bool.true_or] at hres
      cases hres

theorem Parts.getLast_written (h : Parts spec a m b) (hr : spec.rightSpace = true) :
    (written spec a m b).getLast? ≠ some ' ' := by
  rcases h.right with rfl | ⟨-, rfl⟩
  · rcases eq_nil_or_concat' m with rfl | ⟨front, c, rfl⟩
    · rcases h.left with rfl | ⟨-, rfl⟩
      · exact nofun
      · exact fun hs => absurd (show some symbolSpace = some ' ' from hs) (by decide)
    · have hc : c ≠ ' ' := by simpa using h.last hr rfl
      have hne : encodeChar spec c ≠ [] := by
        rcases encodeChar_cases hp c with ⟨he, -⟩ | ⟨r, he, -⟩
        · rw [he]
          exact cons_ne_nil _ _
        · rw [he]
          exact cons_ne_nil _ _
      have hw : written spec a (front ++ [c]) [] =
          (mark a ++ front.flatMap (encodeChar spec)) ++ encodeChar spec c := by
        rw [written, flatMap_append, flatMap_singleton, show mark [] = [] from rfl, append_nil,
          append_assoc]
      rw [hw, getLast?_append_of_ne_nil _ hne]
      exact (encodeChar_ends hp hc).2
  · rw [written, ← append_assoc]
    exact fun hs => absurd ((getLast?_concat).symm.trans hs) (by decide)

theorem Parts.decodeEdges_eq (h : Parts spec a m b) :
    decodeEdges spec (written spec a m b) = a ++ (m ++ b) := by
  have hloop := decodeLoop_written hp h.right m
  rcases h.left with rfl | ⟨hl, rfl⟩
  · have hh : (spec.leftSpace && (written spec [] m b).head? == some symbolSpace) = false := by
      by_contra hc
      simp only [Bool.not_eq_false, Bool.and_eq_true, beq_iff_eq] at hc
      exact (h.head_written hp hc.1).2 hc.2
    rw [decodeEdges, hh]
    exact hloop
  · simpa [decodeEdges, mark, hl] using hloop

/-- No rune that is written is one the provider forbids, nor a slash that was not in the name. -/
theorem written_mem (hr : r ∈ written spec a m b) :
    encodeSource spec r = none ∧ (r = '/' → r ∈ m) := by
  have hs : r = symbolSpace ∨ r = quote → encodeSource spec r = none ∧ (r = '/' → r ∈ m) := by
    rintro (rfl | rfl) <;> exact ⟨encodeSource_eq_none hp (by decide),
      fun h => absurd h (by decide)⟩
  have hmark : ∀ {a : Path}, r ∈ mark a → r = symbolSpace := fun h => by
    obtain ⟨_, _, rfl⟩ := mem_map.mp h
    rfl
  rcases mem_append.mp hr with hr | hr
  · exact hs (.inl (hmark hr))
  rcases mem_append.mp hr with hr | hr
  · obtain ⟨c, hc, hr⟩ := mem_flatMap.mp hr
    rcases encodeChar_cases hp c with ⟨he, -, hn⟩ | ⟨r', he, -, -, hn, hlow⟩
    · rw [he, mem_cons, mem_singleton] at hr
      rcases hr with hr | rfl
      · exact hs (.inr hr)
      · exact ⟨hn, fun _ => hc⟩
    · rw [he, mem_singleton] at hr
      subst hr
      exact ⟨hn, fun h => hlow.resolve_right (by rw [h]; decide) ▸ hc⟩
  · exact hs (.inl (hmark hr))

/-- A name the encoder could have spelled, and with nothing in it that the provider forbids, is
what the encoder makes of the name it is read as. -/
theorem encodeEdges_decodeEdges (hq : Spelled spec w) (hn : ∀ r ∈ w, encodeSource spec r = none)
    (hh : spec.leftSpace = true → w.head? ≠ some ' ')
    (hlast : spec.rightSpace = true → w.getLast? ≠ some ' ') :
    encodeEdges spec (decodeEdges spec w) = w := by
  suffices h : ∃ a m b, Parts spec a m b ∧ w = written spec a m b by
    obtain ⟨a, m, b, hparts, rfl⟩ := h
    rw [hparts.decodeEdges_eq hp, hparts.encodeEdges_eq]
  obtain ⟨a, m, b, ha, hb, hq, rfl⟩ := hq
  obtain ⟨m, rfl⟩ := hq.exists_flatMap hp fun r hr => hn r (by simp [hr])
  by_cases h : spec.leftSpace = true ∧ written spec a m b = [symbolSpace]
  · exact ⟨[' '], [], [], ⟨.inr ⟨h.1, rfl⟩, .inl rfl, by simp, by simp⟩, h.2⟩
  refine ⟨a, m, b, ⟨ha, hb, fun hl hnil hc => ?_, fun hr hnil hc => ?_⟩, rfl⟩
  · subst hnil
    cases m with
    | cons c m =>
      obtain rfl : c = ' ' := by simpa using hc
      exact hh hl (by simp [mark, encodeChar_space hp])
    | nil =>
      rcases hb with rfl | ⟨-, rfl⟩
      · cases hc
      · exact h ⟨hl, rfl⟩
  · subst hnil
    obtain ⟨front, rfl⟩ := getLast?_eq_some_iff.mp hc
    exact hlast hr (by simp [mark, encodeChar_space hp])

/-! ### Names and paths -/

omit hp in
theorem encodeSource_eq_none_iff :
    encodeSource spec c = none ↔ 0x20 ≤ c.toNat ∧ c ≠ '\x7f' ∧ c ∉ spec.chars := by
  unfold encodeSource
  split
  · next hc => exact iff_of_false nofun fun h => h.2.1 hc
  next hdel =>
  split
  · exact iff_of_false nofun (by omega)
  next hlow =>
  split
  · next hc => exact iff_of_false nofun fun h => h.2.2 (contains_iff_mem.mp hc)
  · next hc => exact iff_of_true rfl ⟨by omega, hdel, fun h => hc (contains_iff_mem.mpr h)⟩

/-- The names with a form of their own. -/
def dots : List Path := [['.'], ['.', '.'], [fullwidthDot], [fullwidthDot, fullwidthDot]]

omit hp in
theorem encodeLeafWith_of_notMem (h : leaf ∉ dots) :
    encodeLeafWith spec leaf = encodeEdges spec leaf := by
  have hne : ∀ v ∈ dots, leaf ≠ v := fun v hv hc => h (hc ▸ hv)
  rw [encodeLeafWith, if_neg (hne _ (by simp [dots])), if_neg (hne _ (by simp [dots])),
    if_neg (hne _ (by simp [dots])), if_neg (hne _ (by simp [dots]))]

theorem edges_dots : ∀ v ∈ dots, encodeEdges spec v = v ∧ decodeEdges spec v = v := by
  cases provider <;> cases hp <;> decide

theorem encodeLeafWith_spec (leaf : Path) :
    decodeLeafWith spec (encodeLeafWith spec leaf) = leaf ∧
      Canonical spec (encodeLeafWith spec leaf) ∧
      ('/' ∉ leaf → '/' ∉ encodeLeafWith spec leaf) ∧
        (leaf ≠ [] → Admissible spec (encodeLeafWith spec leaf)) := by
  have hspell : ∀ leaf, Spelled spec (encodeEdges spec leaf) := by
    intro leaf
    obtain ⟨a, m, b, h, rfl⟩ := exists_parts spec leaf
    exact ⟨a, _, b, h.left, h.right, quoted_flatMap hp m, h.encodeEdges_eq⟩
  by_cases hleaf : leaf ∈ dots
  · have hdots : ∀ v ∈ dots, decodeLeafWith spec (encodeLeafWith spec v) = v ∧
        '/' ∉ encodeLeafWith spec v ∧ Admissible spec (encodeLeafWith spec v) ∧
        encodeLeafWith spec v ∈ [quote, fullwidthDot] :: [quote, fullwidthDot, quote, fullwidthDot]
          :: dots := by
      cases provider <;> cases hp <;> decide
    obtain ⟨hdec, hs, hadm, hf⟩ := hdots leaf hleaf
    refine ⟨hdec, ?_, fun _ => hs, fun _ => hadm⟩
    rcases mem_cons.mp hf with h | h
    · exact .inl h
    rcases mem_cons.mp h with h | h
    · exact .inr (.inl h)
    · exact .inr (.inr ((edges_dots hp _ h).1 ▸ hspell _))
  obtain ⟨a, m, b, h, hl⟩ := exists_parts spec leaf
  have hw : encodeLeafWith spec leaf = written spec a m b := by
    rw [encodeLeafWith_of_notMem hleaf, hl, h.encodeEdges_eq]
  have hdec := h.decodeEdges_eq hp
  rw [← hl] at hdec
  have hne : ∀ v ∈ dots, written spec a m b ≠ v := by
    intro v hv hc
    rw [hc, (edges_dots hp v hv).2] at hdec
    exact hleaf (hdec ▸ hv)
  rw [hw]
  refine ⟨?_, .inr (.inr (h.encodeEdges_eq ▸ hspell _)),
    fun hs hc => hs (hl ▸ by simp [(written_mem hp hc).2 rfl]), fun hn => ?_⟩
  · rw [decodeLeafWith, if_neg (hne _ (by simp [dots])), if_neg (hne _ (by simp [dots])), hdec]
  · refine ⟨⟨fun hc => hn ?_, hne _ (by simp [dots]), hne _ (by simp [dots])⟩,
      fun c hc => encodeSource_eq_none_iff.mp (written_mem hp hc).1, fun hs => ?_,
        h.getLast_written hp⟩
    · rw [← hdec, hc]
      simp [decodeEdges, decodeLoop]
    · rcases h.left with rfl | ⟨-, rfl⟩
      · exact (h.head_written hp hs).1
      · simp [mark, symbolSpace]

theorem encodeLeaf_eq :
    encodeLeaf provider = encodeLeafWith spec ∧ decodeLeaf provider = decodeLeafWith spec :=
  ⟨funext fun leaf => by rw [encodeLeaf, hp]; rfl, funext fun leaf => by rw [decodeLeaf, hp]; rfl⟩

end Spec

/-- The decoder undoes the encoder on every path.  The encoder keeps the slashes, for it works on
the segments one by one, and every segment that is not empty becomes a name the provider accepts. -/
theorem encodePath_lossless (hp : encodeSpec provider = some spec) (p : Path) :
    decodePath provider (encodePath provider p) = p ∧
      splitSlash (encodePath provider p) = (splitSlash p).map (encodeLeaf provider) ∧
      ∀ seg ∈ splitSlash (encodePath provider p), seg ≠ [] → Admissible spec seg := by
  obtain ⟨henc, hdec⟩ := encodeLeaf_eq hp
  have hjoin : ∀ (path : Path) (f : Path → Path), f [] = [] →
      joinSegments path f = ['/'].intercalate ((splitSlash path).map f) := by
    intro path f hf
    rw [joinSegments]
    congr 1
    refine map_congr_left fun seg _ => ?_
    split
    · next h => rw [isEmpty_iff.mp h, hf]
    · rfl
  have hpath : encodePath provider p = ['/'].intercalate
      ((splitSlash p).map (encodeLeaf provider)) := by
    rw [encodePath, hp]
    refine hjoin p _ ?_
    cases provider <;> cases hp <;> decide
  have hsplit : splitSlash (encodePath provider p) = (splitSlash p).map (encodeLeaf provider) := by
    rw [hpath]
    refine splitOn_intercalate '/' (fun seg hs => ?_) (by simpa using splitSlash_ne_nil p)
    obtain ⟨leaf, hl, rfl⟩ := mem_map.mp hs
    rw [henc]
    exact (encodeLeafWith_spec hp leaf).2.2.1 (slash_notMem_splitSlash p leaf hl)
  refine ⟨?_, hsplit, fun seg hs hne => ?_⟩
  · rw [decodePath, hp]
    have hnil : decodeLeaf provider [] = [] := by
      cases provider <;> cases hp <;> decide
    calc joinSegments (encodePath provider p) (decodeLeaf provider)
        = ['/'].intercalate ((splitSlash p).map (decodeLeaf provider ∘ encodeLeaf provider)) := by
          rw [hjoin _ _ hnil, hsplit, map_map]
      _ = ['/'].intercalate (splitSlash p) := by
          rw [map_congr_left fun leaf _ => ?_, map_id]
          rw [henc, hdec]
          exact (encodeLeafWith_spec hp leaf).1
      _ = p := intercalate_splitSlash p
  · rw [hsplit, henc] at hs
    obtain ⟨leaf, -, rfl⟩ := mem_map.mp hs
    exact (encodeLeafWith_spec hp leaf).2.2.2 fun hl =>
      hne (by rw [hl]; cases provider <;> cases hp <;> decide)

theorem encodePath_lossless_openDrive :
    encodePath .openDrive "/ a:b /..".toList = "/␠a：b␠/．．".toList ∧
      decodePath .openDrive (encodePath .openDrive "/ a:b /..".toList) = "/ a:b /..".toList :=
  ⟨by decide, (encodePath_lossless rfl _).1⟩

/-- A name the provider lists is addressed again by the name it is read as exactly when it is
spelled as the encoder spells, and names that are spelled so are read as different names. -/
theorem listed_addressed_iff (hp : encodeSpec provider = some spec) (hw : Admissible spec w) :
    (encodeLeaf provider (decodeLeaf provider w) = w ↔ Canonical spec w) ∧
      ∀ w', Admissible spec w' → Canonical spec w → Canonical spec w' →
        decodeLeaf provider w = decodeLeaf provider w' → w = w' := by
  obtain ⟨henc, hdec⟩ := encodeLeaf_eq hp
  rw [henc, hdec]
  have hback : ∀ w, Admissible spec w → Canonical spec w →
      encodeLeafWith spec (decodeLeafWith spec w) = w := by
    rintro w ⟨⟨-, hd, hdd⟩, hchars, hhead, hlast⟩ (rfl | rfl | h)
    · cases provider <;> cases hp <;> decide
    · cases provider <;> cases hp <;> decide
    have hw := encodeEdges_decodeEdges hp h (fun c hc => encodeSource_eq_none_iff.mpr (hchars c hc))
      hhead hlast
    unfold decodeLeafWith
    split
    · next hf => exact hf ▸ rfl
    next hf =>
    split
    · next hff => exact hff ▸ rfl
    next hff =>
    have hne : decodeEdges spec w ∉ dots := by
      intro hv
      rw [(edges_dots hp _ hv).1] at hw
      simp_all [dots]
    rw [encodeLeafWith_of_notMem hne, hw]
  refine ⟨⟨fun h => h ▸ (encodeLeafWith_spec hp _).2.1, hback w hw⟩, fun w' hw' hc hc' h => ?_⟩
  rw [← hback w hw hc, h, hback w' hw' hc']

theorem listed_addressed_box :
    encodeLeaf .box (decodeLeaf .box "a＼b␠".toList) = "a＼b␠".toList ∧ decodeLeaf .box "a＼b␠".toList
      = "a\\b ".toList :=
  ⟨(listed_addressed_iff rfl (by decide)).1.mpr
    (.inr (.inr ⟨[], "a＼b".toList, [' '], .inl rfl, .inr ⟨rfl, rfl⟩,
    .bare (by decide) (.bare (by decide) (.bare (by decide) .nil)), rfl⟩)), by decide⟩

/-- A quote rune before a letter is lost, and the name is read as another listed one is. -/
theorem stray_quote_lost :
    Admissible ⟨['\\'], false, true⟩ "‛a".toList ∧ encodeSpec .box = some ⟨['\\'], false, true⟩ ∧
      encodeLeaf .box (decodeLeaf .box "‛a".toList) ≠ "‛a".toList ∧
      decodeLeaf .box "‛a".toList = decodeLeaf .box "a".toList := by
  decide

end AeroFtp.RestrictedChars
