/-
Extended attributes survive their two parts on the wire.

The list is read as it was written, with the digests of the long values in their place, and
the section puts the values back: by induction over the attributes, with the list resolved up
to the one the section has come to.
-/
import AeroFtp.Aerorsync.RealWire.XattrSection
import AeroFtp.Proofs.Aerorsync.FileListRoundTrip
import Mathlib.Algebra.Order.BigOperators.Group.List
import Mathlib.Algebra.Order.Group.Nat

namespace AeroFtp.RealWire

open Reader List XattrDatum

variable (md5 : List UInt8 → List UInt8)

/-! ### The list -/

/-- What the list alone says of a value. -/
def XattrDatum.listed : XattrDatum → XattrDatum
  | .inline value =>
    if value.length ≤ maxFullDatum then .inline value else .deferred value.length (md5 value)
  | .deferred len digest => .deferred len digest

def XattrPair.listed (pair : XattrPair) : XattrPair := { pair with datum := pair.datum.listed md5 }

theorem len_listed (datum : XattrDatum) : (datum.listed md5).len = datum.len := by
  cases datum with
  | inline value => by_cases h : value.length ≤ maxFullDatum <;> simp [listed, len, h]
  | deferred len digest => rfl

theorem onWire_listed (datum : XattrDatum) : (datum.listed md5).onWire md5 = datum.onWire md5 := by
  cases datum with
  | inline value => by_cases h : value.length ≤ maxFullDatum <;> simp [listed, onWire, h]
  | deferred len digest => rfl

theorem encodeXattrBlob_listed (pairs : List XattrPair) :
    encodeXattrBlob md5 (pairs.map (·.listed md5)) = encodeXattrBlob md5 pairs := by
  have hp : (fun pair : XattrPair => encodeXattrPair md5 (pair.listed md5))
      = encodeXattrPair md5 := by
    funext pair
    simp only [encodeXattrPair, XattrPair.listed, len_listed, onWire_listed]
  rw [encodeXattrBlob, length_map, flatMap_map, hp, encodeXattrBlob]

variable {pairs : List XattrPair}

/-- Attributes that a sender has, within the decoder's ceilings. -/
structure XattrsInHand (pairs : List XattrPair) : Prop where
  inline : ∀ pair ∈ pairs, ∃ value, pair.datum = .inline value
  count : pairs.length ≤ maxXattrPairs
  names : ∀ pair ∈ pairs, pair.name.bytes.length ≤ maxXattrNameLen
  total : (pairs.map (·.datum.len)).sum ≤ maxXattrTotalBytes

variable {md5}

theorem XattrsInHand.listed (h : XattrsInHand pairs)
    (hmd5 : ∀ value, (md5 value).length = xattrDigestLen) :
    XattrsFit (pairs.map (·.listed md5)) ∧ ∀ pair ∈ pairs.map (·.listed md5), ∀ len digest,
      pair.datum = .deferred len digest → maxFullDatum < len := by
  refine ⟨⟨?_, ?_, ?_, ?_⟩, ?_⟩
  · rw [length_map]
    exact h.count
  · intro pair hmem
    obtain ⟨pair, hp, rfl⟩ := mem_map.mp hmem
    exact h.names pair hp
  · intro pair hmem
    obtain ⟨pair, hp, rfl⟩ := mem_map.mp hmem
    obtain ⟨value, hv⟩ := h.inline pair hp
    simp only [XattrPair.listed, hv, XattrDatum.listed]
    split
    next hshort => exact hshort
    next => exact hmd5 value
  · have hsame : (pairs.map (·.listed md5)).map (·.datum.len) = pairs.map (·.datum.len) := by
      simp [XattrPair.listed, len_listed]
    rw [hsame]
    exact h.total
  · intro pair hmem len digest hd
    obtain ⟨pair, hp, rfl⟩ := mem_map.mp hmem
    obtain ⟨value, hv⟩ := h.inline pair hp
    simp only [XattrPair.listed, hv, XattrDatum.listed] at hd
    split at hd
    next => cases hd
    next hl =>
      cases hd
      exact Nat.not_le.mp hl

theorem reads_blob (h : XattrsInHand pairs) (hmd5 : ∀ value, (md5 value).length = xattrDigestLen) :
    Reads decodeXattrBlob (encodeXattrBlob md5 pairs) (pairs.map (·.listed md5)) := by
  obtain ⟨hfit, hd⟩ := h.listed hmd5
  rw [← encodeXattrBlob_listed]
  exact reads_decodeXattrBlob md5 hfit hd

/-! ### The section -/

variable (md5) in
theorem reads_record {front rest out : List XattrPair} {name : Utf8String} {value w : List UInt8}
    {turns skip : Nat} {previous : Int} (hskip : previous + skip = front.length) (hpos : 0 < skip)
    (hfar : skip < 2 ^ 31) (hsmall : value.length < 2 ^ 31)
    (h : Reads (resolveXattrRecords md5 turns front.length (front ++ ⟨name, .inline value⟩ :: rest))
      w out) :
    Reads (resolveXattrRecords md5 (turns + 1) previous
      (front ++ ⟨name, .deferred value.length (md5 value)⟩ :: rest))
      (encodeVarint (Int32.ofNat skip) ++ (encodeVarint (Int32.ofNat value.length) ++ (value ++ w)))
        out := by
  refine (reads_varint_ofNat hfar).bind (.ite_neg (by omega) (.ite_neg (by omega) ?_))
  simp only [hskip, Int.toNat_natCast, if_neg (Int.not_lt.mpr (Int.natCast_nonneg _)),
    getElem?_append_right (Nat.le_refl _), Nat.sub_self, getElem?_cons_zero]
  refine (reads_varint_ofNat hsmall).bind (.ite_neg (by omega) ?_)
  refine Reads.ite_neg (not_not.mpr rfl)
    ((Reads.take rfl).bind (Reads.ite_neg (not_not.mpr rfl) ?_))
  rw [set_append_right _ _ (Nat.le_refl _), Nat.sub_self]
  exact h

variable (md5) in
theorem reads_records : ∀ (rest front : List XattrPair) (turns : Nat) (previous : Int),
    (∀ pair ∈ rest, ∃ value, pair.datum = .inline value ∧ value.length < 2 ^ 31) →
    front.length + rest.length ≤ maxXattrPairs → rest.length < turns →
    -1 ≤ previous → previous < front.length →
    ∃ w, encodeXattrRecords front.length previous rest = some w ∧
      Reads (resolveXattrRecords md5 turns previous (front ++ rest.map (·.listed md5))) w
        (front ++ rest) := by
  intro rest
  induction rest with
  | nil =>
    intro front turns previous _ _ ht _ _
    obtain ⟨turns, rfl⟩ : ∃ n, turns = n + 1 := ⟨turns - 1, by omega⟩
    exact ⟨_, rfl, reads_varint_zero.bind_last (.ite_pos rfl (.pure _))⟩
  | cons pair rest ih =>
    intro front turns previous hinline hc ht hlow hh
    obtain ⟨⟨value, hv, hsmall⟩, hrest⟩ := forall_mem_cons.mp hinline
    obtain ⟨name, _⟩ := pair
    cases hv
    rw [length_cons] at hc ht
    have hmax : maxXattrPairs = 256 := rfl
    have hf : (front ++ [(⟨name, .inline value⟩ : XattrPair)]).length = front.length + 1 := by simp
    have ih := ih (front ++ [⟨name, .inline value⟩])
    simp only [hf, append_assoc, singleton_append] at ih
    by_cases hlong : value.length ≤ maxFullDatum
    · -- the value is in the list
      obtain ⟨w, hw, hreads⟩ := ih turns previous hrest (by omega) (by omega) hlow (by omega)
      refine ⟨w, ?_, ?_⟩
      · simpa [encodeXattrRecords, isOutOfBand, len, hlong] using hw
      · simpa [XattrPair.listed, listed, hlong] using hreads
    · -- the value is in the section
      obtain ⟨turns, rfl⟩ : ∃ n, turns = n + 1 := ⟨turns - 1, by omega⟩
      have hlist : XattrPair.listed md5 ⟨name, .inline value⟩ =
          ⟨name, .deferred value.length (md5 value)⟩ := by
        simp [XattrPair.listed, listed, hlong]
      have hb : (XattrDatum.inline value).isOutOfBand = true := by
        simpa [isOutOfBand, len] using hlong
      obtain ⟨w, hw, hreads⟩ := ih turns front.length hrest (by omega) (by omega) (by omega)
        (by omega)
      obtain ⟨skip, hskip⟩ : ∃ skip : Nat, (front.length : Int) - previous = skip :=
        ⟨_, (Int.toNat_of_nonneg (by omega)).symm⟩
      have hidx : previous + (skip : Int) = front.length := by omega
      rw [map_cons, hlist]
      refine ⟨_, ?_, reads_record md5 hidx (by omega) (by omega) hsmall hreads⟩
      rw [encodeXattrRecords, hb, hw, hskip]
      rfl

/-- The error that asks for more bytes. -/
def Truncated (e : RealWireError) : Prop :=
  ∃ at_ needed available, e = .truncatedBuffer at_ needed available

theorem framed_take (at_ : String) (needed n : Nat) :
    Framed Truncated (take (RealWireError.truncatedBuffer at_ needed) n : Decoder (List UInt8)) :=
  .take (fun _ => ⟨_, _, _, rfl⟩) n

theorem framed_pure {α : Type} (a : α) : Framed Truncated (pure a : Decoder α) :=
  Framed.of_value fun _ _ => rfl

theorem framed_decodeVarint : Framed Truncated decodeVarint := by
  refine ((framed_take _ _ _).bind fun _ => framed_pure _).bind fun ch => ?_
  exact .ite (framed_pure _) (.ite (.fail _) ((framed_take _ _ _).bind fun _ => framed_pure _))

variable (md5) in
theorem framed_records : ∀ (turns : Nat) (previous : Int) (pairs : List XattrPair),
    Framed Truncated (resolveXattrRecords md5 turns previous pairs) := by
  intro turns
  induction turns with
  | zero =>
    intro previous pairs
    rw [resolveXattrRecords]
    exact .fail _
  | succ turns ih =>
    intro previous pairs
    refine framed_decodeVarint.bind fun skip => .ite (framed_pure _) (.ite (.fail _) ?_)
    dsimp only
    split
    · exact .fail _
    next pair _ =>
      refine framed_decodeVarint.bind fun declared => .ite (.fail _) ?_
      cases pair.datum with
      | inline value => exact .fail _
      | deferred len digest =>
        exact .ite (.fail _) ((framed_take _ _ _).bind fun value => .ite (.fail _) (ih _ _))

/-! ### The two parts -/

/-- **Extended attributes survive the two parts.**  The list is read whatever follows it, and the
section on top of it gives the attributes back whatever follows; a section that breaks off asks
for more bytes. -/
theorem xattrs_roundTrip (md5 : List UInt8 → List UInt8) (hmd5 : ∀ value, (md5 value).length = 16)
    (pairs : List XattrPair) (hinline : ∀ pair ∈ pairs, ∃ value, pair.datum = .inline value)
    (hcount : pairs.length ≤ 256) (hnames : ∀ pair ∈ pairs, pair.name.bytes.length ≤ 255)
    (htotal : (pairs.map (·.datum.len)).sum ≤ 1024 * 1024) :
    ∃ listed w, encodeXattrDatumSection pairs = some w ∧
      (∀ t, decodeXattrBlob (encodeXattrBlob md5 pairs ++ t) 0 =
        .ok (listed, (encodeXattrBlob md5 pairs).length)) ∧
      (∀ t, resolveXattrDatumSection md5 listed (w ++ t) 0 = .ok (pairs, w.length)) ∧
      ∀ cut, cut <+: w → cut ≠ w → ∃ at_ needed available,
        resolveXattrDatumSection md5 listed cut 0 = .error
          (.truncatedBuffer at_ needed available) := by
  have hhand : XattrsInHand pairs := ⟨hinline, hcount, hnames, htotal⟩
  have hvalues : ∀ pair ∈ pairs, ∃ value, pair.datum = .inline value ∧ value.length < 2 ^ 31 := by
    intro pair hpair
    obtain ⟨value, hvalue⟩ := hinline pair hpair
    have hle : pair.datum.len ≤ (pairs.map (·.datum.len)).sum :=
      le_sum_of_mem (mem_map_of_mem hpair)
    have hlen : pair.datum.len = value.length := by rw [hvalue, len]
    exact ⟨value, hvalue, by omega⟩
  obtain ⟨w, hw, hsection⟩ := reads_records md5 pairs [] (pairs.length + 1) (-1) hvalues
    (by simpa [maxXattrPairs] using hcount) (Nat.lt_succ_self _) (Int.le_refl _) (by simp)
  have hresolve : ∀ t, resolveXattrDatumSection md5 (pairs.map (·.listed md5)) (w ++ t) 0 =
      .ok (pairs, w.length) := by
    intro t
    have h := hsection [] t
    rw [length_nil, Nat.zero_add] at h
    rw [resolveXattrDatumSection, length_map]
    exact h
  refine ⟨pairs.map (·.listed md5), w, hw, fun t => ?_, hresolve, ?_⟩
  · have h := reads_blob hhand hmd5 [] t
    rwa [nil_append, length_nil, Nat.zero_add] at h
  · intro cut hcut hne
    have hlt : cut.length < w.length :=
      Nat.lt_of_le_of_ne hcut.length_le fun h => hne (hcut.eq_of_length h)
    have hall := hresolve []
    rw [append_nil] at hall
    obtain ⟨e, he, at_, needed, available, rfl⟩ := (framed_records md5 _ _ _).short (Nat.zero_le _)
      hall (Nat.zero_le _) hlt
    rw [← prefix_iff_eq_take.mp hcut] at he
    exact ⟨at_, needed, available, he⟩

/-- A digest of 16 bytes: the first ones of the value. -/
def firstBytes (value : List UInt8) : List UInt8 := (value ++ .replicate 16 0).take 16

/-- A short value and a long one. -/
def shortAndLong : List XattrPair :=
  [⟨⟨[0x61], rfl⟩, .inline [1]⟩, ⟨⟨[0x62], rfl⟩, .inline (.replicate 40 2)⟩]

theorem xattrs_roundTrip_mixed : ∃ listed w, encodeXattrDatumSection shortAndLong = some w ∧
    ∀ t, resolveXattrDatumSection firstBytes listed (w ++ t) 0 = .ok (shortAndLong, w.length) := by
  obtain ⟨listed, w, hw, -, hresolve, -⟩ := xattrs_roundTrip firstBytes (by simp [firstBytes])
    shortAndLong (by simp [shortAndLong]) (by decide) (by decide) (by decide)
  exact ⟨listed, w, hw, hresolve⟩

end AeroFtp.RealWire
