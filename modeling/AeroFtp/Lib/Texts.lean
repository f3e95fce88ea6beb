/-
Texts as bytes and back, bytes as texts, and a text without its suffix.
-/
import Mathlib.Data.List.Basic

namespace AeroFtp.Texts

open List

/-- The bytes of a text in UTF-8. -/
def asBytes (text : List Char) : List UInt8 := (String.ofList text).toByteArray.data.toList

/-- The text of bytes in UTF-8. -/
def fromUtf8 (bytes : List UInt8) : Option (List Char) :=
  (String.fromUTF8? ⟨bytes.toArray⟩).map String.toList

theorem fromUtf8_asBytes (text : List Char) : fromUtf8 (asBytes text) = some text := by
  have hb : (⟨(asBytes text).toArray⟩ : ByteArray) = (String.ofList text).toByteArray := rfl
  rw [fromUtf8, hb, String.fromUTF8?, dif_pos (String.isValidUTF8 _)]
  exact congrArg some (String.toList_ofList)

theorem asBytes_injective {a b : List Char} (h : asBytes a = asBytes b) : a = b := by
  have ha := fromUtf8_asBytes a
  rw [h, fromUtf8_asBytes] at ha
  exact (Option.some.inj ha).symm

/-- A text of as many characters as there are bytes. -/
def byteChars (bytes : List UInt8) : List Char := bytes.map fun b => Char.ofNat b.toNat

def charBytes (text : List Char) : List UInt8 := text.map fun c => UInt8.ofNat c.toNat

theorem charBytes_byteChars (bytes : List UInt8) : charBytes (byteChars bytes) = bytes := by
  rw [charBytes, byteChars, map_map]
  refine (map_congr_left fun b _ => ?_).trans (map_id bytes)
  have hb := b.toNat_lt
  have hchar : (Char.ofNat b.toNat).toNat = b.toNat := by
    rw [Char.ofNat, dif_pos (.inl (by omega))]
    rfl
  rw [Function.comp_apply, hchar, UInt8.ofNat_toNat, id]

theorem byteChars_injective {a b : List UInt8} (h : byteChars a = byteChars b) : a = b := by
  rw [← charBytes_byteChars a, h, charBytes_byteChars]

variable {text suffix rest : List Char}

/-- The text in front of a suffix. -/
def stripSuffix (text suffix : List Char) : Option (List Char) :=
  if suffix.isSuffixOf text then some (text.take (text.length - suffix.length)) else none

theorem stripSuffix_append (text suffix : List Char) :
    stripSuffix (text ++ suffix) suffix = some text := by
  rw [stripSuffix]
  simp

theorem eq_append_of_stripSuffix (h : stripSuffix text suffix = some rest) :
    text = rest ++ suffix := by
  unfold stripSuffix at h
  by_cases hs : suffix.isSuffixOf text = true
  · obtain ⟨front, rfl⟩ := isSuffixOf_iff_suffix.mp hs
    have hf : front = rest := by simpa using h
    rw [hf]
  · rw [if_neg hs] at h
    cases h

end AeroFtp.Texts
