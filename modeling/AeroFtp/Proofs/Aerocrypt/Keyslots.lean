/-
What the associated data of a wrapped key tells.

Every part of it has a fixed length, is announced by its length, or comes last, so it can be read
back from the front.  The three labels differ in the first letter behind the version.
-/
import AeroFtp.Aerocrypt.Keyslots

namespace AeroFtp.Aerocrypt

open List Codes

/-- A field whose length fits its four bytes. -/
def Short (b : Bytes) : Prop := b.length < 2 ^ 32

/-- A member as it is parsed: it has a credential exactly if it is of the kind with one. -/
def AndMember.Fits (m : AndMember) : Prop :=
  Short m.salt ∧ (∀ c ∈ m.credentialId, Short c) ∧ (∀ s ∈ m.hmacSalt, Short s) ∧
    (m.credentialId.isSome ↔ m.kind = .fido2Hmac) ∧ (m.hmacSalt.isSome ↔ m.kind = .fido2Hmac)

/-- The bindings `parse_slot_binding` gives for a kind, with short fields. -/
inductive SlotBinding.Fits : SlotType → SlotBinding → Prop
  | passphrase : Fits .passphrase .none
  | keyfile : Fits .keyfile .none
  | threshold : Fits .threshold .none
  | recovery {vaultPrefix : String} : Fits .recovery (.recovery vaultPrefix)
  | fido2 {cid hs : Bytes} (hc : Short cid) (hh : Short hs) : Fits .fido2Hmac (.fido2 cid hs)
  | and {members : List AndMember} (h : ∀ m ∈ members, m.Fits) : Fits .and (.and members)

theorem tag_inj {k l : SlotType} (h : k.tag = l.tag) : k = l := by
  cases k <;> cases l <;> first | rfl | exact absurd h (by decide)

theorem unambiguous_u32Le : Unambiguous (fun _ => True) u32Le := by
  intro m n _ _ r s h
  obtain ⟨heq, h⟩ := unambiguous_toLeBytes 4 m.toNat_lt n.toNat_lt h
  exact ⟨UInt32.toNat_inj.mp heq, h⟩

theorem unambiguous_encodeKdf : Unambiguous (fun _ => True) encodeKdf := by
  rintro (_ | ⟨a, b, c⟩) (_ | ⟨a', b', c'⟩) _ _ r s h
  · exact ⟨rfl, (cons.inj h).2⟩
  · exact absurd (cons.inj h).1 (by decide)
  · exact absurd (cons.inj h).1 (by decide)
  · simp only [encodeKdf, cons_append, append_assoc, cons.injEq, true_and] at h
    obtain ⟨ha, h⟩ := unambiguous_u32Le trivial trivial h
    obtain ⟨hb, h⟩ := unambiguous_u32Le trivial trivial h
    obtain ⟨hc, h⟩ := unambiguous_u32Le trivial trivial h
    exact ⟨by rw [ha, hb, hc], h⟩

theorem unambiguous_encodeMember : Unambiguous AndMember.Fits encodeMember := by
  rintro ⟨k, salt, kdf, cid, hmac⟩ ⟨k', salt', kdf', cid', hmac'⟩ ⟨hsalt, hc, hh, hck, hhk⟩
    ⟨hsalt', hc', hh', hck', hhk'⟩ r s h
  simp only [encodeMember, cons_append, append_assoc, cons.injEq] at h
  obtain ⟨hk, h⟩ := h
  obtain rfl := tag_inj hk
  obtain ⟨(hs : salt = salt'), h⟩ := unambiguous_lengthPrefixed 4 hsalt hsalt' h
  obtain ⟨hd, h⟩ := unambiguous_encodeKdf trivial trivial h
  -- the kind says whether there is a credential
  by_cases hk : k = .fido2Hmac
  · obtain ⟨cid, rfl⟩ := Option.isSome_iff_exists.mp (hck.mpr hk)
    obtain ⟨hmac, rfl⟩ := Option.isSome_iff_exists.mp (hhk.mpr hk)
    obtain ⟨cid', rfl⟩ := Option.isSome_iff_exists.mp (hck'.mpr hk)
    obtain ⟨hmac', rfl⟩ := Option.isSome_iff_exists.mp (hhk'.mpr hk)
    simp only [encodeCredential, cons_append, append_assoc, cons.injEq, true_and] at h
    obtain ⟨he, h⟩ := unambiguous_lengthPrefixed 4 (hc cid rfl) (hc' cid' rfl) h
    obtain ⟨hf, h⟩ := unambiguous_lengthPrefixed 4 (hh hmac rfl) (hh' hmac' rfl) h
    exact ⟨by rw [hs, hd, he, hf], h⟩
  · simp only [hk, iff_false, Option.not_isSome_iff_eq_none] at hck hhk hck' hhk'
    rw [hck, hhk, hck', hhk'] at h ⊢
    exact ⟨by rw [hs, hd], (cons.inj h).2⟩

theorem encodeBinding_inj {kind : SlotType} {b b' : SlotBinding} (hb : b.Fits kind)
    (hb' : b'.Fits kind) (h : encodeBinding b = encodeBinding b') : b = b' := by
  cases hb with
  | passphrase | keyfile | threshold =>
    cases hb'
    rfl
  | recovery =>
    cases hb'
    rw [String.toByteArray_inj.mp (ByteArray.ext (Array.toList_inj.mp h))]
  | fido2 hc hh =>
    cases hb' with
    | fido2 hc' hh' =>
      obtain ⟨he, h⟩ := unambiguous_lengthPrefixed 4 hc hc' h
      obtain ⟨hf, -⟩ := unambiguous_lengthPrefixed 4 hh hh' (congrArg (· ++ []) h)
      rw [he, hf]
  | and hm =>
    cases hb' with
    | and hm' =>
      have h := (append_inj h (by simp)).2
      rw [flatMap_inj unambiguous_encodeMember (fun _ => cons_ne_nil _ _) hm hm' h]

/-- Two slots have the same associated data only if all that is public of them is the same, and no
associated data of one use is that of another. -/
theorem aad_injective_separated :
    (∀ {v v' : VaultId} {e e' i i' : UInt32} {k k' : SlotType} {s s' : Bytes}
      {d d' : Option Argon2Params} {b b' : SlotBinding},
      Short s → Short s' → b.Fits k → b'.Fits k' →
        aadSlot v e i k s d b = aadSlot v' e' i' k' s' d' b' →
          (v, e, i, k, s, d, b) = (v', e', i', k', s', d', b')) ∧
      ∀ v v' e e' i k s d b, aadSlot v e i k s d b ≠ aadVk v' e' ∧
        aadSlot v e i k s d b ≠ aadOmk v' ∧ aadVk v e ≠ aadOmk v' := by
  refine ⟨?_, ?_⟩
  · intro v v' e e' i i' k k' s s' d d' b b' hs hs' hb hb' h
    obtain ⟨hv, h⟩ := append_inj (append_cancel_left h) (by rw [v.2, v'.2])
    obtain ⟨he, h⟩ := unambiguous_u32Le trivial trivial (cons.inj h).2
    obtain ⟨hi, h⟩ := unambiguous_u32Le trivial trivial h
    obtain ⟨hk, h⟩ := cons.inj h
    obtain ⟨hsalt, h⟩ := unambiguous_lengthPrefixed 4 hs hs' h
    obtain ⟨hd, h⟩ := unambiguous_encodeKdf trivial trivial h
    have hbytes := (append_inj h (by simp)).2
    obtain rfl := tag_inj hk
    rw [Subtype.ext hv, he, hi, hsalt, hd, encodeBinding_inj hb hb' hbytes]
  · -- the labels differ in the letter at 13
    intro v v' e e' i k s d b
    have hslot : (aadSlot v e i k s d b)[13]? = some 115 := rfl
    have hvk : ∀ v e, (aadVk v e)[13]? = some 118 := fun _ _ => rfl
    have homk : (aadOmk v')[13]? = some 111 := rfl
    refine ⟨fun h => ?_, fun h => ?_, fun h => ?_⟩
    · rw [h, hvk] at hslot
      cases hslot
    · rw [h, homk] at hslot
      cases hslot
    · rw [← h, hvk] at homk
      cases homk

/-- A byte that goes from the salt of a credential to its name. -/
theorem aad_injective_separated_fido2 :
    aadSlot ⟨.replicate 16 0, rfl⟩ 1 0 .fido2Hmac [1] none (.fido2 [2] [3]) ≠
      aadSlot ⟨.replicate 16 0, rfl⟩ 1 0 .fido2Hmac [1] none (.fido2 [2, 3] []) := by
  intro h
  have hshort (b : Bytes) (hb : b.length < 3) : Short b := Nat.lt_trans hb (by decide)
  have hsalt := hshort [1] (by decide)
  have hfits : (SlotBinding.fido2 [2] [3]).Fits .fido2Hmac :=
    .fido2 (hshort _ (by decide)) (hshort _ (by decide))
  have hfits' : (SlotBinding.fido2 [2, 3] []).Fits .fido2Hmac :=
    .fido2 (hshort _ (by decide)) (hshort _ (by decide))
  cases aad_injective_separated.1 hsalt hsalt hfits hfits' h

end AeroFtp.Aerocrypt
