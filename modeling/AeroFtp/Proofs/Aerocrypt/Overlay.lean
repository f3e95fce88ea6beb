/-
What a server can make of an AeroCrypt object.

The ciphers are taken as ideal: under the key of an object a block opens only as it was
sealed for this object, with its index and the number of blocks.  One block that opens
therefore fixes the number of blocks, and with it all of them.  A header without blocks
fixes nothing: with the count zero, or in the older format that has no count, it decrypts
to the empty file.  That is all that goes wrong.
-/
import AeroFtp.Aerocrypt.Overlay

namespace AeroFtp.Aerocrypt

open LittleEndian Framing List

variable {prims : Primitives} {cfg : OverlayConfig} {masterKey dek : Bytes} {nonces : Nat → Bytes}
variable {plaintext ciphertext : Bytes}
variable {q : Bytes}

/-! ### The assumptions -/

/-- Under the key of an object, a block opens only with the data it was sealed with, to the
piece of the plaintext it was sealed from. -/
def OpensOnlySealed (prims : Primitives) (dek : Bytes) (nonces : Nat → Bytes) (plaintext : Bytes) :
    Prop :=
  ∀ block aad message, decryptWithAad prims dek block aad = .ok message →
    ∃ i, (chunks blockSize plaintext)[i]? = some message ∧
      aad = v3BlockAad i (plaintext.length ⌈/⌉ blockSize) ∧
      block = encryptWithAad prims dek (nonces i) message aad

/-- `isize::MAX`: no slice is longer. -/
def isizeMax : Nat := 2 ^ 63 - 1

/-! ### Associated data -/

theorem toLeBytes_inj {a b : Nat} (ha : a < 2 ^ 64) (hb : b < 2 ^ 64)
    (h : toLeBytes 8 a = toLeBytes 8 b) : a = b := by
  rw [← fromLeBytes_toLeBytes_of_lt (k := 8) ha, h, fromLeBytes_toLeBytes_of_lt (k := 8) hb]

variable {i : Nat}

theorem v3BlockAad_inj {j m n : Nat} (hi : i < 2 ^ 64) (hj : j < 2 ^ 64) (hm : m < 2 ^ 64)
    (hn : n < 2 ^ 64) (h : v3BlockAad i m = v3BlockAad j n) : i = j ∧ m = n := by
  unfold v3BlockAad at h
  rw [append_assoc, append_assoc] at h
  obtain ⟨hidx, ht⟩ := append_inj (append_cancel_left h) (by simp)
  exact ⟨toLeBytes_inj hi hj hidx, toLeBytes_inj hm hn ht⟩

theorem v2BlockAad_ne (i j n : Nat) : v2BlockAad i ≠ v3BlockAad j n := by
  intro h
  unfold v2BlockAad v3BlockAad at h
  rw [append_assoc] at h
  exact absurd (append_inj_left h (by decide)) (by decide)

/-! ### The blocks -/

variable {decrypt : Nat → Bytes → Except String Bytes} {blocks : List Bytes}

theorem decryptBlocks_ok (pieces : List Bytes) (bound : Nat)
    (hp : ∀ j < bound, ∀ block message, decrypt j block = .ok message → pieces[j]? = some message)
    (hb : i + blocks.length ≤ bound) (h : decryptBlocks decrypt i blocks = .ok q) :
    q = ((pieces.drop i).take blocks.length).flatten := by
  induction blocks generalizing i q with
  | nil =>
    cases h
    simp
  | cons block rest ih =>
    rw [length_cons] at hb
    simp only [decryptBlocks, bind, Except.bind] at h
    split at h
    · cases h
    rename_i message hmessage
    split at h
    · cases h
    rename_i more hmore
    cases h
    have hh := hp i (by omega) block message hmessage
    obtain ⟨hlt, hget⟩ := List.getElem?_eq_some_iff.mp hh
    rw [ih (by omega) hmore, length_cons, drop_eq_getElem_cons hlt, take_succ_cons, hget,
      flatten_cons]

theorem decryptBlocks_head (hne : blocks ≠ []) (h : decryptBlocks decrypt i blocks = .ok q) :
    ∃ block message, decrypt i block = .ok message := by
  cases blocks with
  | nil => exact absurd rfl hne
  | cons block rest =>
    simp only [decryptBlocks, bind, Except.bind] at h
    split at h
    · cases h
    rename_i message hm
    exact ⟨block, message, hm⟩

/-! ### The header -/

/-- The wrapped key of an object, where its format has one. -/
def wrappedKeyField (ciphertext : Bytes) : Option Bytes :=
  let version := ciphertext.getD 4 0
  if version = versionV3 ∧ v3HeaderLen ≤ ciphertext.length then
    some ((ciphertext.drop 13).take wrappedKeySize)
  else if version = versionV2 ∧ 4 + 1 + wrappedKeySize ≤ ciphertext.length then
    some ((ciphertext.drop 5).take wrappedKeySize)
  else none

/-- A header with nothing behind it, and with no count of blocks that are missing. -/
def isBareHeader (ciphertext : Bytes) : Bool :=
  let version := ciphertext.getD 4 0
  ciphertext.take 4 = magic &&
    ((version = versionV3 && ciphertext.length = v3HeaderLen &&
        fromLeBytes ((ciphertext.drop 5).take 8) = 0) ||
      (version = versionV2 && ciphertext.length = 4 + 1 + wrappedKeySize))

section

variable (h : encryptData prims cfg masterKey dek nonces plaintext = .ok ciphertext)
include h

theorem encryptData_ok : ∃ wrapped blocks, prims.wrapKey masterKey dek = .ok wrapped ∧
      ciphertext = magic ++ [versionV3] ++ toLeBytes 8 (plaintext.length ⌈/⌉ blockSize) ++ wrapped
        ++ blocks := by
  have hv3 : encryptDataV3 prims masterKey dek nonces plaintext = .ok ciphertext := by
    cases cfg <;> simp only [encryptData, reduceCtorEq] at h <;> exact h
  simp only [encryptDataV3, bind, Except.bind] at hv3
  split at hv3
  · cases hv3
  rename_i wrapped hw
  cases hv3
  exact ⟨wrapped, _, hw, rfl⟩

theorem wrappedKeyField_encryptData :
    ∃ wrapped, prims.wrapKey masterKey dek = .ok wrapped ∧ wrappedKeyField ciphertext
      = some wrapped := by
  obtain ⟨wrapped, blocks, hw, rfl⟩ := encryptData_ok h
  refine ⟨wrapped, hw, ?_⟩
  have hlen := prims.wrapKey_length hw
  have hm : magic = [65, 69, 67, 82] := by decide
  have hc := length_toLeBytes 8 (plaintext.length ⌈/⌉ blockSize)
  generalize toLeBytes 8 (plaintext.length ⌈/⌉ blockSize) = count at hc
  have hd : (magic ++ [versionV3] ++ count ++ wrapped ++ blocks).drop 13 = wrapped ++ blocks := by
    rw [append_assoc, drop_left' (by simp [hm, hc])]
  have hlong : v3HeaderLen ≤ (magic ++ [versionV3] ++ count ++ wrapped ++ blocks).length := by
    simp only [length_append, hm, length_cons, v3HeaderLen]
    omega
  have hv : (magic ++ [versionV3] ++ count ++ wrapped ++ blocks).getD 4 0 = versionV3 := by
    simp [hm]
  unfold wrappedKeyField
  rw [if_pos ⟨hv, hlong⟩, hd, take_left' hlen]

end

/-! ### Decrypting what the server returns -/

theorem decryptDataV2_ok
    (hkey : prims.unwrapKey masterKey ((ciphertext.drop 5).take wrappedKeySize) = .ok dek) :
    decryptDataV2 prims masterKey ciphertext = .ok q ↔ 4 + 1 + wrappedKeySize ≤ ciphertext.length ∧
        decryptBlocks (fun i block => decryptWithAad prims dek block (v2BlockAad i)) 0
          (chunks fullBlockCipher (ciphertext.drop (4 + 1 + wrappedKeySize))) = .ok q := by
  unfold decryptDataV2
  by_cases hs : ciphertext.length < 4 + 1 + wrappedKeySize
  · rw [if_pos hs]
    exact iff_of_false (by simp [bind, Except.bind]) (by omega)
  · rw [if_neg hs, hkey]
    exact (and_iff_right (Nat.le_of_not_lt hs)).symm

theorem decryptDataV3_ok
    (hkey : prims.unwrapKey masterKey ((ciphertext.drop 13).take wrappedKeySize) = .ok dek) :
    decryptDataV3 prims masterKey ciphertext = .ok q ↔ v3HeaderLen ≤ ciphertext.length ∧
        decryptBlocks (fun i block => decryptWithAad prims dek block
          (v3BlockAad i (fromLeBytes ((ciphertext.drop 5).take 8)))) 0
          (chunks fullBlockCipher (ciphertext.drop v3HeaderLen)) = .ok q ∧
        (chunks fullBlockCipher (ciphertext.drop v3HeaderLen)).length =
          fromLeBytes ((ciphertext.drop 5).take 8) := by
  unfold decryptDataV3
  by_cases hs : ciphertext.length < v3HeaderLen
  · rw [if_pos hs]
    exact iff_of_false (by simp [bind, Except.bind]) (by omega)
  · rw [if_neg hs, hkey, and_iff_right (Nat.le_of_not_lt hs)]
    simp only [bind, Except.bind, pure, Except.pure]
    cases decryptBlocks (fun i block => decryptWithAad prims dek block
        (v3BlockAad i (fromLeBytes ((ciphertext.drop 5).take 8)))) 0
        (chunks fullBlockCipher (ciphertext.drop v3HeaderLen)) with
    | error e => simp
    | ok opened =>
      by_cases hc : (chunks fullBlockCipher (ciphertext.drop v3HeaderLen)).length =
          fromLeBytes ((ciphertext.drop 5).take 8)
      · simp [hc]
      · simp [hc]

theorem decryptWithAad_piece (hideal : OpensOnlySealed prims dek nonces plaintext)
    (hplain : plaintext.length ≤ isizeMax) {total : Nat} (ht : total < 2 ^ 64) (hi : i < 2 ^ 64)
    {block message : Bytes}
    (h : decryptWithAad prims dek block (v3BlockAad i total) = .ok message) :
    (chunks blockSize plaintext)[i]? = some message ∧
      total = (chunks blockSize plaintext).length := by
  obtain ⟨j, hpiece, haad, -⟩ := hideal block _ message h
  have hc : (chunks blockSize plaintext).length = plaintext.length ⌈/⌉ blockSize :=
    length_chunks (by decide) plaintext
  have hs : plaintext.length ⌈/⌉ blockSize < 2 ^ 64 := by
    rw [Nat.ceilDiv_eq_add_pred_div]
    unfold isizeMax at hplain
    unfold blockSize
    omega
  obtain ⟨hlt, -⟩ := List.getElem?_eq_some_iff.mp hpiece
  obtain ⟨rfl, hn⟩ := v3BlockAad_inj hi (by omega) ht hs haad
  exact ⟨hpiece, hn.trans hc.symm⟩

theorem chunks_eq_nil {n : Nat} (hn : 0 < n) {l : Bytes} : chunks n l = [] ↔ l = [] := by
  constructor
  · intro h
    rw [← flatten_chunks hn l, h]
    rfl
  · rintro rfl
    rfl

theorem decryptDataV3_eq (hi : OpensOnlySealed prims dek nonces plaintext)
    (hp : plaintext.length ≤ isizeMax) (hcipher : ciphertext.length ≤ isizeMax)
    (hkey : prims.unwrapKey masterKey ((ciphertext.drop 13).take wrappedKeySize) = .ok dek)
    (h : decryptDataV3 prims masterKey ciphertext = .ok q) :
    q = plaintext ∨ ciphertext.length = v3HeaderLen ∧
      fromLeBytes ((ciphertext.drop 5).take 8) = 0 := by
  obtain ⟨hl, hb, hcount⟩ := (decryptDataV3_ok hkey).mp h
  by_cases hd : ciphertext.drop v3HeaderLen = []
  · refine .inr ⟨?_, ?_⟩
    · exact Nat.le_antisymm (drop_eq_nil_iff.mp hd) hl
    · rw [← hcount, hd]
      rfl
  · refine .inl ?_
    have hs : (chunks fullBlockCipher (ciphertext.drop v3HeaderLen)).length < 2 ^ 64 := by
      rw [length_chunks (by decide), Nat.ceilDiv_eq_add_pred_div, length_drop]
      unfold isizeMax at hcipher
      unfold fullBlockCipher nonceSize blockSize gcmTag
      omega
    -- The first block that opens says how many pieces there are.
    obtain ⟨block, message, hf⟩ := decryptBlocks_head (mt (chunks_eq_nil (by decide)).mp hd) hb
    obtain ⟨-, ht⟩ := decryptWithAad_piece hi hp (hcount ▸ hs) (by decide) hf
    have hopened := decryptBlocks_ok (chunks blockSize plaintext) (2 ^ 64)
      (fun j hj block message hopens =>
        (decryptWithAad_piece hi hp (hcount ▸ hs) hj hopens).1) (by omega) hb
    rw [hopened, hcount, ht, drop_zero, take_length, flatten_chunks (by decide)]

theorem decryptDataV2_eq (hi : OpensOnlySealed prims dek nonces plaintext)
    (hkey : prims.unwrapKey masterKey ((ciphertext.drop 5).take wrappedKeySize) = .ok dek)
    (h : decryptDataV2 prims masterKey ciphertext = .ok q) :
    ciphertext.length = 4 + 1 + wrappedKeySize := by
  obtain ⟨hl, hb⟩ := (decryptDataV2_ok hkey).mp h
  by_cases hd : ciphertext.drop (4 + 1 + wrappedKeySize) = []
  · exact Nat.le_antisymm (drop_eq_nil_iff.mp hd) hl
  · obtain ⟨block, message, hf⟩ := decryptBlocks_head (mt (chunks_eq_nil (by decide)).mp hd) hb
    obtain ⟨j, -, haad, -⟩ := hi block _ message hf
    exact absurd haad (v2BlockAad_ne 0 j _)

variable {wrapped : Bytes}

theorem wrappedKeyField_some (h : wrappedKeyField ciphertext = some wrapped) :
    (ciphertext.getD 4 0 = versionV3 ∧ v3HeaderLen ≤ ciphertext.length ∧
      wrapped = (ciphertext.drop 13).take wrappedKeySize) ∨
    (ciphertext.getD 4 0 = versionV2 ∧ 4 + 1 + wrappedKeySize ≤ ciphertext.length ∧
      wrapped = (ciphertext.drop 5).take wrappedKeySize) := by
  unfold wrappedKeyField at h
  dsimp only at h
  split at h
  · rename_i hv3
    exact .inl ⟨hv3.1, hv3.2, (Option.some.inj h).symm⟩
  · split at h
    · rename_i hv2
      exact .inr ⟨hv2.1, hv2.2, (Option.some.inj h).symm⟩
    · cases h

theorem decryptData_of_magic (hl : 5 ≤ ciphertext.length) (hm : ciphertext.take 4 = magic) :
    (ciphertext.getD 4 0 = versionV3 →
      decryptData prims masterKey ciphertext = decryptDataV3 prims masterKey ciphertext) ∧
    (ciphertext.getD 4 0 = versionV2 →
      decryptData prims masterKey ciphertext = decryptDataV2 prims masterKey ciphertext) := by
  unfold decryptData
  rw [if_neg (by omega), if_neg (by simp [hm])]
  refine ⟨?_, ?_⟩
  · intro hv
    simp only [hv]
    rfl
  · intro hv
    simp only [hv]
    rfl

theorem magic_of_decryptData (h : decryptData prims masterKey ciphertext = .ok q) :
    ciphertext.take 4 = magic := by
  by_contra hm
  unfold decryptData at h
  split at h
  · cases h
  · cases h

theorem isBareHeader_iff : isBareHeader ciphertext = true ↔ ciphertext.take 4 = magic ∧
    ((ciphertext.getD 4 0 = versionV3 ∧ ciphertext.length = v3HeaderLen ∧
        fromLeBytes ((ciphertext.drop 5).take 8) = 0) ∨
      (ciphertext.getD 4 0 = versionV2 ∧ ciphertext.length = 4 + 1 + wrappedKeySize)) := by
  simp [isBareHeader, and_assoc]

theorem decryptData_bare (hf : wrappedKeyField ciphertext = some wrapped)
    (hkey : prims.unwrapKey masterKey wrapped = .ok dek) (hb : isBareHeader ciphertext = true) :
    decryptData prims masterKey ciphertext = .ok [] := by
  obtain ⟨hm, hb⟩ := isBareHeader_iff.mp hb
  have hd : versionV3 ≠ versionV2 := by decide
  rcases hb with ⟨hv, hl, hc⟩ | ⟨hv, hl⟩
  · rcases wrappedKeyField_some hf with ⟨-, -, rfl⟩ | ⟨hv', -⟩
    · rw [(decryptData_of_magic (by rw [hl]; decide) hm).1 hv, decryptDataV3_ok hkey,
        drop_eq_nil_of_le (Nat.le_of_eq hl), hc]
      exact ⟨Nat.le_of_eq hl.symm, rfl, rfl⟩
    · exact absurd (hv.symm.trans hv') hd
  · rcases wrappedKeyField_some hf with ⟨hv', -⟩ | ⟨-, -, rfl⟩
    · exact absurd (hv'.symm.trans hv) hd
    · rw [(decryptData_of_magic (by rw [hl]; decide) hm).2 hv, decryptDataV2_ok hkey,
        drop_eq_nil_of_le (Nat.le_of_eq hl)]
      exact ⟨Nat.le_of_eq hl.symm, rfl⟩

theorem decryptData_eq (hi : OpensOnlySealed prims dek nonces plaintext)
    (hp : plaintext.length ≤ isizeMax) (hcipher : ciphertext.length ≤ isizeMax)
    (hf : wrappedKeyField ciphertext = some wrapped)
    (hkey : prims.unwrapKey masterKey wrapped = .ok dek)
    (h : decryptData prims masterKey ciphertext = .ok q) :
    q = plaintext ∨ isBareHeader ciphertext = true := by
  have hm := magic_of_decryptData h
  rcases wrappedKeyField_some hf with ⟨hv, hlong, rfl⟩ | ⟨hv, hlong, rfl⟩
  · have hlong' : 5 ≤ ciphertext.length := Nat.le_trans (by decide) hlong
    rw [(decryptData_of_magic hlong' hm).1 hv] at h
    rcases decryptDataV3_eq hi hp hcipher hkey h with heq | ⟨hlen, hcount⟩
    · exact .inl heq
    · exact .inr (isBareHeader_iff.mpr ⟨hm, .inl ⟨hv, hlen, hcount⟩⟩)
  · have hlong' : 5 ≤ ciphertext.length := Nat.le_trans (by decide) hlong
    rw [(decryptData_of_magic hlong' hm).2 hv] at h
    exact .inr (isBareHeader_iff.mpr ⟨hm, .inr ⟨hv, decryptDataV2_eq hi hkey h⟩⟩)

/-- **A server can only shorten an object to the empty file.**  For ideal ciphers, every
key, plaintext and object made from it, and every byte string with the wrapped key of that
object: what it decrypts to is the plaintext, if and only if the plaintext is empty or the
string is not a bare header. -/
theorem decryptData_unaltered_iff (prims : Primitives) (cfg : OverlayConfig) (masterKey dek : Bytes)
    (nonces : Nat → Bytes) (plaintext ciphertext altered : Bytes)
    (hplain : plaintext.length ≤ isizeMax) (haltered : altered.length ≤ isizeMax)
    (hideal : OpensOnlySealed prims dek nonces plaintext)
    (hunwrap : ∀ wrapped, prims.wrapKey masterKey dek = .ok wrapped →
      prims.unwrapKey masterKey wrapped = .ok dek)
    (hencrypt : encryptData prims cfg masterKey dek nonces plaintext = .ok ciphertext)
    (hfield : wrappedKeyField altered = wrappedKeyField ciphertext) :
    (∀ q, decryptData prims masterKey altered = .ok q → q = plaintext) ↔
      plaintext = [] ∨ isBareHeader altered = false := by
  obtain ⟨wrapped, hwrapped, hwrappedField⟩ := wrappedKeyField_encryptData hencrypt
  have hkey := hunwrap wrapped hwrapped
  have hfield' := hfield.trans hwrappedField
  constructor
  · intro h
    by_cases hbare : isBareHeader altered = true
    · exact .inl (h [] (decryptData_bare hfield' hkey hbare)).symm
    · exact .inr (Bool.eq_false_iff.mpr hbare)
  · intro h q hq
    rcases decryptData_eq hideal hplain haltered hfield' hkey hq with heq | hbare
    · exact heq
    · rcases h with hempty | hnot
      · rw [decryptData_bare hfield' hkey hbare] at hq
        cases hq
        exact hempty.symm
      · rw [hbare] at hnot
        cases hnot

/-! ### An object of three bytes -/

def ownerKey : Bytes := List.replicate 32 1

def objectKey : Bytes := List.replicate 32 2

/-- Ciphers under which the one block of the object `[1, 2, 3]` opens, and nothing else. -/
def oneBlock : Primitives where
  sealGcmSiv _ _ message _ := message ++ List.replicate gcmTag 0
  openGcmSiv _ nonce sealed aad :=
    if nonce = List.replicate nonceSize 0 ∧ sealed = [1, 2, 3] ++ List.replicate gcmTag 0 ∧
        aad = v3BlockAad 0 1 then some [1, 2, 3]
    else none
  wrapKey _ _ := .ok (List.replicate wrappedKeySize 7)
  unwrapKey _ _ := .ok objectKey
  deriveFileKeyV1 _ _ := .ok objectKey
  openGcm _ _ _ := none
  wrapKey_length h := by
    cases h
    rfl

def zeroNonces (_ : Nat) : Bytes := List.replicate nonceSize 0

theorem oneBlock_ideal : OpensOnlySealed oneBlock objectKey zeroNonces [1, 2, 3] := by
  intro block aad message h
  unfold decryptWithAad at h
  split at h
  · cases h
  split at h
  · rename_i opened ho
    cases h
    simp only [oneBlock, Option.ite_none_right_eq_some, Option.some.injEq] at ho
    obtain ⟨⟨hn, hs, haad⟩, rfl⟩ := ho
    refine ⟨0, rfl, haad, ?_⟩
    rw [← take_append_drop nonceSize block, hn, hs]
    rfl
  · cases h

/-- The object: its header and its block. -/
def threeBytes : Bytes :=
  magic ++ [versionV3] ++ toLeBytes 8 1 ++ List.replicate wrappedKeySize 7 ++
    (List.replicate nonceSize 0 ++ ([1, 2, 3] ++ List.replicate gcmTag 0))

/-- The same header with the count zero, and no block. -/
def emptied : Bytes := magic ++ [versionV3] ++ toLeBytes 8 0 ++ List.replicate wrappedKeySize 7

theorem decryptData_unaltered_threeBytes :
    encryptData oneBlock .v3 ownerKey objectKey zeroNonces [1, 2, 3] = .ok threeBytes ∧
      decryptData oneBlock ownerKey threeBytes = .ok [1, 2, 3] ∧
      ∀ q, decryptData oneBlock ownerKey threeBytes = .ok q → q = [1, 2, 3] :=
  ⟨rfl, by decide +kernel, (decryptData_unaltered_iff oneBlock .v3 ownerKey objectKey zeroNonces
    [1, 2, 3] threeBytes threeBytes (by decide) (by decide) oneBlock_ideal (fun _ _ => rfl) rfl
    rfl).mpr (.inr (by decide))⟩

theorem emptied_decrypts :
    OpensOnlySealed oneBlock objectKey zeroNonces [1, 2, 3] ∧
      encryptData oneBlock .v3 ownerKey objectKey zeroNonces [1, 2, 3] = .ok threeBytes ∧
      wrappedKeyField emptied = wrappedKeyField threeBytes ∧
      decryptData oneBlock ownerKey emptied = .ok [] :=
  ⟨oneBlock_ideal, rfl, by decide, by decide +kernel⟩

end AeroFtp.Aerocrypt
