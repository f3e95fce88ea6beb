/-
What is encrypted into the vault, a name or a file, decrypts to itself.

The header and every chunk are sealed and opened with the same key, nonce and associated data,
and the chunks, each longer by its nonce and its tag, are found again in the body.
-/
import AeroFtp.Cryptomator.Vault

namespace AeroFtp.Cryptomator

open Framing Texts List

/-- What is assumed of the primitives. -/
structure Primitives.Sound (p : Primitives) : Prop where
  openSiv_sealSiv : ∀ key aad message, p.openSiv key aad (p.sealSiv key aad message) = some message
  base64url_decode_encode : ∀ data, p.base64urlDecode (p.base64urlEncode data) = some data
  hash_injective : ∀ a b, p.hashDirId a = p.hashDirId b → a = b
  open_seal : ∀ key nonce aad message,
    p.openGcm key nonce aad (p.sealGcm key nonce aad message) = some message
  seal_length : ∀ key nonce aad message,
    (p.sealGcm key nonce aad message).length = message.length + 16

structure Draws.Sized (draws : Draws) : Prop where
  contentKey : ∀ n, (draws.contentKey n).length = 32
  headerNonce : ∀ n, (draws.headerNonce n).length = 12
  chunkNonce : ∀ n i, (draws.chunkNonce n i).length = 12

variable {p : Primitives}

theorem Primitives.Sound.decrypt_encrypt (hp : p.Sound) (dirId name : Text) :
    p.decryptFilename dirId (p.encryptFilename dirId name) = some name := by
  simp only [decryptFilename, encryptFilename, stripSuffix_append, aesSivEncrypt, aesSivDecrypt,
    Option.bind_eq_bind, Option.bind_some, hp.base64url_decode_encode, hp.openSiv_sealSiv,
    fromUtf8_asBytes]

theorem cut_cleartextChunks_sealed {f : Nat → Bytes → Bytes}
    (hf : ∀ i piece, (f i piece).length = piece.length + 28) (plaintext : Bytes) :
    Cut (32768 + 28) ((cleartextChunks plaintext).mapIdx f) := by
  unfold cleartextChunks
  by_cases h : plaintext.isEmpty = true
  · rw [if_pos h]
    refine ⟨?_, ?_⟩ <;> · rw [hf]; decide
  · rw [if_neg h]
    exact (cut_chunks (by decide) plaintext).mapIdx hf

theorem flatten_cleartextChunks (plaintext : Bytes) :
    (cleartextChunks plaintext).flatten = plaintext := by
  unfold cleartextChunks
  by_cases h : plaintext.isEmpty = true
  · rw [isEmpty_iff.mp h]
    rfl
  · rw [if_neg h, flatten_chunks (by decide)]

/-- A chunk as it is written. -/
def sealedChunk (p : Primitives) (contentKey headerNonce : Bytes) (chunkNonce : Nat → Bytes)
    (i : Nat) (chunk : Bytes) : Bytes :=
  chunkNonce i ++ p.sealGcm contentKey (chunkNonce i) (chunkAad i headerNonce) chunk

variable {chunkNonce : Nat → Bytes}

theorem length_sealedChunk (hp : p.Sound) (contentKey headerNonce : Bytes)
    (hn : ∀ i, (chunkNonce i).length = 12) (i : Nat) (chunk : Bytes) :
    (sealedChunk p contentKey headerNonce chunkNonce i chunk).length = chunk.length + 28 := by
  rw [sealedChunk, length_append, hn, hp.seal_length]
  omega

theorem decryptChunks_sealed (hp : p.Sound) (contentKey headerNonce : Bytes)
    (hn : ∀ i, (chunkNonce i).length = 12) (pieces : List Bytes) (n : Nat) :
    decryptChunks p contentKey headerNonce n
        (pieces.mapIdx fun i => sealedChunk p contentKey headerNonce chunkNonce (n + i))
      = some pieces.flatten := by
  induction pieces generalizing n with
  | nil => rfl
  | cons piece pieces ih =>
    have hlen := length_sealedChunk hp contentKey headerNonce hn n piece
    have hs : (fun i => sealedChunk p contentKey headerNonce chunkNonce (n + (i + 1)))
        = fun i => sealedChunk p contentKey headerNonce chunkNonce (n + 1 + i) := by
      funext i
      rw [Nat.add_right_comm, Nat.add_assoc]
    rw [mapIdx_cons, hs, decryptChunks, Nat.add_zero, if_neg (by omega), ih (n + 1), sealedChunk,
      take_left' (hn n), drop_left' (hn n), hp.open_seal]
    rfl

/-- **What is encrypted decrypts to itself.** -/
theorem decryptData_encryptData (hp : p.Sound) {contentKey headerNonce : Bytes}
    (hkey : contentKey.length = 32) (hheader : headerNonce.length = 12)
    (hn : ∀ i, (chunkNonce i).length = 12) (plaintext : Bytes) :
    decryptData p (encryptData p contentKey headerNonce chunkNonce plaintext) = some plaintext := by
  have hpay : (replicate 8 (0 : UInt8) ++ contentKey).length = 40 := by simp [hkey]
  have hsealed : (p.sealGcm p.encKey headerNonce [] (replicate 8 0 ++ contentKey)).length = 56 := by
    rw [hp.seal_length, hpay]
  have hblocks := decryptChunks_sealed hp contentKey headerNonce hn (cleartextChunks plaintext) 0
  simp only [Nat.zero_add] at hblocks
  have hcut := cut_cleartextChunks_sealed
    (length_sealedChunk hp contentKey headerNonce hn) plaintext
  have hheaderLen :
      (headerNonce ++ p.sealGcm p.encKey headerNonce [] (replicate 8 0 ++ contentKey)).length
      = 68 := by
    rw [length_append, hheader, hsealed]
  have hl : ¬ (encryptData p contentKey headerNonce chunkNonce plaintext).length < 68 := by
    rw [encryptData, length_append]
    omega
  have ht : (encryptData p contentKey headerNonce chunkNonce plaintext).take 12 = headerNonce := by
    rw [encryptData, append_assoc, take_left' hheader]
  have hsealedHeader : ((encryptData p contentKey headerNonce chunkNonce plaintext).drop 12).take 56
      = p.sealGcm p.encKey headerNonce [] (replicate 8 0 ++ contentKey) := by
    rw [encryptData, append_assoc, drop_left' hheader, take_left' hsealed]
  have hbody : (encryptData p contentKey headerNonce chunkNonce plaintext).drop 68
      = ((cleartextChunks plaintext).mapIdx
        (sealedChunk p contentKey headerNonce chunkNonce)).flatten := by
    rw [encryptData, drop_left' hheaderLen]
    rfl
  rw [decryptData, if_neg hl, ht, hsealedHeader, hp.open_seal, Option.bind_some, if_neg (by omega),
    drop_left' (by simp), take_of_length_le (Nat.le_of_eq hkey), hbody,
    chunks_flatten_of_cut (by decide) hcut, hblocks, flatten_cleartextChunks]

end AeroFtp.Cryptomator
