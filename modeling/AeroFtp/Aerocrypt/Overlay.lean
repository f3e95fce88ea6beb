/-
The objects of an AeroCrypt overlay, `aerocrypt/overlay.rs` and `aerocrypt/mod.rs`.

An object is a header and blocks.  The key of its blocks is random and stands wrapped in the
header, with the number of blocks; each block is sealed with its index and that number.
Objects of the two older formats are still read.

The ciphers are parameters, and so is what is random: the key of an object and the nonces
of its blocks.
-/
import AeroFtp.Lib.Framing
import AeroFtp.Lib.LittleEndian

namespace AeroFtp.Aerocrypt

open LittleEndian Framing

abbrev Bytes := List UInt8

/-- The bytes of a text of ASCII characters. -/
def ascii (text : String) : Bytes := text.toList.map fun c => UInt8.ofNat c.toNat

def nonceSize : Nat := 12

def wrappedKeySize : Nat := 40

def gcmTag : Nat := 16

def blockSize : Nat := 64 * 1024

/-- A full block: its nonce, its bytes and its tag. -/
def fullBlockCipher : Nat := nonceSize + blockSize + gcmTag

def magic : Bytes := ascii "AECR"

def versionV1 : UInt8 := 1

def versionV2 : UInt8 := 2

def versionV3 : UInt8 := 3

def versionV4 : UInt8 := 4

def v3HeaderLen : Nat := 4 + 1 + 8 + wrappedKeySize

/-! ### Primitives -/

/-- The ciphers: AES-256-GCM-SIV, AES-256-KW, and for the first format HKDF and AES-256-GCM. -/
structure Primitives where
  /-- Key, nonce, message and associated data. -/
  sealGcmSiv : Bytes → Bytes → Bytes → Bytes → Bytes
  openGcmSiv : Bytes → Bytes → Bytes → Bytes → Option Bytes
  wrapKey : Bytes → Bytes → Except String Bytes
  unwrapKey : Bytes → Bytes → Except String Bytes
  deriveFileKeyV1 : Bytes → Bytes → Except String Bytes
  openGcm : Bytes → Bytes → Bytes → Option Bytes
  wrapKey_length : ∀ {kek key wrapped : Bytes}, wrapKey kek key = .ok wrapped →
    wrapped.length = wrappedKeySize

variable (prims : Primitives)

def encryptWithAad (key nonce plaintext aad : Bytes) : Bytes :=
  nonce ++ prims.sealGcmSiv key nonce plaintext aad

def decryptWithAad (key encrypted aad : Bytes) : Except String Bytes :=
  if encrypted.length < nonceSize + 16 then .error "AES-GCM-SIV payload is too short"
  else
    match prims.openGcmSiv key (encrypted.take nonceSize) (encrypted.drop nonceSize) aad with
    | some plaintext => .ok plaintext
    | none => .error "AES-GCM-SIV decrypt failed"

/-- The loop over the blocks of an object: what they decrypt to, one after the other. -/
def decryptBlocks (decrypt : Nat → Bytes → Except String Bytes) :
    Nat → List Bytes → Except String Bytes
  | _, [] => .ok []
  | i, block :: rest => do
      let plaintext ← decrypt i block
      let more ← decryptBlocks decrypt (i + 1) rest
      return plaintext ++ more

/-! ### The older formats -/

/-- The nonce of a block: the index is added to the first four bytes. -/
def v1BlockNonce (masterNonce : Bytes) (i : Nat) : Bytes :=
  (masterNonce.take 4).zipWith (· ^^^ ·) (toLeBytes 4 i) ++ masterNonce.drop 4

variable (masterKey ciphertext : Bytes)

def decryptDataV1 : Except String Bytes := do
  let header := 4 + 1 + nonceSize
  if ciphertext.length < header then throw "AeroCrypt v1 data too short"
  let masterNonce := (ciphertext.drop 5).take nonceSize
  let fileKey ← prims.deriveFileKeyV1 masterKey masterNonce
  decryptBlocks
    (fun i block =>
      match prims.openGcm fileKey (v1BlockNonce masterNonce i) block with
      | some plaintext => .ok plaintext
      | none => .error s!"AeroCrypt v1 decrypt failed at block {i}")
    0 (chunks (blockSize + gcmTag) (ciphertext.drop header))

def v2BlockAad (blockIndex : Nat) : Bytes :=
  ascii "AeroCrypt overlay v2 block" ++ toLeBytes 8 blockIndex

def decryptDataV2 : Except String Bytes := do
  let header := 4 + 1 + wrappedKeySize
  if ciphertext.length < header then throw "AeroCrypt v2 data too short"
  let dek ← prims.unwrapKey masterKey ((ciphertext.drop 5).take wrappedKeySize)
  decryptBlocks (fun i block => decryptWithAad prims dek block (v2BlockAad i)) 0
    (chunks fullBlockCipher (ciphertext.drop header))

/-! ### The current format -/

def v3BlockAad (blockIndex totalBlocks : Nat) : Bytes :=
  ascii "AeroCrypt overlay v3 block" ++ toLeBytes 8 blockIndex ++ toLeBytes 8 totalBlocks

/-- `dek` and `nonces` are the random key and the random nonces of the blocks. -/
def encryptDataV3 (masterKey dek : Bytes) (nonces : Nat → Bytes) (plaintext : Bytes) :
    Except String Bytes := do
  let wrapped ← prims.wrapKey masterKey dek
  let totalBlocks := plaintext.length ⌈/⌉ blockSize
  let blocks := (chunks blockSize plaintext).mapIdx fun i chunk =>
    encryptWithAad prims dek (nonces i) chunk (v3BlockAad i totalBlocks)
  return magic ++ [versionV3] ++ toLeBytes 8 totalBlocks ++ wrapped ++ blocks.flatten

def decryptDataV3 : Except String Bytes := do
  if ciphertext.length < v3HeaderLen then throw "AeroCrypt v3 data too short"
  let totalBlocks := fromLeBytes ((ciphertext.drop 5).take 8)
  let dek ← prims.unwrapKey masterKey ((ciphertext.drop 13).take wrappedKeySize)
  let blocks := chunks fullBlockCipher (ciphertext.drop v3HeaderLen)
  let plaintext ←
    decryptBlocks (fun i block => decryptWithAad prims dek block
      (v3BlockAad i totalBlocks)) 0 blocks
  -- The number of blocks that are there must be the authenticated one.
  let found := blocks.length
  if found ≠ totalBlocks then
    throw s!"AeroCrypt v3 truncated: expected {totalBlocks} blocks, found {found}"
  return plaintext

/-! ### By version -/

/-- The version of an overlay. -/
inductive OverlayConfig where
  | v1
  | v2
  | v3
  | v4
  deriving DecidableEq, Repr

def OverlayConfig.version : OverlayConfig → UInt8
  | .v1 => versionV1
  | .v2 => versionV2
  | .v3 => versionV3
  | .v4 => versionV4

def encryptData (cfg : OverlayConfig) (masterKey dek : Bytes) (nonces : Nat → Bytes)
    (plaintext : Bytes) : Except String Bytes :=
  match cfg with
  | .v3 | .v4 => encryptDataV3 prims masterKey dek nonces plaintext
  | .v1 | .v2 =>
    let version := cfg.version
    .error s!"legacy AeroCrypt v{version} overlay is read-only; create a new overlay to add files"

def decryptData : Except String Bytes :=
  if ciphertext.length < 5 then .error "AeroCrypt data too short"
  else if ciphertext.take 4 ≠ magic then .error "Not an AeroCrypt encrypted file"
  else
    let version := ciphertext.getD 4 0
    if version = versionV1 then decryptDataV1 prims masterKey ciphertext
    else if version = versionV2 then decryptDataV2 prims masterKey ciphertext
    else if version = versionV3 then decryptDataV3 prims masterKey ciphertext
    else .error s!"Unsupported AeroCrypt version {version}"

end AeroFtp.Aerocrypt
