/-
The names of an rclone crypt remote, `rclone_crypt.rs`.

A name is hidden in one of three ways.  In `standard` mode its bytes are padded, enciphered as
one wide block and written in base 32.  In `obfuscate` mode its letters and digits are rotated
by an amount that stands in front of it.  In `off` mode a file only gets a suffix.

AES and the base 32 alphabet are parameters: a permutation for each key, and a codec.
-/
import AeroFtp.Lib.Eme
import AeroFtp.Lib.Framing
import AeroFtp.Lib.LittleEndian
import AeroFtp.Lib.Texts
import AeroFtp.Sync.Paths

namespace AeroFtp.RcloneCrypt

open Sync Framing LittleEndian Texts

abbrev Bytes := List UInt8

abbrev aesBlock : Nat := 16

/-- `[u8; AES_BLOCK]`. -/
abbrev Block := Vector UInt8 aesBlock

abbrev NameKey := Vector UInt8 32

/-- Base 32 with the extended hex alphabet: bytes as text, and back. -/
structure Base32Hex where
  encode : Bytes → Path
  /-- The error is the text of the crate's. -/
  decode : Path → Except String Bytes
  decode_encode : ∀ data, decode (encode data) = .ok data
  decode_nil : decode [] = .ok []
  slash_notMem_encode : ∀ data, '/' ∉ encode data

/-- What the crates and the standard library do. -/
structure Primitives where
  aes256 : NameKey → Equiv.Perm Block
  base32hex : Base32Hex
  /-- The text of an error of `String::from_utf8`. -/
  utf8Error : Bytes → String
  /-- `{:?}` of a text. -/
  debugText : Path → String

inductive FilenameEncryption
  | standard
  | obfuscate
  | off
  deriving DecidableEq, Repr

/-- The keys of an unlocked remote, as far as its names go. -/
structure RcloneCryptKeys where
  nameKey : NameKey
  nameTweak : Block
  filenameEncryption : FilenameEncryption
  offSuffix : Path
  directoryNameEncryption : Bool

/-! ### Text -/

inductive ParseIntError
  | empty
  | invalidDigit
  | posOverflow
  deriving DecidableEq, Repr

def ParseIntError.text : ParseIntError → String
  | .empty => "cannot parse integer from empty string"
  | .invalidDigit => "invalid digit found in string"
  | .posOverflow => "number too large to fit in target type"

/-- One digit more, in the parser of `u32`. -/
def pushDigit (result : Nat) (c : Char) : Except ParseIntError Nat :=
  if ¬ c.isDigit then .error .invalidDigit
  else if 2 ^ 32 ≤ result * 10 + (c.toNat - '0'.toNat) then .error .posOverflow
  else .ok (result * 10 + (c.toNat - '0'.toNat))

/-- `text.parse::<u32>()`. -/
def parseU32 : Path → Except ParseIntError Nat
  | [] => .error .empty
  | ['+'] => .error .invalidDigit
  | '+' :: digits => digits.foldlM pushDigit 0
  | digits => digits.foldlM pushDigit 0

/-! ### The wide-block cipher -/

/-- `xor_into` and `xor_mut`. -/
def xorBlock (a b : Block) : Block := a.zipWith (· ^^^ ·) b

/-- Twice a block in the field of 2^128 elements; byte 0 is the least significant. -/
def gf128Double (val : Block) : Block :=
  Vector.ofFn fun j =>
    if j = 0 then (val.get 0 <<< 1) ^^^ (if val.get 15 &&& 0x80 ≠ 0 then 0x87 else 0)
    else (val.get j <<< 1) ||| (val.get (j - 1) >>> 7)

def tabulateL (l : Block) (n : Nat) : List Block := Eme.doublings gf128Double l n

/-- The blocks of `data`, whose length is a multiple of theirs. -/
def toBlocks (data : Bytes) : List Block :=
  (chunks aesBlock data).map fun chunk => Vector.ofFn fun i => chunk.getD i 0

def ofBlocks (blocks : List Block) : Bytes := blocks.flatMap Vector.toList

section

variable (prims : Primitives)

def emeTransform (key : NameKey) (tweak : Block) (data : Bytes) (encrypt : Bool) :
    Except String Bytes :=
  let m := data.length / aesBlock
  if m = 0 ∨ data.length % aesBlock ≠ 0 then
    .error "EME: data must be a non-empty multiple of 16 bytes"
  else
    let bc := prims.aes256 key
    -- the table is made by encrypting, in both directions
    let lTable := tabulateL (bc (Vector.replicate aesBlock 0)) m
    let cipher := if encrypt then bc else bc.symm
    .ok (ofBlocks (Eme.transform xorBlock gf128Double cipher tweak lTable (toBlocks data)))

def emeDecrypt (key : NameKey) (tweak : Block) (data : Bytes) : Except String Bytes :=
  emeTransform prims key tweak data false

def emeEncrypt (key : NameKey) (tweak : Block) (data : Bytes) : Except String Bytes :=
  emeTransform prims key tweak data true

/-! ### Padding -/

def pkcs7Pad (data : Bytes) : Bytes :=
  let padLen := aesBlock - data.length % aesBlock
  data ++ List.replicate padLen (UInt8.ofNat padLen)

def pkcs7Unpad (data : Bytes) : Except String Bytes :=
  match data.getLast? with
  | none => .error "pkcs7: empty data"
  | some padByte =>
    if padByte = 0 ∨ aesBlock < padByte.toNat ∨ data.length < padByte.toNat then
      .error s!"pkcs7: invalid padding byte {padByte}"
    else if (data.drop (data.length - padByte.toNat)).any (· ≠ padByte) then
      .error "pkcs7: inconsistent padding"
    else .ok (data.take (data.length - padByte.toNat))

/-! ### Standard names -/

def base32hexEncode (data : Bytes) : Path := prims.base32hex.encode data

def base32hexDecode (s : Path) : Except String Bytes :=
  (prims.base32hex.decode s).mapError fun e => "base32hex decode failed: " ++ e

def encryptName (nameKey : NameKey) (dirIv : Block) (plainName : Path) : Except String Path := do
  let padded := pkcs7Pad (asBytes plainName)
  let ciphertext ← emeEncrypt prims nameKey dirIv padded
  pure (base32hexEncode prims ciphertext)

def decryptName (nameKey : NameKey) (dirIv : Block) (encryptedName : Path) :
    Except String Path := do
  let ciphertext ← base32hexDecode prims encryptedName
  let len := ciphertext.length
  if len = 0 ∨ len % aesBlock ≠ 0 then
    throw s!"ciphertext length {len} not a multiple of {aesBlock}"
  let padded ← emeDecrypt prims nameKey dirIv ciphertext
  let plain ← pkcs7Unpad padded
  match fromUtf8 plain with
  | some name => pure name
  | none => throw ("filename not valid UTF-8: " ++ prims.utf8Error plain)

/-! ### Obfuscated names -/

structure ObfBucket where
  lower : Nat
  upper : Nat

def obfBuckets : List ObfBucket :=
  [⟨0x30, 0x39⟩, ⟨0x41, 0x5A⟩, ⟨0x61, 0x7A⟩, ⟨0x00C0, 0x00D6⟩, ⟨0x00D8, 0x00F6⟩, ⟨0x00F8, 0x00FF⟩]

def obfRotationFromDirIv (dirIv : Block) : Nat := fromLeBytes (dirIv.toList.take 4)

/-- The place of a character in its bucket after the rotation. -/
def rotatedOffset (size off rotateBy : Nat) (encrypt : Bool) : Nat :=
  let r := rotateBy % size
  if encrypt then (off + r) % size else (off + size - r) % size

/-- `char::from_u32(n).unwrap_or(ch)`. -/
def charOr (n : Nat) (ch : Char) : Char := if n.isValidChar then Char.ofNat n else ch

def obfRotateChar (ch : Char) (rotateBy : Nat) (encrypt : Bool) : Char :=
  let cp := ch.toNat
  match obfBuckets.find? fun b => b.lower ≤ cp ∧ cp ≤ b.upper with
  | none => ch
  | some b =>
    charOr (b.lower + rotatedOffset (b.upper - b.lower + 1) (cp - b.lower) rotateBy encrypt) ch

def obfuscateName (dirIv : Block) (plainName : Path) : Except String Path :=
  if plainName = [] then .error "obfuscate: empty filename"
  else
    let rotateBy := obfRotationFromDirIv dirIv
    .ok (Nat.toDigits 10 rotateBy ++ '.' :: plainName.map (obfRotateChar · rotateBy true))

def deobfuscateName (dirIv : Block) (obfName : Path) : Except String Path :=
  match obfName.span (· != '.') with
  | (_, []) => .error "obfuscate: missing rotation prefix"
  | (recorded, _ :: body) =>
    match parseU32 recorded with
    | .error e =>
      .error ("obfuscate: invalid rotation prefix " ++ prims.debugText recorded ++ ": " ++ e.text)
    | .ok rotateByRecorded =>
      let rotateByExpected := obfRotationFromDirIv dirIv
      if rotateByRecorded ≠ rotateByExpected then
        .error s!"obfuscate: rotation mismatch (file={rotateByRecorded}, expected={rotateByExpected})"
      else .ok (body.map (obfRotateChar · rotateByExpected false))

/-- One segment of a path, whatever it names. -/
def decryptOneName (keys : RcloneCryptKeys) (encryptedName : Path) : Option Path :=
  match keys.filenameEncryption with
  | .off =>
    if keys.offSuffix = [] then some encryptedName else stripSuffix encryptedName keys.offSuffix
  | .obfuscate => (deobfuscateName prims keys.nameTweak encryptedName).toOption
  | .standard => (decryptName prims keys.nameKey keys.nameTweak encryptedName).toOption

end

end AeroFtp.RcloneCrypt
