/-
The crypt overlay: how it spells the paths below its anchor, `crypt_overlay_provider.rs`, and
how a comparison reads them back, `crypt_compare.rs`.

The overlay stands before another provider.  What is below the anchor it encrypts, name by
name; what is outside passes through.  The anchor is normalised once, when the overlay is
made; the targets of its callers come as they are written.
-/
import AeroFtp.RcloneCrypt.Names

namespace AeroFtp.CryptOverlay

open Sync RcloneCrypt Texts

/-- `parts.join("/")`. -/
def joinSlash (parts : List Path) : Path := ['/'].intercalate parts

/-! ### Names of an AeroCrypt overlay, `aerocrypt/names.rs` -/

abbrev MasterKey := Vector UInt8 32

/-- The crates those names need. -/
structure AeroCryptPrimitives where
  /-- The name key from the master key, by HKDF. -/
  expand : MasterKey → Option Bytes
  sivEncrypt : Bytes → Bytes → Option Bytes
  sivDecrypt : Bytes → Bytes → Option Bytes
  base64Encode : Bytes → Path
  base64Decode : Path → Option Bytes

structure Primitives where
  rclone : RcloneCrypt.Primitives
  aerocrypt : AeroCryptPrimitives

variable (prims : Primitives) (masterKey : MasterKey)

def deriveNameKey : Except String Bytes :=
  match prims.aerocrypt.expand masterKey with
  | some nameKey => .ok nameKey
  | none => .error "HKDF name-key expand failed"

def encryptFilename (plaintextName : Path) : Except String Path := do
  let nameKey ← deriveNameKey prims masterKey
  match prims.aerocrypt.sivEncrypt nameKey (asBytes plaintextName) with
  | some ciphertext => pure (prims.aerocrypt.base64Encode ciphertext)
  | none => throw "AES-SIV filename encrypt failed"

def decryptFilename (encryptedName : Path) : Option Path := do
  let nameKey ← (deriveNameKey prims masterKey).toOption
  let ciphertext ← prims.aerocrypt.base64Decode encryptedName
  let plaintext ← prims.aerocrypt.sivDecrypt nameKey ciphertext
  fromUtf8 plaintext

/-! ### Names of an overlay -/

inductive OverlayKeys
  | rclone (keys : RcloneCryptKeys)
  | aeroCrypt (masterKey : MasterKey)

def rcloneNameIsEncrypted (keys : RcloneCryptKeys) (isDir : Bool) : Bool :=
  keys.filenameEncryption ≠ .off && (!isDir || keys.directoryNameEncryption)

/-- One component as it stands on the wire. -/
def OverlayKeys.encodeName : OverlayKeys → Path → Bool → Except String Path
  | .aeroCrypt masterKey, plain, _ => encryptFilename prims masterKey plain
  | .rclone keys, plain, isDir =>
    if keys.filenameEncryption ≠ .off ∧ rcloneNameIsEncrypted keys isDir = false then .ok plain
    else
      match keys.filenameEncryption with
      | .off => if isDir ∨ keys.offSuffix = [] then .ok plain else .ok (plain ++ keys.offSuffix)
      | .standard => encryptName prims.rclone keys.nameKey keys.nameTweak plain
      | .obfuscate => obfuscateName keys.nameTweak plain

/-- A component read back from the wire; none where it is no name of this overlay. -/
def OverlayKeys.decodeName : OverlayKeys → Path → Bool → Option Path
  | .aeroCrypt masterKey, encoded, _ => decryptFilename prims masterKey encoded
  | .rclone keys, encoded, isDir =>
    if keys.filenameEncryption ≠ .off ∧ rcloneNameIsEncrypted keys isDir = false then some encoded
    else
      match keys.filenameEncryption with
      | .off =>
        if isDir ∨ keys.offSuffix = [] then some encoded else stripSuffix encoded keys.offSuffix
      | .standard => (decryptName prims.rclone keys.nameKey keys.nameTweak encoded).toOption
      | .obfuscate => (deobfuscateName prims.rclone keys.nameTweak encoded).toOption

/-! ### Paths read back -/

variable (one : Bool → Path → Option Path)

/-- An empty segment is kept, any other is read by `one`, which is told whether it is the last. -/
def readSegment (last : Bool) (segment : Path) : Option Path :=
  if segment = [] then some [] else one last segment

/-- The loop over the segments of a path. -/
def readSegments (one : Bool → Path → Option Path) : List Path → Option (List Path)
  | [] => some []
  | segment :: rest => do
      let out ← readSegment one rest.isEmpty segment
      let outs ← readSegments one rest
      pure (out :: outs)

def readPath (relPath : Path) : Option Path :=
  (readSegments one (splitSlash relPath)).map joinSlash

variable (keys : OverlayKeys)

/-- The overlay's own decoder: a segment before the last names a directory. -/
def OverlayKeys.decodeRelPath (relPath : Path) (isDir : Bool) : Option Path :=
  readPath (fun last segment => keys.decodeName prims segment (!last || isDir)) relPath

/-- The decoder of a comparison. -/
def decryptRelRclone (keys : RcloneCryptKeys) (relPath : Path) : Option Path :=
  readPath (fun last segment =>
    if keys.directoryNameEncryption || last then decryptOneName prims.rclone keys segment
    else some segment) relPath

def decryptRelAerocrypt (relPath : Path) : Option Path :=
  readPath (fun _ segment => decryptFilename prims masterKey segment) relPath

inductive CryptCompareKeys
  | rclone (keys : RcloneCryptKeys)
  | aeroCrypt (masterKey : MasterKey)

def CryptCompareKeys.decryptRel : CryptCompareKeys → Path → Option Path
  | .rclone keys, rel => decryptRelRclone prims keys rel
  | .aeroCrypt masterKey, rel => decryptRelAerocrypt prims masterKey rel

/-! ### Paths written -/

/-- One part of an anchor: `.` and empty parts are dropped, `..` takes the last one back. -/
def pushAnchor (segs : List Path) (part : Path) : List Path :=
  if part = [] ∨ part = ['.'] then segs
  else if part = ['.', '.'] then segs.dropLast
  else segs ++ [part]

def normAnchor (scope : Path) : Path :=
  if scope = [] ∨ scope = ['/'] then []
  else
    let segs := (splitSlash scope).foldl pushAnchor []
    if segs = [] then [] else '/' :: joinSlash segs

/-- A slash in front and none at the end. -/
def normAbs (p : Path) : Path :=
  let trimmed := trimEndSlash p
  if trimmed = [] then ['/'] else '/' :: trimStartSlash trimmed

/-- No part of a crypt path is this. -/
def badComponent (c : Path) : Bool := c = ['.', '.'] || c.contains '\x00'

/-- The loop over the components: all but the last are directories. -/
def encodeComponents (keys : OverlayKeys) (isDirLeaf : Bool) : List Path → Except String (List Path)
  | [] => .ok []
  | c :: rest => do
      let part ← keys.encodeName prims c (if rest.isEmpty then isDirLeaf else true)
      let parts ← encodeComponents keys isDirLeaf rest
      pure (part :: parts)

/-- The parts of a path that name something. -/
def components (path : Path) : List Path := (splitSlash path).filter fun c => c ≠ [] && c ≠ ['.']

def encodeRelPath (rel : Path) (isDirLeaf : Bool) : Except String Path := do
  let absolute := rel.head? = some '/'
  let comps := components rel
  if comps.any badComponent then
    throw "Invalid crypt path component"
  let parts ← encodeComponents prims keys isDirLeaf comps
  let joined := joinSlash parts
  pure (if absolute then '/' :: joined else joined)

inductive AccessKind
  | read
  | write
  deriving DecidableEq, Repr

/-- `text.strip_prefix(front)`. -/
def stripFront (text front : Path) : Option Path :=
  if front.isPrefixOf text then some (text.drop front.length) else none

/-- The path on the wire of a caller's target. -/
def encodePlainTarget (scope target : Path) (isDirLeaf : Bool) (kind : AccessKind) :
    Except String Path := do
  if (splitSlash target).any badComponent then
    throw "Invalid crypt path component"
  if target.head? ≠ some '/' then
    return ← encodeRelPath prims keys target isDirLeaf
  if scope = [] then
    return ← encodeRelPath prims keys target isDirLeaf
  let t := normAbs target
  if t = scope then
    return scope
  match stripFront t (scope ++ ['/']) with
  | some below =>
    let encBelow ← encodeRelPath prims keys below isDirLeaf
    return scope ++ '/' :: encBelow
  | none =>
    if kind = .read then
      return normAbs target
    return normAbs target

/-! ### The provider -/

/-- The overlay over a provider. -/
structure CryptOverlayProvider where
  keys : OverlayKeys
  scope : Path

def CryptOverlayProvider.new (scope : Path) : CryptOverlayProvider where
  keys := keys
  scope := normAnchor scope

/-- Whether the bytes behind a caller's target are encrypted. -/
def CryptOverlayProvider.targetIsEncrypted (provider : CryptOverlayProvider) (plainTarget : Path) :
    Bool :=
  if plainTarget.head? ≠ some '/' then true
  else if provider.scope = [] then true
  else
    let t := normAbs plainTarget
    if t = provider.scope then false else (provider.scope ++ ['/']).isPrefixOf t

end AeroFtp.CryptOverlay
