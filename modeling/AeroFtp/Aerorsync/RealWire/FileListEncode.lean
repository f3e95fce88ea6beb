/-
Writing the file list, `aerorsync/real_wire.rs`.

The encoder writes the fields the decoder reads, in the same order and under the same
conditions.  It trusts its caller: what does not fit its flags or the session fails an
`assert!`, which is `none` here.  The MD5 of a long attribute value is a parameter.
-/
import AeroFtp.Aerorsync.RealWire.FileList

namespace AeroFtp.RealWire

/-- `assert!`. -/
def assertThat (c : Prop) [Decidable c] : Option Unit := if c then some () else none

/-- One encoding after the other. -/
def encodeEach {α : Type} (encode : α → Option (List UInt8)) : List α → Option (List UInt8)
  | [] => some []
  | a :: as => do
      let first ← encode a
      let rest ← encodeEach encode as
      return first ++ rest

/-! ### ACLs -/

def encodeAclPerm (perm : UInt8) : Option (List UInt8) := do
  assertThat (perm ≤ aclAccessMax)
  return encodeVarint (Int32.ofNat perm.toNat)

/-- An object permission, where there is one. -/
def encodeAclObj : Option UInt8 → Option (List UInt8)
  | none => some []
  | some perm => encodeAclPerm perm

/-- The bits of an unsigned id go through the signed varint. -/
def encodeAclId (id : UInt32) : List UInt8 := encodeVarint id.toInt32

/-- The name of a named entry, where it has one. -/
def encodeAclName : Option Utf8String → Option (List UInt8)
  | none => some []
  | some name => do
      assertThat (name.bytes.length ≤ maxAclNameLen)
      return UInt8.ofNat name.bytes.length :: name.bytes

def encodeAclNamedEntry (named : AclNamedEntry) : Option (List UInt8) := do
  assertThat (named.access ≤ aclAccessMax)
  let xflags : UInt8 :=
    (if named.name.isSome then aclNameFollows else 0) |||
      (if named.principal = .user then aclNameIsUser else 0)
  let name ← encodeAclName named.name
  return encodeAclId named.id ++
    (encodeVarint (Int32.ofNat ((named.access <<< 2) ||| xflags).toNat) ++ name)

/-- Which objects of an ACL follow. -/
def RsyncAcl.xmitFlags (acl : RsyncAcl) : UInt8 :=
  (if acl.userObj.isSome then aclXmitUserObj else 0) |||
    (if acl.groupObj.isSome then aclXmitGroupObj else 0) |||
    (if acl.maskObj.isSome then aclXmitMaskObj else 0) |||
    (if acl.otherObj.isSome then aclXmitOtherObj else 0) |||
    (if acl.names ≠ [] then aclXmitNameList else 0)

/-- The list of named entries, if there are any. -/
def encodeAclNames (names : List AclNamedEntry) : Option (List UInt8) :=
  if names ≠ [] then do
    assertThat (names.length ≤ maxAclNamedEntries)
    let entries ← encodeEach encodeAclNamedEntry names
    return encodeVarint (Int32.ofNat names.length) ++ entries
  else some []

/-- Encode one rsync ACL. -/
def encodeAclWire : AclWireEntry → Option (List UInt8)
  | .reference index => do
      let ndx := index.toNat + 1
      assertThat (ndx ≤ 2147483647)
      return encodeVarint (Int32.ofNat ndx)
  | .literal acl => do
      let userObj ← encodeAclObj acl.userObj
      let groupObj ← encodeAclObj acl.groupObj
      let maskObj ← encodeAclObj acl.maskObj
      let otherObj ← encodeAclObj acl.otherObj
      let names ← encodeAclNames acl.names
      return encodeVarint 0 ++
        ([acl.xmitFlags] ++ (userObj ++ (groupObj ++ (maskObj ++ (otherObj ++ names)))))

/-! ### Extended attributes -/

/-- The length of the value, wherever it is. -/
def XattrDatum.len : XattrDatum → Nat
  | .inline value => value.length
  | .deferred len _ => len

variable (entry : FileListEntry) (options : FileListDecodeOptions) (md5 : List UInt8 → List UInt8)

/-- What goes out for the value: the value itself if it is short, its digest if not. -/
def XattrDatum.onWire : XattrDatum → List UInt8
  | .inline value => if value.length ≤ maxFullDatum then value else md5 value
  | .deferred _ digest => digest

def encodeXattrPair (pair : XattrPair) : List UInt8 :=
  encodeVarint (Int32.ofNat pair.name.bytes.length + 1) ++
    (encodeVarint (Int32.ofNat pair.datum.len) ++
      (pair.name.bytes ++ ([0] ++ pair.datum.onWire md5)))

/-- Encode the trailing xattr blob: always the full list, never a reference to one. -/
def encodeXattrBlob (pairs : List XattrPair) : List UInt8 :=
  encodeVarint 0 ++
    (encodeVarint (Int32.ofNat pairs.length) ++ pairs.flatMap (encodeXattrPair md5))

/-! ### The fields of an entry, in order -/

def xmitTopDir : UInt32 := (1 : UInt32) <<< 0

namespace FileListEntry

/-- The flags as the classic encoding sends them: zero would end the list, and more than
the low byte needs the extended form. -/
def classicFlags (entry : FileListEntry) : UInt32 :=
  let xflags :=
    if entry.flags = 0 ∧ ¬ isDirectoryMode entry.mode then entry.flags ||| xmitTopDir else
      entry.flags
  if xflags &&& 0xFF00 ≠ 0 ∨ xflags = 0 ∨ xflags &&& xmitExtendedFlags ≠ 0 then
    xflags ||| xmitExtendedFlags
  else xflags

/-- The flags on the wire. -/
def wireFlags (entry : FileListEntry) (options : FileListDecodeOptions) : UInt32 :=
  if options.xferFlagsAsVarint then entry.flags else entry.classicFlags

end FileListEntry

/-- 1. Flags. -/
def encodeFlistFlags : Option (List UInt8) :=
  if options.xferFlagsAsVarint then some (encodeVarint entry.flags.toInt32)
  else do
    assertThat (entry.flags ≤ 0xFFFF)
    let xflags := entry.classicFlags
    if xflags &&& xmitExtendedFlags ≠ 0 then return u16ToLeBytes xflags.toUInt16
    else return [xflags.toUInt8]

/-- How far two byte strings agree, at most `max` bytes. -/
def commonLen : Nat → List UInt8 → List UInt8 → Nat
  | max + 1, a :: as, b :: bs => if a = b then commonLen max as bs + 1 else 0
  | _, _, _ => 0

/-- What the name shares with the previous one, and the rest of it. -/
def computeFlistNameSplit (entryPath : Utf8String) (previousName : Option Utf8String)
    (sameName : Bool) : Nat × List UInt8 :=
  if !sameName then (0, entryPath.bytes)
  else
    let prev := (previousName.map (·.bytes)).getD []
    let l1 := commonLen 255 entryPath.bytes prev
    (l1, entryPath.bytes.drop l1)

/-- A length in a signed varint, cut to its width. -/
def encodeLength (len : Nat) : List UInt8 := encodeVarint (Int32.ofNat len)

/-- 2. The name. -/
def encodeFlistName : List UInt8 :=
  let sameName : Bool := entry.flags &&& xmitSameName ≠ 0
  let split := computeFlistNameSplit entry.path options.previousName sameName
  (if sameName then [UInt8.ofNat split.1] else []) ++
    ((if entry.flags &&& xmitLongName ≠ 0 then encodeLength split.2.length
      else [UInt8.ofNat split.2.length]) ++ split.2)

/-- 4. The modification time. -/
def encodeMtime : List UInt8 :=
  if entry.flags &&& xmitSameTime = 0 then
    if options.protocol ≥ 30 then encodeVarlong (Int64.ofInt entry.mtime) 4
    else i32ToLeBytes (Int32.ofInt entry.mtime)
  else []

/-- 5. Its nanoseconds. -/
def encodeMtimeNsec : List UInt8 :=
  if options.protocol ≥ 31 ∧ entry.flags &&& xmitModNsec ≠ 0 then
    encodeVarint (entry.mtimeNsec.getD 0)
  else []

/-- 6. The mode. -/
def encodeMode : List UInt8 :=
  if entry.flags &&& xmitSameMode = 0 then u32ToLeBytes entry.mode else []

/-- The name of an owner, empty where there is none. -/
def encodeOwnerName (name : Option Utf8String) : Option (List UInt8) := do
  let bytes := (name.map (·.bytes)).getD []
  assertThat (bytes.length ≤ 255)
  return UInt8.ofNat bytes.length :: bytes

/-- An owner: its id, and its name where the flags announce one. -/
def encodeOwner (preserve : Bool) (same nameFollows flags : UInt32) (id : Option Int)
    (name : Option Utf8String) : Option (List UInt8) :=
  if preserve ∧ flags &&& same = 0 then
    let raw := encodeVarint (Int32.ofInt (id.getD 0))
    if flags &&& nameFollows ≠ 0 then do
      let name ← encodeOwnerName name
      return raw ++ name
    else some raw
  else some []

/-- 7. The user. -/
def encodeUid : Option (List UInt8) :=
  encodeOwner options.preserveUid xmitSameUid xmitUserNameFollows entry.flags entry.uid
    entry.uidName

/-- 8. The group. -/
def encodeGid : Option (List UInt8) :=
  encodeOwner options.preserveGid xmitSameGid xmitGroupNameFollows entry.flags entry.gid
    entry.gidName

/-- 8.5. The target of a symlink. -/
def encodeSymlinkTarget : List UInt8 :=
  if isSymlinkMode entry.mode then
    let target := (entry.symlinkTarget.map (·.bytes)).getD []
    encodeLength target.length ++ target
  else []

/-- 9. The checksum. -/
def encodeChecksum : Option (List UInt8) :=
  if options.alwaysChecksum ∧ options.csumLen > 0 ∧ ¬ isSymlinkMode entry.mode then do
    assertThat (entry.checksum.length = options.csumLen)
    return entry.checksum
  else some []

/-- 9.5. The ACLs; a directory has a second one. -/
def encodeAcls : Option (List UInt8) :=
  if options.preserveAcls then
    if isSymlinkMode entry.mode then do
      assertThat (entry.acls = none)
      return []
    else do
      let acls ← entry.acls
      let access ← encodeAclWire acls.access
      if isDirectoryMode entry.mode then
        let entry ← acls.default
        let default ← encodeAclWire entry
        return access ++ default
      else
        assertThat (acls.default = none)
        return access
  else do
    assertThat (entry.acls = none)
    return []

/-- 10. The extended attributes. -/
def encodeXattrs (entry : FileListEntry) (options : FileListDecodeOptions) : Option (List UInt8) :=
  if options.preserveXattrs then some (encodeXattrBlob md5 (entry.xattrs.getD []))
  else do
    assertThat (entry.xattrs = none)
    return []

/-- Sections 3 to 8. -/
def encodeStat : Option (List UInt8) := do
  let uid ← encodeUid entry options
  let gid ← encodeGid entry options
  return encodeVarlong (Int64.ofInt entry.size) 3 ++
    (encodeMtime entry options ++
      (encodeMtimeNsec entry options ++ (encodeMode entry ++ (uid ++ gid))))

/-- Sections 9 to 10. -/
def encodeRest (entry : FileListEntry) (options : FileListDecodeOptions) : Option (List UInt8) := do
  let checksum ← encodeChecksum entry options
  let acls ← encodeAcls entry options
  let xattrs ← encodeXattrs md5 entry options
  return checksum ++ (acls ++ xattrs)

/-- Encode an entry for a decoder with these options. -/
def encodeFileListEntry (entry : FileListEntry)
    (options : FileListDecodeOptions) : Option (List UInt8) := do
  let flags ← encodeFlistFlags entry options
  let stat ← encodeStat entry options
  let rest ← encodeRest md5 entry options
  return flags ++ (encodeFlistName entry options ++ (stat ++ (encodeSymlinkTarget entry ++ rest)))

end AeroFtp.RealWire
