/-
The file list, `aerorsync/real_wire.rs` section 5.

An entry is a sequence of fields, most of them present or absent according to the
entry's flags, its mode and the options of the session.  The decoder walks over them
with a cursor; nothing on the wire says where an entry ends.

The `checked_add`s of the xattr codec cannot overflow: a varint is at most `i32::MAX`
and the running total stays under a megabyte.  They are plain sums here.
-/
import AeroFtp.Aerorsync.RealWire.Primitives

namespace AeroFtp.RealWire

open Reader (take fail position onSlice)

/-! ### Text -/

/-- `0x80..=0xBF`. -/
def isContinuation (byte : UInt8) : Bool := 0x80 ≤ byte && byte ≤ 0xBF

variable (bytes : List UInt8)

/-- The length of the character `bytes` starts with, zero if it starts with none. -/
def charWidth : Nat :=
  match bytes with
  | [] => 0
  | first :: rest =>
    if first ≤ 0x7F then 1
    else if 0xC2 ≤ first ∧ first ≤ 0xDF then
      match rest with
      | b1 :: _ => if isContinuation b1 then 2 else 0
      | _ => 0
    else if 0xE0 ≤ first ∧ first ≤ 0xEF then
      match rest with
      | b1 :: b2 :: _ =>
        let low : UInt8 := if first = 0xE0 then 0xA0 else 0x80
        let high : UInt8 := if first = 0xED then 0x9F else 0xBF
        if low ≤ b1 ∧ b1 ≤ high ∧ isContinuation b2 then 3 else 0
      | _ => 0
    else if 0xF0 ≤ first ∧ first ≤ 0xF4 then
      match rest with
      | b1 :: b2 :: b3 :: _ =>
        let low : UInt8 := if first = 0xF0 then 0x90 else 0x80
        let high : UInt8 := if first = 0xF4 then 0x8F else 0xBF
        if low ≤ b1 ∧ b1 ≤ high ∧ isContinuation b2 ∧ isContinuation b3 then 4 else 0
      | _ => 0
    else 0

/-- The length of the longest prefix made of whole characters. -/
def validUpToFrom : Nat → List UInt8 → Nat
  | 0, _ => 0
  | fuel + 1, bytes =>
    match charWidth bytes with
    | 0 => 0
    | width => width + validUpToFrom fuel (bytes.drop width)

/-- `Utf8Error::valid_up_to`, and the length of valid input. -/
def validUpTo : Nat := validUpToFrom bytes.length bytes

/-- A Rust `String`. -/
structure Utf8String where
  bytes : List UInt8
  valid : validUpTo bytes = bytes.length
  deriving DecidableEq, Repr

/-- `String::from_utf8`, with `valid_up_to` in place of the error. -/
def fromUtf8 : Except Nat Utf8String :=
  if h : validUpTo bytes = bytes.length then .ok ⟨bytes, h⟩ else .error (validUpTo bytes)

/-- The next `len` bytes as text.  `short` is the error when there are fewer; the
offset of a bad byte counts from the start of the buffer. -/
def readUtf8 (short : Nat → RealWireError) (len : Nat) : Decoder Utf8String := do
  let offset ← position
  let bytes ← take short len
  match fromUtf8 bytes with
  | .ok s => return s
  | .error validUpTo => fail fun _ => .nonUtf8Name (offset + validUpTo)

/-- Read `len` bytes and interpret them as UTF-8. -/
def readUtf8Slice (len : Nat) : Decoder Utf8String := readUtf8 (.invalidNameLen len) len

/-! ### Flags, options and entries -/

def xmitSameMode : UInt32 := (1 : UInt32) <<< 1
def xmitExtendedFlags : UInt32 := (1 : UInt32) <<< 2
def xmitSameUid : UInt32 := (1 : UInt32) <<< 3
def xmitSameGid : UInt32 := (1 : UInt32) <<< 4
def xmitSameName : UInt32 := (1 : UInt32) <<< 5
def xmitLongName : UInt32 := (1 : UInt32) <<< 6
def xmitSameTime : UInt32 := (1 : UInt32) <<< 7
def xmitUserNameFollows : UInt32 := (1 : UInt32) <<< 10
def xmitGroupNameFollows : UInt32 := (1 : UInt32) <<< 11
def xmitIOErrorEndlist : UInt32 := (1 : UInt32) <<< 12
def xmitModNsec : UInt32 := (1 : UInt32) <<< 13

/-- What the decoder has to know about the session. -/
structure FileListDecodeOptions where
  protocol : UInt32
  xferFlagsAsVarint : Bool
  alwaysChecksum : Bool
  csumLen : Nat
  preserveUid : Bool
  preserveGid : Bool
  preserveAcls : Bool
  preserveXattrs : Bool
  previousName : Option Utf8String
  deriving DecidableEq, Repr

/-- The options of the captured sessions: rsync 3.2.7 with `--checksum`. -/
def FileListDecodeOptions.frozenOracleDefault : FileListDecodeOptions where
  protocol := 32
  xferFlagsAsVarint := true
  alwaysChecksum := true
  csumLen := 16
  preserveUid := true
  preserveGid := true
  preserveAcls := false
  preserveXattrs := false
  previousName := none

/-- The value of an extended attribute: its bytes, or its digest when it is long. -/
inductive XattrDatum where
  | inline (value : List UInt8)
  | deferred (len : Nat) (digest : List UInt8)
  deriving DecidableEq, Repr

structure XattrPair where
  name : Utf8String
  datum : XattrDatum
  deriving DecidableEq, Repr

inductive AclPrincipal where
  | user
  | group
  deriving DecidableEq, Repr

structure AclNamedEntry where
  id : UInt32
  principal : AclPrincipal
  access : UInt8
  name : Option Utf8String
  deriving DecidableEq, Repr

/-- The objects of an ACL that are on the wire. -/
structure RsyncAcl where
  userObj : Option UInt8
  groupObj : Option UInt8
  maskObj : Option UInt8
  otherObj : Option UInt8
  names : List AclNamedEntry
  deriving DecidableEq, Repr

/-- An ACL, or the index of one sent before. -/
inductive AclWireEntry where
  | literal (acl : RsyncAcl)
  | reference (index : UInt32)
  deriving DecidableEq, Repr

structure FileListAcls where
  access : AclWireEntry
  default : Option AclWireEntry
  deriving DecidableEq, Repr

structure FileListEntry where
  flags : UInt32
  path : Utf8String
  size : Int
  mtime : Int
  mtimeNsec : Option Int32
  mode : UInt32
  uid : Option Int
  uidName : Option Utf8String
  gid : Option Int
  gidName : Option Utf8String
  checksum : List UInt8
  symlinkTarget : Option Utf8String
  xattrs : Option (List XattrPair)
  acls : Option FileListAcls
  deriving DecidableEq, Repr

inductive FileListDecodeOutcome where
  | entry (entry : FileListEntry)
  | endOfList (ioError : Int32)
  deriving DecidableEq, Repr

def sIfmt : UInt32 := 0o170000
def sIflnk : UInt32 := 0o120000
def sIfdir : UInt32 := 0o040000

def isSymlinkMode (mode : UInt32) : Bool := mode &&& sIfmt == sIflnk

def isDirectoryMode (mode : UInt32) : Bool := mode &&& sIfmt == sIfdir

/-! ### Extended attributes -/

def maxFullDatum : Nat := 32
def maxXattrPairs : Nat := 256
def maxXattrNameLen : Nat := 255
def maxXattrTotalBytes : Nat := 1024 * 1024
def xattrDigestLen : Nat := 16

def invalidXattr {α : Type} (field : String) (declared : Int) : Decoder α :=
  fail (.invalidXattrField field declared)

/-- One pair, with the declared sizes so far.  A long value is on the wire as its
digest; name and value are checked for together. -/
def decodeXattrPair (totalDeclaredBytes : Nat) : Decoder (XattrPair × Nat) := do
  let nameLen ← decodeVarint
  let datumLen ← decodeVarint
  if nameLen < 1 then invalidXattr "name_len" nameLen
  else if datumLen < 0 then invalidXattr "datum_len" datumLen
  else
    let nameLen := nameLen.toNat
    let datumLen := datumLen.toNat
    if nameLen - 1 > maxXattrNameLen then invalidXattr "name_len" nameLen
    else
      let totalDeclaredBytes := totalDeclaredBytes + datumLen
      if totalDeclaredBytes > maxXattrTotalBytes then
        invalidXattr "total_datum_len" totalDeclaredBytes
      else
        let onWireLen := if datumLen > maxFullDatum then xattrDigestLen else datumLen
        let need := nameLen + onWireLen
        let cursor ← position
        let payload ← take (.truncatedBuffer "flist_xattr_payload" need) need
        -- The name ends with a zero byte that is not part of it.
        if payload.getD (nameLen - 1) 0 ≠ 0 then
          fail fun _ => .xattrNameNotNulTerminated nameLen
        else
          match fromUtf8 (payload.take (nameLen - 1)) with
          | .error validUpTo => fail fun _ => .nonUtf8Name (cursor + validUpTo)
          | .ok name =>
            let value := payload.drop nameLen
            let datum : XattrDatum :=
              if datumLen > maxFullDatum then .deferred datumLen value else .inline value
            return (⟨name, datum⟩, totalDeclaredBytes)

/-- The loop over the pairs. -/
def decodeXattrPairs : Nat → Nat → Decoder (List XattrPair)
  | 0, _ => return []
  | count + 1, totalDeclaredBytes => do
      let (pair, totalDeclaredBytes) ← decodeXattrPair totalDeclaredBytes
      let pairs ← decodeXattrPairs count totalDeclaredBytes
      return pair :: pairs

/-- Decode the trailing xattr blob of an entry. -/
def decodeXattrBlob : Decoder (List XattrPair) := do
  let marker ← decodeVarint
  if marker ≠ 0 then fail fun _ => .xattrAbbrevUnsupported marker
  else
    let count ← decodeVarint
    if count < 0 then invalidXattr "count" count
    else if count.toNat > maxXattrPairs then invalidXattr "count" count.toNat
    else decodeXattrPairs count.toNat 0

/-! ### ACLs -/

def aclXmitUserObj : UInt8 := (1 : UInt8) <<< 0
def aclXmitGroupObj : UInt8 := (1 : UInt8) <<< 1
def aclXmitMaskObj : UInt8 := (1 : UInt8) <<< 2
def aclXmitOtherObj : UInt8 := (1 : UInt8) <<< 3
def aclXmitNameList : UInt8 := (1 : UInt8) <<< 4
def aclXmitFlagsMask : UInt8 := 0x1f
def aclNameFollows : UInt8 := 1
def aclNameIsUser : UInt8 := 2
def aclXbitsFlagsMask : UInt8 := 0x03
def aclAccessMax : UInt8 := 7
def aclXbitsMax : UInt8 := (aclAccessMax <<< 2) ||| aclXbitsFlagsMask
def maxAclNamedEntries : Nat := 256
def maxAclNameLen : Nat := 255

def invalidAcl {α : Type} (field : String) (declared : Int) : Decoder α :=
  fail (.invalidAclField field declared)

def decodeAclPerm (field : String) : Decoder UInt8 := do
  let raw ← decodeVarint
  if raw < 0 ∨ raw > aclAccessMax.toNat then invalidAcl field raw
  else return UInt8.ofNat raw.toNat

/-- An object permission that is there when its flag is. -/
def decodeAclObj (flags flag : UInt8) (field : String) : Decoder (Option UInt8) :=
  if flags &&& flag ≠ 0 then do
    let perm ← decodeAclPerm field
    return some perm
  else return none

/-- The name of a named entry.  The source compares the length with what is left
before it calls `read_utf8_slice`, whose own check then cannot fail. -/
def decodeAclName (xflags : UInt8) : Decoder (Option Utf8String) :=
  if xflags &&& aclNameFollows ≠ 0 then do
    let nameLen ← decodeByte "flist_acl_name_len"
    let nameLen := nameLen.toNat
    if nameLen > maxAclNameLen then invalidAcl "name_len" nameLen
    else
      let s ← readUtf8 (.truncatedBuffer "flist_acl_name" nameLen) nameLen
      return some s
  else return none

def decodeAclNamedEntry : Decoder AclNamedEntry := do
  let id ← decodeVarint
  let xbits ← decodeVarint
  if xbits < 0 ∨ xbits > aclXbitsMax.toNat then invalidAcl "xbits" xbits
  else
    let xbits := UInt8.ofNat xbits.toNat
    let access := xbits >>> 2
    let xflags := xbits &&& aclXbitsFlagsMask
    let principal := if xflags &&& aclNameIsUser ≠ 0 then AclPrincipal.user else .group
    let name ← decodeAclName xflags
    return { id := (Int32.ofInt id).toUInt32, principal, access, name }

/-- The loop over the named entries. -/
def decodeAclNames : Nat → Decoder (List AclNamedEntry)
  | 0 => return []
  | count + 1 => do
      let entry ← decodeAclNamedEntry
      let entries ← decodeAclNames count
      return entry :: entries

/-- The list of named entries, where the flags announce one. -/
def decodeAclNameList (flags : UInt8) : Decoder (List AclNamedEntry) :=
  if flags &&& aclXmitNameList ≠ 0 then do
    let count ← decodeVarint
    if count < 0 then invalidAcl "count" count
    else if count.toNat > maxAclNamedEntries then invalidAcl "count" count.toNat
    else decodeAclNames count.toNat
  else return []

/-- Decode one rsync ACL. -/
def decodeAclWire : Decoder AclWireEntry := do
  let ndx ← decodeVarint
  if ndx < 0 then invalidAcl "ndx" ndx
  else if ndx > 0 then return .reference (UInt32.ofNat ndx.toNat - 1)
  else
    let flags ← decodeByte "flist_acl_flags"
    if flags &&& ~~~ aclXmitFlagsMask ≠ 0 then invalidAcl "flags" flags.toNat
    else
      let userObj ← decodeAclObj flags aclXmitUserObj "user_obj"
      let groupObj ← decodeAclObj flags aclXmitGroupObj "group_obj"
      let maskObj ← decodeAclObj flags aclXmitMaskObj "mask_obj"
      let otherObj ← decodeAclObj flags aclXmitOtherObj "other_obj"
      let names ← decodeAclNameList flags
      return .literal { userObj, groupObj, maskObj, otherObj, names }

/-! ### The fields of an entry, in order -/

/-- 1. Flags. -/
def decodeFlistFlags (xferFlagsAsVarint : Bool) : Decoder UInt32 :=
  if xferFlagsAsVarint then do
    let raw ← decodeVarint
    return UInt32.ofInt raw
  else do
    let lo ← decodeByte "flist_flags_byte"
    if lo.toUInt32 &&& xmitExtendedFlags ≠ 0 then
      let hi ← decodeByte "flist_flags_ext_byte"
      return (hi.toUInt32 <<< 8) ||| lo.toUInt32
    else return lo.toUInt32

/-- A length that is a signed varint. -/
def decodeLength : Decoder Nat := do
  let raw ← decodeVarint
  if raw < 0 then fail fun _ => .invalidNameLen 0 0
  else return raw.toNat

variable (options : FileListDecodeOptions) (flags : UInt32)

/-- 2. What the name shares with the previous one. -/
def decodeSameName : Decoder (List UInt8) :=
  if flags &&& xmitSameName ≠ 0 then do
    let l1 ← decodeByte "flist_same_name_l1"
    let l1 := l1.toNat
    if l1 > 0 then
      match options.previousName with
      | none => fail fun _ => .sameNameWithoutPrevious
      | some prev =>
        if l1 > prev.bytes.length then
          fail fun _ => .sameNamePrefixTooLong l1 prev.bytes.length
        else return prev.bytes.take l1
    else return []
  else return []

/-- 2. The length of the rest of the name. -/
def decodeNameLen : Decoder Nat :=
  if flags &&& xmitLongName ≠ 0 then decodeLength
  else do
    let n ← decodeByte "flist_name_len"
    return n.toNat

/-- 2. The rest of the name. -/
def decodePathRest (pathBytes : List UInt8) (l2 : Nat) : Decoder Utf8String := do
  let rest ← take (.invalidNameLen l2) l2
  match fromUtf8 (pathBytes ++ rest) with
  | .ok path => return path
  | .error validUpTo => fail fun _ => .nonUtf8Name validUpTo

/-- 4. The modification time. -/
def decodeMtime : Decoder Int :=
  if flags &&& xmitSameTime ≠ 0 then return 0
  else if options.protocol ≥ 30 then decodeVarlong 4
  else do
    let a ← take (.truncatedBuffer "flist_mtime_legacy" 4) 4
    return (i32FromLeBytes a).toInt

/-- 5. Its nanoseconds. -/
def decodeMtimeNsec : Decoder (Option Int32) :=
  if options.protocol ≥ 31 ∧ flags &&& xmitModNsec ≠ 0 then do
    let n ← decodeVarint
    return some (Int32.ofInt n)
  else return none

/-- 6. The mode. -/
def decodeMode : Decoder UInt32 :=
  if flags &&& xmitSameMode ≠ 0 then return 0
  else do
    let a ← take (.truncatedBuffer "flist_mode" 4) 4
    return u32FromLeBytes a

/-- An owner: its id, and its name where the flags announce one. -/
def decodeOwner (preserve : Bool) (same nameFollows : UInt32) (nameLenAt : String)
    (flags : UInt32) : Decoder (Option Int × Option Utf8String) :=
  if preserve ∧ flags &&& same = 0 then do
    let raw ← decodeVarint
    if flags &&& nameFollows ≠ 0 then
      let nameLen ← decodeByte nameLenAt
      let name ← readUtf8Slice nameLen.toNat
      return (some raw, some name)
    else return (some raw, none)
  else return (none, none)

/-- 7. The user. -/
def decodeUid : Decoder (Option Int × Option Utf8String) :=
  decodeOwner options.preserveUid xmitSameUid xmitUserNameFollows "flist_uid_name_len" flags

/-- 8. The group. -/
def decodeGid : Decoder (Option Int × Option Utf8String) :=
  decodeOwner options.preserveGid xmitSameGid xmitGroupNameFollows "flist_gid_name_len" flags

/-- 8.5. The target of a symlink. -/
def decodeSymlinkTarget (mode : UInt32) : Decoder (Option Utf8String) :=
  if isSymlinkMode mode then do
    let len ← decodeLength
    let s ← readUtf8Slice len
    return some s
  else return none

/-- 9. The checksum. -/
def decodeChecksum (mode : UInt32) : Decoder (List UInt8) :=
  if options.alwaysChecksum ∧ options.csumLen > 0 ∧ ¬ isSymlinkMode mode then
    take (.truncatedBuffer "flist_checksum" options.csumLen) options.csumLen
  else return []

/-- 9.5. The ACLs; a directory has a second one. -/
def decodeAcls (mode : UInt32) : Decoder (Option FileListAcls) :=
  if options.preserveAcls ∧ ¬ isSymlinkMode mode then do
    let access ← onSlice decodeAclWire
    if isDirectoryMode mode then
      let entry ← onSlice decodeAclWire
      return some { access, default := some entry }
    else return some { access, default := none }
  else return none

/-- 10. The extended attributes. -/
def decodeXattrs : Decoder (Option (List XattrPair)) :=
  if options.preserveXattrs then do
    let pairs ← onSlice decodeXattrBlob
    return some pairs
  else return none

/-- The short flags that end a list which met an I/O error. -/
def classicIOErrorEnd : Bool :=
  !options.xferFlagsAsVarint && flags == xmitExtendedFlags ||| xmitIOErrorEndlist

/-- The terminator, behind its flags. -/
def decodeEndOfList : Decoder FileListDecodeOutcome :=
  if options.xferFlagsAsVarint || classicIOErrorEnd options flags then do
    let raw ← decodeVarint
    return .endOfList (Int32.ofInt raw)
  else return .endOfList 0

/-- The fields between the name and the symlink target. -/
structure EntryStat where
  size : Int
  mtime : Int
  mtimeNsec : Option Int32
  mode : UInt32
  uid : Option Int × Option Utf8String
  gid : Option Int × Option Utf8String
  deriving DecidableEq, Repr

/-- Sections 3 to 8. -/
def decodeStat : Decoder EntryStat := do
  let size ← decodeVarlong 3
  let mtime ← decodeMtime options flags
  let mtimeNsec ← decodeMtimeNsec options flags
  let mode ← decodeMode flags
  let uid ← decodeUid options flags
  let gid ← decodeGid options flags
  return { size, mtime, mtimeNsec, mode, uid, gid }

/-- Sections 9 to 10, and the entry. -/
def decodeRest (path : Utf8String)
    (stat : EntryStat) (symlinkTarget : Option Utf8String) : Decoder FileListDecodeOutcome := do
  let checksum ← decodeChecksum options stat.mode
  let acls ← decodeAcls options stat.mode
  let xattrs ← decodeXattrs options
  return .entry
    { flags, path, size := stat.size, mtime := stat.mtime, mtimeNsec := stat.mtimeNsec,
      mode := stat.mode, uid := stat.uid.1, uidName := stat.uid.2, gid := stat.gid.1,
      gidName := stat.gid.2, checksum, symlinkTarget, xattrs, acls }

/-- An entry, behind its flags. -/
def decodeEntry :
    Decoder FileListDecodeOutcome := do
  let pathBytes ← decodeSameName options flags
  let l2 ← decodeNameLen flags
  let path ← decodePathRest pathBytes l2
  let stat ← decodeStat options flags
  let symlinkTarget ← decodeSymlinkTarget stat.mode
  decodeRest options flags path stat symlinkTarget

/-- The body of `decode_file_list_entry`. -/
def fileListEntry : Decoder FileListDecodeOutcome := do
  let flags ← decodeFlistFlags options.xferFlagsAsVarint
  if flags = 0 ∨ classicIOErrorEnd options flags then decodeEndOfList options flags
  else decodeEntry options flags

/-- Decode a single file-list entry, or signal the end of the list. -/
def decodeFileListEntry (buf : List UInt8) (options : FileListDecodeOptions) :
    Except RealWireError (FileListDecodeOutcome × Nat) :=
  fileListEntry options buf 0

end AeroFtp.RealWire
