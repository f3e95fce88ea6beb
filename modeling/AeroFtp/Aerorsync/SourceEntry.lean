/-
The entry an upload announces its file with, `build_source_entry` of
`aerorsync/delta_transport_impl.rs`.
-/
import AeroFtp.Aerorsync.RealWire.FileList

namespace AeroFtp.RealWire

structure EffectiveMetadataFlags where
  preserveOwner : Bool
  preserveGroup : Bool
  preserveXattrs : Bool
  deriving DecidableEq, Repr

/-- What the builder asks the file system for. -/
structure SourceFile where
  /-- None where the path has no name, or one that is not UTF-8. -/
  fileName : Option Utf8String
  size : UInt64
  mtime : Int64
  mtimeNsec : Option Int32
  mode : UInt32
  uid : UInt32
  uidName : Utf8String
  gid : UInt32
  gidName : Utf8String
  /-- `read_user_xattrs`. -/
  userXattrs : Option (List (Utf8String × List UInt8))
  deriving DecidableEq, Repr

/-- `"source.bin"`. -/
def sourceBin : Utf8String :=
  ⟨[0x73, 0x6F, 0x75, 0x72, 0x63, 0x65, 0x2E, 0x62, 0x69, 0x6E], by decide⟩

/-- `XattrPair::inline`. -/
def inlinePair (pair : Utf8String × List UInt8) : XattrPair := ⟨pair.1, .inline pair.2⟩

def sourceFlags (metadata : EffectiveMetadataFlags) : UInt32 :=
  let flags := xmitModNsec
  let flags := if metadata.preserveOwner then flags ||| xmitUserNameFollows else flags
  if metadata.preserveGroup then flags ||| xmitGroupNameFollows else flags

def buildSourceEntry (source : SourceFile) (fileChecksum : List UInt8)
    (symlinkTarget : Option Utf8String) (acls : Option FileListAcls)
    (metadata : EffectiveMetadataFlags) : FileListEntry where
  flags := sourceFlags metadata
  path := source.fileName.getD sourceBin
  size := source.size.toInt64.toInt
  mtime := source.mtime.toInt
  mtimeNsec := some (source.mtimeNsec.getD 0)
  mode := source.mode
  uid := if metadata.preserveOwner then some source.uid.toNat else none
  uidName := if metadata.preserveOwner then some source.uidName else none
  gid := if metadata.preserveGroup then some source.gid.toNat else none
  gidName := if metadata.preserveGroup then some source.gidName else none
  checksum := fileChecksum
  symlinkTarget := symlinkTarget
  xattrs := if metadata.preserveXattrs then
    some ((source.userXattrs.getD []).map inlinePair) else none
  acls := acls

end AeroFtp.RealWire
