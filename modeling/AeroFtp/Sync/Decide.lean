/-
What a sync does with one path, from `sync.rs`.

An upload and a download are decided alike, with the sides exchanged: by the sizes, by the
modification times, or by the hashes, with a reason when the file is left alone.  The
policy that decided is part of the decision.  Reading a modification time that a provider
reports, `parse_remote_mtime`, is a parameter.
-/
import AeroFtp.SyncCore.Scan
import AeroFtp.TransferDag.Sync

namespace AeroFtp.Sync

open SyncCore Dag

inductive SyncDirection where
  | upload
  | download
  | both
  deriving DecidableEq, Repr

inductive ConflictMode where
  | larger
  | newer
  | skip
  deriving DecidableEq, Repr

inductive SyncTreeAction where
  | copy
  | skip (reason : String)
  deriving DecidableEq, Repr

structure SyncTreeDecision where
  action : SyncTreeAction
  decisionPolicy : DeltaPolicy
  deriving DecidableEq

def ModifyWindow.orderText (window : ModifyWindow) (parseRemoteMtime : String → Option Int)
    (a b : Option String) : Option Ordering :=
  window.order (a.bind parseRemoteMtime) (b.bind parseRemoteMtime)

def newerUnordered : String := "no date orders the pair: cannot tell which copy is newer"

/-! ### By size -/

/-- The source is `ours`; `theirsIsLarger` is the reason when the other copy is. -/
def decideBySize (theirsIsLarger : String) (ours theirs : Nat) (mode : ConflictMode) :
    SyncTreeDecision where
  action :=
    if ours = theirs then .skip "identical size"
    else
      match mode with
      | .larger => if ours > theirs then .copy else .skip theirsIsLarger
      | .newer => .skip newerUnordered
      | .skip => .skip "conflict skip"
  decisionPolicy := .sizeOnly

def decideUploadBySize : Nat → Nat → ConflictMode → SyncTreeDecision :=
  decideBySize "remote is larger"

def decideDownloadBySize : Nat → Nat → ConflictMode → SyncTreeDecision :=
  decideBySize "local is larger"

/-! ### By time -/

structure SyncFileMeta where
  size : Nat
  mtime : Option String
  hash : Option String

section Decide

variable (parseRemoteMtime : String → Option Int)

def decideByMtime (theirsIsNewer : String) (bySize : Nat → Nat → ConflictMode → SyncTreeDecision)
    (ours theirs : SyncFileMeta) (mode : ConflictMode) (requestedPolicy : DeltaPolicy)
    (window : ModifyWindow) : SyncTreeDecision :=
  let decisionPolicy := if requestedPolicy = .disabled then .disabled else .mtime
  match window.orderText parseRemoteMtime ours.mtime theirs.mtime with
  | some .gt => { action := .copy, decisionPolicy }
  | some .lt => { action := .skip theirsIsNewer, decisionPolicy }
  | some .eq =>
    if ours.size = theirs.size then { action := .skip "identical mtime and size", decisionPolicy }
    else bySize ours.size theirs.size mode
  | none =>
    -- A backend that keeps no comparable time cannot say which copy is newer.
    if mode = .newer ∧ !window.comparesTimes ∧ ours.size ≠ theirs.size then
      { action := .skip "the backend keeps no comparable time: cannot tell which copy is newer"
        decisionPolicy := .sizeOnly }
    else bySize ours.size theirs.size mode

def decideUploadByMtime (here there : SyncFileMeta) : ConflictMode → DeltaPolicy → ModifyWindow →
    SyncTreeDecision :=
  decideByMtime parseRemoteMtime "remote is newer" decideUploadBySize here there

def decideDownloadByMtime (there here : SyncFileMeta) : ConflictMode → DeltaPolicy → ModifyWindow →
    SyncTreeDecision :=
  decideByMtime parseRemoteMtime "local is newer" decideDownloadBySize there here

/-! ### By hash -/

def decideByHash
    (byMtime : SyncFileMeta → SyncFileMeta → ConflictMode → DeltaPolicy → ModifyWindow →
      SyncTreeDecision)
    (ours theirs : SyncFileMeta) (mode : ConflictMode) (requestedPolicy : DeltaPolicy)
    (window : ModifyWindow) : SyncTreeDecision :=
  match ours.hash, theirs.hash with
  | some a, some b =>
    if eqIgnoreAsciiCase a b then { action := .skip "identical hash", decisionPolicy := .hash }
    else byMtime ours theirs mode requestedPolicy window
  | _, _ => byMtime ours theirs mode requestedPolicy window

def decideUploadByHash := decideByHash (decideUploadByMtime parseRemoteMtime)

def decideDownloadByHash := decideByHash (decideDownloadByMtime parseRemoteMtime)

/-! ### One path -/

def localMeta (entry : LocalEntry) : SyncFileMeta := ⟨entry.size, entry.mtime, entry.sha256⟩

def remoteMeta (entry : RemoteEntry) : SyncFileMeta := ⟨entry.size, entry.mtime, entry.checksumHex⟩

def decideUpload (localEntry : LocalEntry) (remoteEntry : Option RemoteEntry) (policy : DeltaPolicy)
    (mode : ConflictMode) (window : ModifyWindow) : SyncTreeDecision :=
  match remoteEntry with
  | none => { action := .copy, decisionPolicy := policy }
  | some remoteEntry =>
    match policy with
    | .sizeOnly => decideUploadBySize localEntry.size remoteEntry.size mode
    | .mtime | .disabled =>
      decideUploadByMtime parseRemoteMtime (localMeta localEntry)
        (remoteMeta remoteEntry) mode policy window
    | .hash | .delta =>
      decideUploadByHash parseRemoteMtime (localMeta localEntry)
        (remoteMeta remoteEntry) mode policy window

def decideDownload (remoteEntry : RemoteEntry) (localEntry : Option LocalEntry)
    (policy : DeltaPolicy) (mode : ConflictMode) (window : ModifyWindow)
    (alreadyHandledByUpload : Bool) : SyncTreeDecision :=
  if alreadyHandledByUpload then
    { action := .skip "resolved by upload pass", decisionPolicy := policy }
  else
    match localEntry with
    | none => { action := .copy, decisionPolicy := policy }
    | some localEntry =>
      match policy with
      | .sizeOnly => decideDownloadBySize remoteEntry.size localEntry.size mode
      | .mtime | .disabled =>
        decideDownloadByMtime parseRemoteMtime (remoteMeta remoteEntry) (localMeta localEntry) mode
          policy window
      | .hash | .delta =>
        decideDownloadByHash parseRemoteMtime (remoteMeta remoteEntry) (localMeta localEntry) mode
          policy window

end Decide

def remoteSha256Hex (entry : RemoteEntry) : Option String :=
  match entry.checksumAlg, entry.checksumHex with
  | some alg, some hex => if eqIgnoreAsciiCase alg "sha256" then some hex else none
  | _, _ => none

/-! ### The run -/

/-- The fields of `SyncOptions` that planning reads. -/
structure SyncOptions where
  direction : SyncDirection
  deltaPolicy : DeltaPolicy
  deleteOrphans : Bool
  conflictMode : ConflictMode

/-- The map of the entries by path, where the last entry of a path wins. -/
def localByPath (locals : List LocalEntry) (path : Path) : Option LocalEntry :=
  locals.reverse.find? (·.relPath = path)

def remoteByPath (remotes : List RemoteEntry) (path : Path) : Option RemoteEntry :=
  remotes.reverse.find? (·.relPath = path)

end AeroFtp.Sync
