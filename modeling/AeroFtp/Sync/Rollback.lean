/-
Restoring a snapshot, `restore_sync_snapshot_cmd` of `lib.rs` with what it calls.

A snapshot is the index of an earlier sync: a size and a date for each file, no content.
The two trees are what is at the places the relative paths lead to.  The transfers of
the two backends and the archive are parameters.  A transfer that fails may leave anything:
there are providers that write a download in place.  The archive is a copy under
`.aeroversions`, outside the files of the snapshot.

The branch for a target outside the local root is left out: a path that passed
`validate_relative_path` has no root and no `..`, so that what `join` makes of it starts with
the root.
-/
import AeroFtp.Sync.Paths

namespace AeroFtp.Sync

/-- What is at a local path; a date is in nanoseconds. -/
inductive LocalFile where
  | missing
  | file (content : List UInt8) (modified : Except String Int)
  | other
  | unreadable (err : String)

def LocalFile.exists : LocalFile → Bool
  | .file .. | .other => true
  | .missing | .unreadable _ => false

def LocalFile.content : LocalFile → List UInt8
  | .file content _ => content
  | _ => []

structure FileSnapshotEntry where
  size : Nat
  modified : Option Int

abbrev SnapshotFile := Path × FileSnapshotEntry

/-- `SyncSnapshot`; its files in the order the map gives them. -/
structure SyncSnapshot where
  localPath : Path
  remotePath : Path
  files : List SnapshotFile

def normalizeSyncPath (path : Path) : Path := if path = ['/'] then path else trimEndSlash path

def snapshotMatchesPair (snapshot : SyncSnapshot) (localPath remotePath : Path) : Bool :=
  normalizeSyncPath snapshot.localPath == normalizeSyncPath localPath &&
    normalizeSyncPath snapshot.remotePath == normalizeSyncPath remotePath

inductive VersioningStrategy where
  | disabled
  | trashCan (maxAgeDays : Nat)
  | simple (maxCopies : Nat)
  | staggered
  deriving DecidableEq

def parseVersioningStrategy (versioningStrategy : Option String) : VersioningStrategy :=
  match versioningStrategy.getD "trash_can" with
  | "disabled" => .disabled
  | "simple" => .simple 5
  | "staggered" => .staggered
  | _ => .trashCan 30

def VersioningStrategy.isEnabled (strategy : VersioningStrategy) : Bool := strategy != .disabled

def localFileMatchesSnapshot (file : LocalFile) (entry : FileSnapshotEntry) : Except String Bool :=
  match file with
  | .missing | .other => .ok false
  | .unreadable err => .error s!"Failed to read local metadata: {err}"
  | .file content modified =>
    if content.length ≠ entry.size then .ok false
    else
      match modified, entry.modified with
      | .error err, _ => .error s!"Failed to read local mtime: {err}"
      | .ok _, none => .ok true
      | .ok current, some expected => .ok (((current - expected).tdiv 1000000000).natAbs ≤ 2)

structure RestoreSnapshotResult where
  restoredFromRemote : Nat := 0
  restoredToRemote : Nat := 0
  skipped : Nat := 0
  failed : List String := []

/-- The FTP manager, or a provider that may not be connected. -/
inductive Backend where
  | ftp
  | provider (connected : Bool)
  deriving DecidableEq

def Backend.downloadError : Backend → String → String
  | .ftp, err => err
  | .provider _, err => s!"Download failed: {err}"

/-- What the transfers of a path report and leave: an upload as the remote file, a download as
the local one. -/
structure Transfers where
  upload : Path → List UInt8 → Option (List UInt8) → Except String Unit × Option (List UInt8)
  download : Path → Option (List UInt8) → LocalFile → Except String Unit × LocalFile
  archive : Path → Except String Unit

/-- How a file is counted. -/
inductive Counted where
  | toRemote
  | fromRemote
  | skipped (message : String)
  deriving DecidableEq

def RestoreSnapshotResult.count (result : RestoreSnapshotResult) : Counted → RestoreSnapshotResult
  | .toRemote => { result with restoredToRemote := result.restoredToRemote + 1 }
  | .fromRemote => { result with restoredFromRemote := result.restoredFromRemote + 1 }
  | .skipped message =>
    { result with skipped := result.skipped + 1, failed := result.failed ++ [message] }

/-- What the command works with. -/
structure Restorer where
  backend : Backend
  transfers : Transfers
  versioning : VersioningStrategy

namespace Restorer

variable (via : Restorer)

/-- The second half of the loop's body: archive the local file and download over it. -/
def downloadOver (relativePath : Path) (localFile : LocalFile) (remoteFile : Option (List UInt8)) :
    LocalFile × Except String Counted :=
  let name := String.ofList relativePath
  match (if localFile.exists && via.versioning.isEnabled then via.transfers.archive relativePath
    else .ok ()) with
  | .error err => (localFile, .error s!"Failed to archive {name} before restore: {err}")
  | .ok () =>
    if via.backend = .provider false then (localFile, .error "Not connected to any provider")
    else
      match via.transfers.download relativePath remoteFile localFile with
      | (.ok (), localFile) => (localFile, .ok .fromRemote)
      | (.error err, localFile) =>
        let err := via.backend.downloadError err
        (localFile, .ok (.skipped s!"{name}: {err}"))

/-- The loop's body: what becomes of the two files of a path, and how it is counted. -/
def restoreFile (relativePath : Path) (entry : FileSnapshotEntry) (localFile : LocalFile)
    (remoteFile : Option (List UInt8)) : LocalFile × Option (List UInt8) × Except String Counted :=
  match validateRelativePath relativePath, localFileMatchesSnapshot localFile entry with
  | .error err, _ | .ok (), .error err => (localFile, remoteFile, .error err)
  | .ok (), .ok false =>
    let (localFile, counted) := via.downloadOver relativePath localFile remoteFile
    (localFile, remoteFile, counted)
  | .ok (), .ok true =>
    if via.backend = .provider false then
      (localFile, remoteFile, .error "Not connected to any provider")
    else
      match via.transfers.upload relativePath localFile.content remoteFile with
      | (.ok (), remoteFile) => (localFile, remoteFile, .ok .toRemote)
      | (.error _, remoteFile) =>
        let (localFile, counted) := via.downloadOver relativePath localFile remoteFile
        (localFile, remoteFile, counted)

end Restorer

/-- The two trees, and where a relative path leads to in each: `local_root.join` and
`{remote_root}/{relative_path}`. -/
structure Trees (L R : Type) where
  localFile : Path → L
  remoteFile : Path → R
  locals : L → LocalFile
  remotes : R → Option (List UInt8)

namespace Trees

variable {L R : Type} [DecidableEq L] [DecidableEq R]

/-- The turn of a file in the loop. -/
def turn (via : Restorer) (trees : Trees L R) (file : SnapshotFile) :
    LocalFile × Option (List UInt8) × Except String Counted :=
  via.restoreFile file.1 file.2 (trees.locals (trees.localFile file.1))
    (trees.remotes (trees.remoteFile file.1))

/-- The trees behind it. -/
def afterTurn (via : Restorer) (trees : Trees L R) (file : SnapshotFile) : Trees L R :=
  { trees with
    locals := Function.update trees.locals (trees.localFile file.1) (trees.turn via file).1
    remotes := Function.update trees.remotes (trees.remoteFile file.1) (trees.turn via file).2.1 }

/-- The loop over the files of the snapshot. -/
def restoreFiles (via : Restorer) :
    List SnapshotFile → Trees L R → RestoreSnapshotResult →
      Trees L R × Except String RestoreSnapshotResult
  | [], trees, result => (trees, .ok result)
  | file :: files, trees, result =>
    match (trees.turn via file).2.2 with
    | .error err => (trees.afterTurn via file, .error err)
    | .ok counted => restoreFiles via files (trees.afterTurn via file) (result.count counted)

/-- The command, behind the read of the snapshot. -/
def restoreSyncSnapshotCmd (backend : Backend) (transfers : Transfers) (snapshot : SyncSnapshot)
    (localPath remotePath : Path) (versioningStrategy : Option String) (trees : Trees L R) :
    Trees L R × Except String RestoreSnapshotResult :=
  if snapshotMatchesPair snapshot localPath remotePath then
    restoreFiles ⟨backend, transfers, parseVersioningStrategy versioningStrategy⟩
      snapshot.files trees {}
  else (trees, .error "Snapshot does not belong to the current sync pair")

end Trees

end AeroFtp.Sync
