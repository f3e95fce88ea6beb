/-
Replicating a drive into a folder, `drive.rs` of the peer crate.

A replica reads the manifest of a drive, writes every file whose blob it can fetch, decrypt and
verify, and then watches: with each new version, or again with the version it is at while
something of it is unapplied, it writes what has changed and removes the files of keys that are
gone.  What it has applied stands in a map from keys to hashes; a key it has applied before and
could not apply now stands there with no hash, and one it has never applied is pending.

A path is given by the part of it that lies under the replica folder.
-/
import AeroFtp.Lib.AssocList
import AeroFtp.Lib.FileTree
import AeroFtp.PeerL0.Publish

namespace AeroFtp.PeerL0

open AssocList Sync Texts FileTree

/-! ### Paths under the replica folder -/

/-- `std::path::Component`. -/
inductive Component
  | rootDir
  | curDir
  | parentDir
  | normal (name : Path)
  deriving DecidableEq, Repr

/-- A part of a path behind its first: an empty one and a dot name nothing. -/
def innerComponent (part : Path) : Option Component :=
  if part = [] ∨ part = ['.'] then none
  else if part = ['.', '.'] then some .parentDir
  else some (.normal part)

/-- `path.components()`. -/
def components (path : Path) : List Component :=
  if path.head? = some '/' then .rootDir :: (splitSlash path).filterMap innerComponent
  else if (splitSlash path).head? = some ['.'] then
    .curDir :: (splitSlash path).filterMap innerComponent
  else (splitSlash path).filterMap innerComponent

def Component.stays : Component → Bool
  | .normal _ => true
  | .curDir => true
  | _ => false

def safeReplicaPath (relKey : Key) : Option Path :=
  if relKey = [] then none
  else if (components relKey).all Component.stays then some relKey
  else none

def Component.name : Component → Option Path
  | .normal name => some name
  | _ => none

/-- Where a path under the replica folder leads. -/
def place (target : Path) : List Path := (components target).filterMap Component.name

/-! ### Files of the replica -/

abbrev Disk := Tree Path Bytes

/-- The walk of `link_on_the_way` from a folder down the parts that are left. -/
def linkFrom (disk : Disk) : List Path → List Path → Except Errno (Option (List Path))
  | _, [] => .ok none
  | folder, part :: rest =>
    match disk.lstat (folder ++ [part]) with
    | .ok .link => .ok (some (folder ++ [part]))
    | .ok (.folder true) => .error .permissionDenied
    | .ok _ => linkFrom disk (folder ++ [part]) rest
    | .error .notFound => .ok none
    | .error e => .error e

variable (disk : Disk)

def linkOnTheWay (target : Path) : Except Errno (Option (List Path)) :=
  linkFrom disk [] (place target)

def refuseLinkOnTheWay (target : Path) : Except Errno Unit :=
  match linkOnTheWay disk target with
  | .error e => .error e
  | .ok (some _) => .error .invalidInput
  | .ok none => .ok ()

/-- `create_replica_folders` from a folder down the parts that are left. -/
def createReplicaFolders : Disk → List Path → List Path → Disk × Except Errno Unit
  | disk, _, [] => (disk, .ok ())
  | disk, folder, part :: rest =>
    match disk.mkdir (folder ++ [part]) with
    | .ok disk => createReplicaFolders disk (folder ++ [part]) rest
    | .error .alreadyExists => createReplicaFolders disk (folder ++ [part]) rest
    | .error e => (disk, .error e)

/-- A call of the file system that fails on its own, and where it does: before a folder is
made, behind so many folders, or behind all of them. -/
inductive WriteFault
  | none
  | early
  | folders (made : Nat)
  | late
  deriving DecidableEq, Repr

/-- The part of `write_replica_file` that makes the folders. -/
def makeFolders (target : Path) : WriteFault → Disk × Except Errno Unit
  | .folders made =>
    ((createReplicaFolders disk [] ((place target).dropLast.take made)).1, .error .other)
  | _ => createReplicaFolders disk [] (place target).dropLast

/-- The part behind the folders: the temporary is written and renamed over the name. -/
def replaceReplicaFile (target : Path) (data : Bytes) : Except Errno Disk :=
  match refuseLinkOnTheWay disk target with
  | .error e => .error e
  | .ok () =>
    -- `existing_replica_permissions`: only that nothing is there may be the error
    match disk.lstat (place target) with
    | .error .notFound => disk.replace (place target) data
    | .error e => .error e
    | .ok _ => disk.replace (place target) data

/-- `write_replica_file`, with the folder as it leaves it. -/
def writeReplicaFile (target : Path) (data : Bytes) (fault : WriteFault) :
    Disk × Except Errno Unit :=
  if fault = .early then (disk, .error .other)
  else
    match refuseLinkOnTheWay disk target with
    | .error e => (disk, .error e)
    | .ok () =>
      -- the replica folder itself: its parent is not under it
      if place target = [] then (disk, .error .invalidInput)
      else
        match makeFolders disk target fault with
        | (disk, .error e) => (disk, .error e)
        | (disk, .ok ()) =>
          if fault = .late then (disk, .error .other)
          else
            match replaceReplicaFile disk target data with
            | .error e => (disk, .error e)
            | .ok disk => (disk, .ok ())

/-- The end of `remove_replica_file`: a file that is not there counts as removed. -/
def unlinkReplicaFile (target : Path) : Disk × Except Errno Unit :=
  match disk.unlink (place target) with
  | .ok disk => (disk, .ok ())
  | .error .notFound => (disk, .ok ())
  | .error e => (disk, .error e)

/-- `remove_replica_file`; a call of the file system may fail on its own. -/
def removeReplicaFile (target : Path) (fault : Bool) : Disk × Except Errno Unit :=
  if fault then (disk, .error .other)
  else
    match linkOnTheWay disk target with
    | .error e => (disk, .error e)
    | .ok (some link) =>
      if link = place target then unlinkReplicaFile disk target else (disk, .error .invalidInput)
    | .ok none => unlinkReplicaFile disk target

/-- `target.exists()`; what a link leads to is not known here. -/
def existsOnDisk (target : Path) (follow : Bool) : Bool :=
  if (place target).inits.any fun folder => disk folder = some .link then follow
  else (disk (place target)).isSome

/-! ### Blobs -/

variable (prims : Primitives) (driveKey : DriveKey)

def decryptBlob (nonce ciphertext : Bytes) : Option Bytes :=
  if h : nonce.length = 12 then prims.decrypt driveKey
    ⟨nonce.toArray, by simpa using h⟩ ciphertext else none

/-- The plaintext of a manifest's file, if its blob is there, decrypts and is what the
manifest says. -/
def verifiedPlaintext (file : ManifestFile) (blob : Option Bytes) : Option Bytes :=
  match blob with
  | none => none
  | some blob =>
    if blob.length < 12 then none
    else
      match decryptBlob prims driveKey (blob.take 12) (blob.drop 12) with
      | none => none
      | some pt =>
        if prims.blake3 pt = file.plaintextBlake3 ∧ pt.length = file.plaintextLen then
          some pt else none

/-! ### What a replica does -/

inductive ReplicaStatus
  | syncing
  | live
  deriving DecidableEq, Repr

inductive ReplicaAction
  | wrote (key : Key) (target : Path) (data : Bytes)
  /-- A path is handed to `remove_replica_file`. -/
  | removing (target : Path)
  | announced (status : ReplicaStatus)
  deriving DecidableEq, Repr

/-- What the network and the file system answer for one file of a manifest. -/
structure FileAnswer where
  /-- The blob, if the entry is found and its blob fetched. -/
  blob : Option Bytes
  /-- Whether what a link on the way leads to is there. -/
  follow : Bool
  fault : WriteFault

/-- A file of a manifest with what is answered for it. -/
abbrev ListedFile := ManifestFile × FileAnswer

/-! ### The first pass -/

structure FirstPass where
  disk : Disk
  prevFiles : DriveState
  firstPassKeys : List Key
  log : List ReplicaAction

variable (appliedState : DriveState)

/-- One turn of the loop of the first pass. -/
def firstPassFile (s : FirstPass) : ListedFile → FirstPass
  | (file, answer) =>
    match safeReplicaPath file.key with
    | none => s
    | some target =>
      let s := { s with firstPassKeys := s.firstPassKeys ++ [file.key] }
      match verifiedPlaintext prims driveKey file answer.blob with
      | none => s
      | some pt =>
        match writeReplicaFile s.disk target pt answer.fault with
        | (disk, .error _) => { s with disk := disk }
        | (disk, .ok ()) =>
          { s with
            disk := disk
            prevFiles := s.prevFiles.insert file.key file.plaintextBlake3
            log := s.log ++ [.wrote file.key target pt] }

def firstPassPending (keys : List Key) : List Key :=
  keys.filter fun key => !appliedState.keys.contains key

/-! ### The watch loop -/

def needsWrite (key : Key) (hash : Digest) (onDisk : Bool) : Bool :=
  !(onDisk && appliedState.lookup key == some hash)

def stillUnapplied (pending : List Key) : Bool :=
  !pending.isEmpty || appliedState.entries.any fun entry => entry.2.isEmpty

/-- `settle_version`: the state the next version compares against, and what is pending. -/
def settleVersion (state prev : DriveState) (applied pending : List Key) : DriveState × List Key :=
  let kept := retain (fun key => applied.contains key || prev.keys.contains key) state
  let pending := pending.filter fun key => state.keys.contains key && !applied.contains key
  let never := state.keys.filter fun key => !applied.contains key && !prev.keys.contains key
  (mapValues (fun key hash => if applied.contains key then hash else []) kept, pending ++ never)

structure Replica where
  disk : Disk
  prevFiles : DriveState
  pending : List Key
  currentVersion : Nat
  unapplied : Bool
  liveAnnounced : Bool
  /-- The files of the manifest processed last. -/
  manifest : List ManifestFile
  log : List ReplicaAction

/-- The first pass, up to where the watch begins. -/
def Replica.start (disk : Disk) (version : Option Nat) (files : List ListedFile) : Replica :=
  let s := files.foldl (firstPassFile prims driveKey) ⟨disk, ∅, [], []⟩
  let pending := firstPassPending s.prevFiles s.firstPassKeys
  { disk := s.disk, prevFiles := s.prevFiles, pending := pending, currentVersion := version.getD 1
    unapplied := stillUnapplied s.prevFiles pending, liveAnnounced := false,
    manifest := files.map (·.1)
    log := s.log }

/-- What the loop over the files of a version carries. -/
structure Applying where
  disk : Disk
  applied : List Key
  log : List ReplicaAction

/-- One turn of the loop over the files of a version. -/
def applyFile (prevFiles : DriveState) (s : Applying) : ListedFile → Applying
  | (file, answer) =>
    match safeReplicaPath file.key with
    | none => { s with applied := file.key :: s.applied }
    | some target =>
      if !needsWrite prevFiles file.key file.plaintextBlake3
        (existsOnDisk s.disk target answer.follow) then
        { s with applied := file.key :: s.applied }
      else
        match verifiedPlaintext prims driveKey file answer.blob with
        | none => s
        | some pt =>
          match writeReplicaFile s.disk target pt answer.fault with
          | (disk, .error _) => { s with disk := disk }
          | (disk, .ok ()) =>
            { disk := disk, applied := file.key :: s.applied
              log := s.log ++ [.wrote file.key target pt] }

/-- What the loop over the deletions carries. -/
structure Removing where
  disk : Disk
  undeleted : List Key
  log : List ReplicaAction

/-- One deletion. -/
def removeKey (fault : Key → Bool) (s : Removing) (key : Key) : Removing :=
  match safeReplicaPath key with
  | none => s
  | some target =>
    match removeReplicaFile s.disk target (fault key) with
    | (disk, .ok ()) => { s with disk := disk, log := s.log ++ [.removing target] }
    | (disk, .error _) =>
      { disk := disk, undeleted := s.undeleted ++ [key], log := s.log ++ [.removing target] }

/-- What happens where the loop wakes up to look at the manifest. -/
structure Wake where
  retrying : Bool
  /-- The version, if the manifest names one, and the files; none where no manifest is read. -/
  manifest : Option (Option Nat × List ListedFile)
  /-- The order of the keys applied before. -/
  order : HashOrder Key
  removeFault : Key → Bool

/-- `new_state`: the last of several entries of one key counts. -/
def stateOf (files : List ListedFile) : DriveState :=
  files.foldl (fun state listed => state.insert listed.1.key listed.1.plaintextBlake3) ∅

variable (s : Replica) (wake : Wake)

/-- The keys that were applied before and that the manifest does not list. -/
def Replica.gone (files : List ListedFile) : List Key :=
  (wake.order.iter s.prevFiles.keys).filter fun key => !(stateOf files).keys.contains key

/-- A pass behind its loop over the files. -/
def Replica.applying (files : List ListedFile) : Applying :=
  files.foldl (applyFile prims driveKey s.prevFiles) ⟨s.disk, [], s.log⟩

/-- A pass behind its deletions. -/
def Replica.removing (files : List ListedFile) : Removing :=
  let applying := s.applying prims driveKey files
  (s.gone wake files).foldl (removeKey wake.removeFault) ⟨applying.disk, [], applying.log⟩

/-- `new_state` with the keys whose deletion was refused, known with no hash. -/
def Replica.newState (files : List ListedFile) : DriveState :=
  (s.removing prims driveKey wake files).undeleted.foldl (fun state key => state.insert key [])
    (stateOf files)

/-- The part of a pass that applies a version. -/
def Replica.applyVersion (newVer : Nat) (files : List ListedFile) : Replica :=
  let removing := s.removing prims driveKey wake files
  let settled := settleVersion (s.newState prims driveKey wake files) s.prevFiles
    (s.applying prims driveKey files).applied s.pending
  { s with
    disk := removing.disk, prevFiles := settled.1, pending := settled.2, currentVersion := newVer
    unapplied := stillUnapplied settled.1 settled.2, manifest := files.map (·.1),
    log := removing.log }

/-- What the top of the loop announces, if anything. -/
def Replica.announces : Option ReplicaStatus :=
  if s.liveAnnounced then none else some (if s.unapplied then .syncing else .live)

/-- The top of the loop. -/
def Replica.top : Replica :=
  match s.announces with
  | none => s
  | some status => { s with liveAnnounced := true, log := s.log ++ [.announced status] }

/-- A pass: the manifest is read again, and applied if its version is to be taken. -/
def Replica.pass : Replica :=
  let s := { s with liveAnnounced := false, log := s.log ++ [.announced .syncing] }
  match wake.manifest with
  | none => s
  | some (version, files) =>
    let newVer := version.getD s.currentVersion
    if takesVersion s.currentVersion newVer wake.retrying then
      s.applyVersion prims driveKey wake newVer files
    else s

/-- One turn of the loop.  A retry is due only while something is unapplied. -/
def Replica.turn : Option Wake → Option Replica
  | none => some s.top
  | some wake =>
    if wake.retrying && !s.unapplied then none else some (s.top.pass prims driveKey wake)

end AeroFtp.PeerL0
