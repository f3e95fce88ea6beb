/-
Publishing a drive, `drive.rs` of the peer crate.

A drive is a document: keys with an encrypted blob each, and under a key of its own the
manifest, which lists the files of a version with their lengths and hashes.  A version is
published by walking the source folder: what has changed since the last version is encrypted
and set, what is gone is deleted, and the manifest is written last.

The document is one of iroh-docs; of its operations nothing is fixed here.
-/
import AeroFtp.Lib.AssocList
import AeroFtp.Lib.Texts
import AeroFtp.Sync.Paths
import Mathlib.Data.List.Sort

namespace AeroFtp.PeerL0

open AssocList Sync Texts

abbrev Bytes := List UInt8

abbrev Key := Path

abbrev Nonce := Vector UInt8 12

abbrev DriveKey := Vector UInt8 32

/-- A BLAKE3 hash as hexadecimal text. -/
abbrev Digest := List Char

/-! ### The manifest -/

structure ManifestFile where
  key : Key
  plaintextLen : Nat
  plaintextBlake3 : Digest
  deriving DecidableEq, Repr

structure Manifest where
  driveVersion : Nat
  created : String
  fileCount : Nat
  files : List ManifestFile
  deriving DecidableEq, Repr

def manifestKey : Key := "__drive_manifest__.json".toList

/-- AES-256-GCM, BLAKE3, JSON and the documents of iroh-docs. -/
structure Primitives where
  encrypt : DriveKey → Nonce → Bytes → Bytes
  decrypt : DriveKey → Nonce → Bytes → Option Bytes
  blake3 : Bytes → Digest
  toVec : Manifest → Bytes
  Doc : Type
  /-- The live entry of the author under a key. -/
  entry : Doc → Key → Option Bytes
  setBytes : Doc → Key → Bytes → Doc
  del : Doc → Key → Doc

variable (prims : Primitives) (driveKey : DriveKey)

/-- What `encrypt_blob` gives, its two parts one behind the other. -/
def encryptBlob (nonce : Nonce) (plaintext : Bytes) : Bytes :=
  nonce.toList ++ prims.encrypt driveKey nonce plaintext

/-! ### The source folder -/

/-- What a folder holds, one entry after the other. -/
inductive Source where
  | nil
  /-- A file, with what reading it gives. -/
  | file (name : Path) (content : Option Bytes) (rest : Source)
  | folder (name : Path) (inside rest : Source)
  /-- A link, or neither a file nor a folder. -/
  | other (name : Path) (rest : Source)
  deriving Repr

structure SourceFile where
  key : Key
  content : Option Bytes
  deriving DecidableEq, Repr

/-- `rel.replace('\\', "/")`. -/
def relKey (rel : Path) : Key := rel.map fun c => if c = '\\' then '/' else c

/-- `collect_files`; `base` is the way to the folder, with its last slash. -/
def collectFiles (base : Path) : Source → List SourceFile
  | .nil => []
  | .file name content rest => ⟨relKey (base ++ name), content⟩ :: collectFiles base rest
  | .folder name inside rest =>
    collectFiles (base ++ name ++ ['/']) inside ++ collectFiles base rest
  | .other _ rest => collectFiles base rest

/-- The order of strings, which is that of their characters. -/
def keyLe : Key → Key → Bool
  | [], _ => true
  | _ :: _, [] => false
  | a :: as, b :: bs => if a = b then keyLe as bs else a.toNat < b.toNat

/-- The files to publish, sorted by their keys. -/
def Source.files (source : Source) : List SourceFile :=
  (collectFiles [] source).insertionSort fun a b => keyLe a.key b.key = true

/-! ### `publish_drive_version` -/

structure DriveStats where
  updated : Nat
  added : Nat
  deleted : Nat
  unchanged : Nat
  fileCount : Nat
  totalPt : Nat
  deriving DecidableEq, Repr

abbrev DriveState := AList fun _ : Key => Digest

inductive PublishError
  | notADirectory
  | read
  | encrypt
  | setBytes
  deriving DecidableEq, Repr

/-- What one call finds and is answered. -/
structure Publication where
  /-- The source folder; none where `--dir` is no directory. -/
  source : Option Source
  created : String
  /-- The nonces drawn for the files, by their place. -/
  nonce : Nat → Nonce
  /-- Whether the encryption of a file succeeds, and whether its `set_bytes` does. -/
  encrypted : Nat → Bool
  stored : Nat → Bool
  /-- The order of the keys of the last version, and whether `del` of a key succeeds. -/
  order : HashOrder Key
  deleted : Key → Bool
  manifestNonce : Nonce
  manifestEncrypted : Bool
  manifestStored : Bool

/-- What the loop over the files carries. -/
structure Progress where
  doc : prims.Doc
  state : DriveState
  manifestFiles : List ManifestFile
  stats : DriveStats

/-- A call that returns an error leaves the document as it is then. -/
structure PublishFailure where
  error : PublishError
  doc : prims.Doc

variable (prev : Option DriveState) (publication : Publication)

def isUnchanged (key : Key) (digest : Digest) : Bool :=
  match prev with
  | some p => p.lookup key == some digest
  | none => false

def isAdded (key : Key) : Bool :=
  match prev with
  | some p => !p.keys.contains key
  | none => true

/-- One turn of the loop, for the file at place `i`. -/
def publishFile (i : Nat) (s : Progress prims) (file : SourceFile) :
    Except (PublishFailure prims) (Progress prims) :=
  match file.content with
  | none => .error ⟨.read, s.doc⟩
  | some pt =>
    let digest := prims.blake3 pt
    let entry : ManifestFile :=
      { key := file.key, plaintextLen := pt.length, plaintextBlake3 := digest }
    let s := { s with
      state := s.state.insert file.key digest
      manifestFiles := s.manifestFiles ++ [entry]
      stats := { s.stats with totalPt := s.stats.totalPt + pt.length } }
    if isUnchanged prev file.key digest then
      .ok { s with stats := { s.stats with unchanged := s.stats.unchanged + 1 } }
    else if !publication.encrypted i then .error ⟨.encrypt, s.doc⟩
    else if !publication.stored i then .error ⟨.setBytes, s.doc⟩
    else
      .ok { s with
        doc := prims.setBytes s.doc file.key
          (encryptBlob prims driveKey (publication.nonce i) pt)
        stats :=
          if isAdded prev file.key then { s.stats with added := s.stats.added + 1 }
          else { s.stats with updated := s.stats.updated + 1 } }

def publishFiles (prev : Option DriveState) (publication : Publication) :
    Nat → Progress prims → List SourceFile → Except (PublishFailure prims) (Progress prims)
  | _, s, [] => .ok s
  | i, s, file :: rest =>
    match publishFile prims driveKey prev publication i s file with
    | .error failure => .error failure
    | .ok s => publishFiles prev publication (i + 1) s rest

/-- The keys of the last version that are gone. -/
def goneKeys (order : HashOrder Key) (state : DriveState) : List Key :=
  match prev with
  | some p => (order.iter p.keys).filter fun key => !state.keys.contains key
  | none => []

/-- The deletions: an error of one of them is ignored. -/
def deleteGone (deleted : Key → Bool) : List Key → prims.Doc → prims.Doc
  | [], doc => doc
  | key :: rest, doc => deleteGone deleted rest (if deleted key then prims.del doc key else doc)

structure Published where
  doc : prims.Doc
  stats : DriveStats
  state : DriveState
  manifest : Manifest

def publishDriveVersion (doc : prims.Doc) (publication : Publication) (version : Nat)
    (prev : Option DriveState) : Except (PublishFailure prims) (Published prims) :=
  match publication.source with
  | none => .error ⟨.notADirectory, doc⟩
  | some source =>
    let files := source.files
    let stats : DriveStats := ⟨0, 0, 0, 0, files.length, 0⟩
    match publishFiles prims driveKey prev publication 0 ⟨doc, ∅, [], stats⟩ files with
    | .error failure => .error failure
    | .ok s =>
      let gone := goneKeys prev publication.order s.state
      let doc := deleteGone prims publication.deleted gone s.doc
      let manifest : Manifest :=
        { driveVersion := version, created := publication.created
          fileCount := files.length, files := s.manifestFiles }
      if !publication.manifestEncrypted then .error ⟨.encrypt, doc⟩
      else if !publication.manifestStored then .error ⟨.setBytes, doc⟩
      else
        let blob := encryptBlob prims driveKey publication.manifestNonce (prims.toVec manifest)
        .ok { doc := prims.setBytes doc manifestKey blob
              stats := { s.stats with deleted := s.stats.deleted + gone.length }
              state := s.state
              manifest := manifest }

/-- Every file from place `i` on can be read, is encrypted and is stored. -/
def Publication.writesAll (publication : Publication) : Nat → List SourceFile → Bool
  | _, [] => true
  | i, file :: rest =>
    file.content.isSome && publication.encrypted i && publication.stored i
      && publication.writesAll (i + 1) rest

/-- Nothing of a first call fails: the folder is one, its files are written and so is the
manifest. -/
def Publication.completes : Bool :=
  match publication.source with
  | none => false
  | some source =>
    publication.writesAll 0 source.files && publication.manifestEncrypted
      && publication.manifestStored

/-! ### Calls of one author, one after the other -/

/-- The document, the state the last call has returned and the manifest it has written. -/
structure Drive where
  doc : prims.Doc
  prev : Option DriveState
  manifest : Option Manifest

/-- Before the first call. -/
def Drive.start (doc : prims.Doc) : Drive prims := ⟨doc, none, none⟩

/-- A call that returns Ok. -/
def Drive.publish (drive : Drive prims) (call : Nat × Publication) : Option (Drive prims) :=
  match publishDriveVersion prims driveKey drive.doc call.2 call.1 drive.prev with
  | .error _ => none
  | .ok published => some ⟨published.doc, some published.state, some published.manifest⟩

/-! ### `run_docs_publish` with a store -/

/-- One run of the publisher over the store. -/
structure PublishRun where
  /-- Whether `--dir` is given. -/
  dir : Bool
  republishAfter : Nat
  republishCount : Nat
  /-- What the calls meet that the run gets to before it is stopped. -/
  publications : List Publication

/-- The run is given a folder and gets its first publication through. -/
def PublishRun.publishes (run : PublishRun) : Bool :=
  run.dir && run.publications.head?.any (·.completes)

/-- The versions a run publishes: the first, then those of the republish loop.  The end of
the range is a sum of 64-bit integers. -/
def PublishRun.versions (run : PublishRun) : List Nat :=
  1 :: if 0 < run.republishAfter then List.range' 2 ((1 + run.republishCount) % 2 ^ 64 - 1)
    else []

/-- The calls of a run, each with the state the one before has returned; an error ends it. -/
def publishAll (prev : Option DriveState) (doc : prims.Doc) :
    List (Nat × Publication) → prims.Doc × List Manifest
  | [] => (doc, [])
  | (version, publication) :: rest =>
    match publishDriveVersion prims driveKey doc publication version prev with
    | .error failure => (failure.doc, [])
    | .ok published =>
      let written := publishAll (some published.state) published.doc rest
      (written.1, published.manifest :: written.2)

/-- The document after a run, and the manifests it has written. -/
def runDocsPublish (doc : prims.Doc) (run : PublishRun) : prims.Doc × List Manifest :=
  if run.dir then publishAll prims driveKey none doc (run.versions.zip run.publications)
  else (doc, [])

/-- The manifests written in the life of a drive, run after run over one store. -/
def manifestsOf (doc : prims.Doc) : List PublishRun → List Manifest
  | [] => []
  | run :: rest =>
    let written := runDocsPublish prims driveKey doc run
    written.2 ++ manifestsOf written.1 rest

/-! ### The version test of `run_docs_replicate` -/

/-- Whether the watch loop goes on with a manifest of version `newVer`. -/
def takesVersion (currentVersion newVer : Nat) (retrying : Bool) : Bool :=
  !(newVer < currentVersion || newVer == currentVersion && !retrying)

/-- The version a replica is at that was at `currentVersion` and has met these versions in its
watch loop, retrying or not. -/
def currentAfter (currentVersion : Nat) : List (Nat × Bool) → Nat
  | [] => currentVersion
  | (newVer, retrying) :: rest =>
    currentAfter (if takesVersion currentVersion newVer retrying then newVer else currentVersion)
      rest

end AeroFtp.PeerL0
