/-
What a sync leaves alone because its scans did not see it, `sync_core/scan.rs`.

A scan lists files, and names the links it did not follow and the paths it could not see.
`ScanBound::for_sync` bounds a run by these: it collects the links and unseen paths, and
then walks the prefixes of every path only the remote holds, on the local disk, until one
is not there or must not be passed.  `apply` drops the entries at and under a bounded path
on both sides.

The local disk is a function: what `symlink_metadata` says of a prefix.
-/
import AeroFtp.Sync.Compare

namespace AeroFtp.SyncCore

open Sync

/-! ### What a scan returns -/

structure LocalEntry where
  relPath : Path
  size : Nat
  mtime : Option String
  sha256 : Option String

structure RemoteEntry where
  relPath : Path
  size : Nat
  mtime : Option String
  checksumAlg : Option String
  checksumHex : Option String

/-- A symbolic link that was listed and not followed. -/
structure SkippedLink where
  relPath : Path
  linkTarget : Option String
  isDir : Option Bool

structure UnseenPath where
  relPath : Path
  reason : String
  isDir : Option Bool

structure ScanBoundaries where
  links : List SkippedLink
  unseen : List UnseenPath
  /-- The scan missed a part of the tree it cannot name. -/
  unbounded : Option String

/-! ### The bound of a run -/

structure ScanBound where
  links : List SkippedLink
  unseen : List UnseenPath
  paths : List Path
  ancestors : List Path
  refusal : Option String

def unboundedRefusal (side reason : String) : String :=
  s!"the {side} scan did not see the whole tree ({reason})"

namespace ScanBound

variable (bound : ScanBound) (rel : Path)

/-- `insert_path`, for a path that is not there yet. -/
def insertPath : ScanBound :=
  { bound with paths := rel :: bound.paths, ancestors := beforeSlashes rel ++ bound.ancestors }

def addLink (link : SkippedLink) : ScanBound :=
  if bound.paths.contains link.relPath then bound
  else { bound.insertPath link.relPath with links := bound.links ++ [link] }

def addUnseen (path : UnseenPath) : ScanBound :=
  if bound.paths.contains path.relPath then bound
  else { bound.insertPath path.relPath with unseen := bound.unseen ++ [path] }

/-- `rel` is a bounded path or sits under one. -/
def covers : Bool :=
  if bound.paths.isEmpty then false
  else bound.paths.contains rel || (beforeSlashes rel).any fun above => bound.paths.contains above

end ScanBound

/-! ### The prefixes of what only the remote holds -/

/-- `symlink_metadata` of a local path; for a link, what `read_link` and `metadata` say. -/
inductive SymlinkMetadata where
  | link (linkTarget : Option String) (isDir : Option Bool)
  | present
  /-- Not found, or below something that is no directory. -/
  | absent
  /-- Any other error. -/
  | unreadable

inductive LocalPrefix where
  | link
  | present
  | absent
  | unreadable
  deriving DecidableEq, Repr

/-- The bound so far, and the prefixes that were looked up. -/
structure PrefixWalk where
  bound : ScanBound
  onDisk : HashMap Path LocalPrefix

namespace PrefixWalk

variable (disk : Path → SymlinkMetadata)

/-- A prefix that is looked up for the first time. -/
def lookUp (w : PrefixWalk) (above : Path) : ScanBound × LocalPrefix :=
  match disk above with
  | .link linkTarget isDir => (w.bound.addLink ⟨above, linkTarget, isDir⟩, .link)
  | .present => (w.bound, .present)
  | .absent => (w.bound, .absent)
  | .unreadable => (w.bound.addUnseen ⟨above, "unreadable", some true⟩, .unreadable)

def stateOf (w : PrefixWalk) (above : Path) : PrefixWalk × LocalPrefix :=
  match w.onDisk.lookup above with
  | some state => (w, state)
  | none =>
    let (bound, state) := w.lookUp disk above
    (⟨bound, w.onDisk.insert above state⟩, state)

/-- Along the prefixes of one path, until one is not present. -/
def along (disk : Path → SymlinkMetadata) : PrefixWalk → List Path → PrefixWalk
  | w, [] => w
  | w, above :: rest =>
    let (w, state) := w.stateOf disk above
    if state = .present then w.along disk rest else w

/-- The part of a path before each slash, and the path. -/
def prefixEnds (rel : Path) : List Path := beforeSlashes rel ++ [rel]

def visit (localPaths : List Path) (w : PrefixWalk) (rel : Path) : PrefixWalk :=
  if localPaths.contains rel || w.bound.covers rel then w else w.along disk (prefixEnds rel)

end PrefixWalk

namespace ScanBound

/-- The bound before the local disk is asked. -/
def ofBoundaries (here there : ScanBoundaries) : ScanBound :=
  let refusal :=
    match there.unbounded, here.unbounded with
    | some reason, _ => some (unboundedRefusal "remote" reason)
    | none, some reason => some (unboundedRefusal "local" reason)
    | none, none => none
  (there.unseen ++ here.unseen).foldl addUnseen
    (there.links.foldl addLink ⟨[], [], [], [], refusal⟩)

/-- `here` and `there` are the boundaries of the local and of the remote scan. -/
def forSync (disk : Path → SymlinkMetadata) (localPaths remotePaths : List Path)
    (here there : ScanBoundaries) : ScanBound :=
  (remotePaths.foldl (PrefixWalk.visit disk localPaths) ⟨ofBoundaries here there, ∅⟩).bound

/-- The bound, and the entries it leaves on both sides. -/
def apply (disk : Path → SymlinkMetadata) (locals : List LocalEntry) (remotes : List RemoteEntry)
    (here there : ScanBoundaries) : ScanBound × List LocalEntry × List RemoteEntry :=
  let bound := forSync disk (locals.map (·.relPath)) (remotes.map (·.relPath)) here there
  if bound.paths.isEmpty then (bound, locals, remotes)
  else
    (bound, locals.filter fun entry => !bound.covers entry.relPath,
      remotes.filter fun entry => !bound.covers entry.relPath)

end ScanBound

end AeroFtp.SyncCore
