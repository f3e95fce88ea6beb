/-
Comparing the two copies of a file, `sync.rs` and `sync_core/mtime.rs`.

Times are compared within a window of seconds, or not at all where a side keeps none that
can be compared.  The patterns that leave a path out are matched by a glob library, and are
a parameter of the options; so is the folder of the backups, read and checked.
-/
import AeroFtp.Sync.Names

namespace AeroFtp.Sync

inductive SyncStatus
  | identical
  | localNewer
  | remoteNewer
  | localOnly
  | remoteOnly
  | conflict
  | sizeMismatch
  deriving DecidableEq

/-! ### Times -/

inductive SizeOnlyReason
  | ftpListDates
  | noComparableTime
  deriving DecidableEq

/-- How the modification times of two stores compare. -/
inductive ModifyWindow
  | seconds (secs : Nat)
  | sizeOnly (reason : SizeOnlyReason)
  deriving DecidableEq

namespace ModifyWindow

/-- `ModifyWindow::LOCAL`: two local clocks. -/
def ofLocal : ModifyWindow := seconds 2

def comparesTimes : ModifyWindow → Bool
  | seconds _ => true
  | sizeOnly _ => false

/-- Two Unix times; they are the same inside the window. -/
def order : ModifyWindow → Option Int → Option Int → Option Ordering
  | seconds secs, some a, some b =>
    if (a - b).natAbs ≤ min secs (2 ^ 63 - 1) then some .eq else some (compare a b)
  | _, _, _ => none

end ModifyWindow

/-- `t.timestamp()`: the second a time is in. -/
def timestamp (t : DateTime) : Int := t / 1000000000

def timestampsEqual (l r : Option DateTime) (window : ModifyWindow) : Bool :=
  if !window.comparesTimes then true
  else
    match l, r with
    | some l, some r => window.order (some (timestamp l)) (some (timestamp r)) = some .eq
    | none, none => true
    | _, _ => false

def compareTimestamps (l r : Option DateTime) (window : ModifyWindow) : Option SyncStatus :=
  match window.order (l.map timestamp) (r.map timestamp) with
  | some .gt => some .localNewer
  | some .lt => some .remoteNewer
  | _ => none

/-! ### The options of a comparison -/

structure CompareOptions where
  compareTimestamp : Bool
  compareSize : Bool
  compareChecksum : Bool
  strictChecksum : Bool
  /-- The exclude list with the rules of `.aeroignore`, for a path that is a directory or not. -/
  excludesPath : Path → Bool → Bool
  minSize : Option Nat
  maxSize : Option Nat
  minAgeSecs : Option Nat
  maxAgeSecs : Option Nat
  backupDir : Option Path
  modifyWindow : ModifyWindow

/-- `trim_start_matches("./")`. -/
def trimStartDots : Path → Path
  | '.' :: '/' :: rest => trimStartDots rest
  | path => path

def isBackupPath (rel dir : Path) : Bool :=
  let rel := trimStartSlash (trimStartDots rel)
  rel = dir || (dir ++ ['/']).isPrefixOf rel

/-- `path.match_indices('/')`, each as what is before it. -/
def beforeSlashes (path : Path) : List Path :=
  (List.range path.length).filterMap fun i => if path[i]? = some '/' then
    some (path.take i) else none

def isBackupAncestor (rel dir : Path) : Bool :=
  let rel := trimEndSlash (trimStartSlash (trimStartDots rel))
  rel ≠ [] && (beforeSlashes dir).contains rel

variable (options : CompareOptions) (l r : FileInfo)

/-- The comparison does not look at this pair: it is excluded, or it is a backup. -/
def leavesOut (localPath remotePath : Path) (isDir : Bool) : Bool :=
  options.excludesPath localPath isDir || options.excludesPath remotePath isDir ||
    options.backupDir.any fun dir =>
      [localPath, remotePath].any fun p => isBackupPath p dir || (isDir && isBackupAncestor p dir)

/-- The file is outside the limits of size and age. -/
def shouldFilter (now : DateTime) (info : Option FileInfo) (options : CompareOptions) : Bool :=
  info.any fun f =>
    options.minSize.any (fun min => !f.isDir && f.size < min) ||
    options.maxSize.any (fun max => !f.isDir && f.size > max) ||
    f.modified.any fun modified =>
      let age := ((now - modified).tdiv 1000000000).toNat
      options.minAgeSecs.any (age < ·) || options.maxAgeSecs.any (age > ·)

/-! ### Two copies -/

/-- What the checksums say, where they decide. -/
def checksumVerdict : Option SyncStatus :=
  if !options.compareChecksum then none
  else
    match l.checksum, r.checksum with
    | some a, some b =>
      if a = b then some .identical
      else if options.compareTimestamp then
        some ((compareTimestamps l.modified r.modified options.modifyWindow).getD .conflict)
      else some .conflict
    | _, _ => if options.strictChecksum then some .conflict else none

/-- What sizes and times say. -/
def metadataVerdict : SyncStatus :=
  let bothTimestampsPresent := options.modifyWindow.comparesTimes && l.modified.isSome
    && r.modified.isSome
  if options.compareSize && l.size ≠ r.size then
    if options.compareTimestamp && bothTimestampsPresent then
      (compareTimestamps l.modified r.modified options.modifyWindow).getD .sizeMismatch
    else .sizeMismatch
  else if options.compareTimestamp then
    if !bothTimestampsPresent then .identical
    else if timestampsEqual l.modified r.modified options.modifyWindow then .identical
    else (compareTimestamps l.modified r.modified options.modifyWindow).getD .identical
  else .identical

def compareFilePair : Option FileInfo → Option FileInfo → SyncStatus
  | none, none => .identical
  | some _, none => .localOnly
  | none, some _ => .remoteOnly
  | some l, some r =>
    if l.isDir ≠ r.isDir then .conflict
    else if l.isDir && r.isDir then .identical
    else (checksumVerdict options l r).getD (metadataVerdict options l r)

def toAsciiLowercase (s : String) : List Char := s.toList.map Char.toLower

def eqIgnoreAsciiCase (a b : String) : Bool := toAsciiLowercase a = toAsciiLowercase b

def isAsciiHexdigit (c : Char) : Bool :=
  c.isDigit || ('a' ≤ c && c ≤ 'f') || ('A' ≤ c && c ≤ 'F')

/-- The length of a checksum in hexadecimal digits. -/
def checksumLen (algorithm : String) : Option Nat :=
  let name := toAsciiLowercase algorithm
  if name = "sha256".toList ∨ name = "sha-256".toList then some 64
  else if name = "sha1".toList ∨ name = "sha-1".toList then some 40
  else if name = "md5".toList then some 32
  else none

/-- Two checksums of one known algorithm, well formed and the same. -/
def sameChecksum (left right : String) : Bool :=
  match l.checksumAlg, r.checksumAlg with
  | some a, some b =>
    (checksumLen a).any fun len =>
      eqIgnoreAsciiCase a b && left.utf8ByteSize = len && right.utf8ByteSize = len &&
        left.toList.all isAsciiHexdigit && right.toList.all isAsciiHexdigit
          && eqIgnoreAsciiCase left right
  | _, _ => false

/-- Positive evidence that the two copies are the same. -/
def currentPairConverged (options : CompareOptions) : Bool :=
  if l.isDir || r.isDir then l.isDir && r.isDir
  else
    let byMetadata := options.compareSize && options.compareTimestamp
      && options.modifyWindow.comparesTimes && l.size = r.size &&
        match l.modified, r.modified with
        | some a, some b => timestamp a = timestamp b
        | _, _ => false
    if options.compareChecksum then
      match l.checksum, r.checksum with
      | some left, some right => sameChecksum l r left right
      | _, _ => if options.strictChecksum then false else byMetadata
    else byMetadata

/-! ### Words for a row -/

def formatDuration (secs : Int) : String :=
  let abs := secs.natAbs
  if abs < 60 then toString abs ++ "s"
  else if abs < 3600 then toString (abs / 60) ++ "m " ++ toString (abs % 60) ++ "s"
  else if abs < 86400 then toString (abs / 3600) ++ "h " ++ toString (abs % 3600 / 60) ++ "m"
  else toString (abs / 86400) ++ "d " ++ toString (abs % 86400 / 3600) ++ "h"

/-- What is said of the newer copy, against the older one; the sizes are in the order local,
remote. -/
def newerReason (side : String) (newer older : FileInfo) (l r : FileInfo) : String :=
  let age :=
    match newer.modified, older.modified with
    | some n, some o =>
      let diffSecs := (n - o).tdiv 1000000000
      if diffSecs > 0 then [side ++ " is " ++ formatDuration diffSecs ++ " newer"] else []
    | _, _ => []
  let size := if l.size ≠ r.size then
    ["size: " ++ toString l.size ++ " vs " ++ toString r.size ++ " bytes"] else []
  if age ++ size = [] then side ++ " file is newer" else ", ".intercalate (age ++ size)

/-- What is said of a file that one side has. -/
def onlyReason («where» : String) : Option FileInfo → String
  | some info =>
    if info.isDir then "Directory exists only " ++ «where»
    else "File exists only " ++ «where» ++ " (" ++ toString info.size ++ " bytes)"
  | none => "File exists only " ++ «where»

def generateSyncReason (status : SyncStatus) (localInfo remoteInfo : Option FileInfo)
    (isDir : Bool) : String :=
  if isDir ∧ status = .identical then "Directory"
  else
    match status, localInfo, remoteInfo with
    | .identical, _, _ => "Files are identical"
    | .localNewer, some l, some r => newerReason "Local" l r l r
    | .localNewer, _, _ => "Local file is newer"
    | .remoteNewer, some l, some r => newerReason "Remote" r l l r
    | .remoteNewer, _, _ => "Remote file is newer"
    | .localOnly, l, _ => onlyReason "locally" l
    | .remoteOnly, _, r => onlyReason "on remote" r
    | .conflict, some l, some r =>
      let sizes :=
        if l.size ≠ r.size then
          ["local: " ++ toString l.size ++ " bytes, remote: " ++ toString r.size ++ " bytes"]
        else []
      let checksums :=
        match l.checksum, r.checksum with
        | some a, some b => if a ≠ b then ["checksums differ"] else []
        | _, _ => []
      ", ".intercalate ("Both modified since last sync" :: sizes ++ checksums)
    | .conflict, _, _ => "Both files have been modified since last sync"
    | .sizeMismatch, some l, some r =>
      "Same timestamp but different size (local: " ++ toString l.size ++ " bytes, remote: "
        ++ toString r.size ++ " bytes)"
    | .sizeMismatch, _, _ => "Same timestamp but different file size"

end AeroFtp.Sync
