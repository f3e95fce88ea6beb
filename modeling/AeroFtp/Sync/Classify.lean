/-
Classifying the pairs of two inventories, `sync.rs`.

Each pair gets a status from the two copies and, where there is an index of the last sync,
from the entry of the index that belongs to it, its baseline.  A file that one side has and
the index knows was deleted on the other side.  The rows of the report are the differences;
files that are the same on both sides are only counted, and those that are spelled in two
ways are kept apart.
-/
import AeroFtp.Sync.Compare
import Mathlib.Data.List.Sort

namespace AeroFtp.Sync

/-! ### The index -/

/-- The state of a file at the end of the last sync. -/
structure SyncIndexEntry where
  size : Nat
  modified : Option DateTime
  isDir : Bool
  uploadedAt : Option DateTime
  deriving DecidableEq

/-- `UNSETTLED_BASELINE`: the epoch, for an upload that never settled. -/
def unsettledBaseline : DateTime := 0

structure SyncIndex where
  files : HashMap Path SyncIndexEntry
  remoteSpellings : HashMap Path Path
  unverifiedKeys : List Path

variable (index : SyncIndex) (nfc : Nfc)

/-- The remote path a key of the index was recorded with. -/
def SyncIndex.recordedPath (key : Path) : Path := (index.remoteSpellings.lookup key).getD key

structure FileComparison where
  baselineKey : Option Path
  localRelativePath : Option Path
  remoteRelativePath : Option Path
  nameMatchBlocked : Bool
  relativePath : Path
  status : SyncStatus
  localInfo : Option FileInfo
  remoteInfo : Option FileInfo
  isDir : Bool
  syncReason : String
  previouslySynced : Bool
  deriving DecidableEq

structure CompareSummary where
  examinedCount : Nat
  identicalCount : Nat
  examinedBytes : Nat
  identicalBytes : Nat
  deriving DecidableEq

structure CompareReport where
  differences : List FileComparison
  summary : CompareSummary
  modifyWindow : ModifyWindow
  mirrored : List FileComparison

/-! ### The baseline of a pair -/

/-- The NFC of a path: that of its names. -/
def nfcPath (path : Path) : Path := ['/'].intercalate ((splitSlash path).map nfc.form)

/-- `index_keys_by_nfc(index).get(&nfc)`: the keys with that form. -/
def indexKeysByNfc (index : SyncIndex) (form : Path) : List Path :=
  index.files.keys.filter (nfcPath nfc · = form)

/-- `index_by_remote.get(remote)`: the keys recorded with that remote path. -/
def indexByRemote (remote : Path) : List Path :=
  index.files.keys.filter (index.recordedPath · = remote)

/-- The paths of an inventory, with the folders they are in. -/
def inventoryPrefixes (files : Inventory) : List Path :=
  files.keys.flatMap fun key => key :: beforeSlashes key

/-- The loop of `alias_has_other_owner`, with the path so far. -/
def otherOwnerFrom (prefixes : List Path) : Path → List (Path × Path) → Bool
  | _, [] => false
  | above, (candidate, actual) :: rest =>
    (candidate ≠ actual && prefixes.contains (join above candidate)) ||
      otherOwnerFrom prefixes (join above candidate) rest

/-- Something else has the place of the alias, where it is spelled differently. -/
def aliasHasOtherOwner («alias» paired : Path) (prefixes : List Path) : Bool :=
  otherOwnerFrom prefixes [] ((splitSlash «alias»).zip (splitSlash paired))

def verified (key : Path) : Option Path :=
  if index.unverifiedKeys.contains key then none else some key

/-- The key of the index that may prove that a pair was synced. -/
def trustedBaselineKey (index : SyncIndex) (localPath remotePath : Path) : Option Path :=
  if localPath ∈ index.files then verified index localPath
  else
    match indexKeysByNfc nfc index (nfcPath nfc remotePath) with
    | [key] => verified index key
    | _ => none

/-- The key a pair selects: one that only the remote has goes by its recorded remote path. -/
def selectedKey (index : SyncIndex) (pair : Pair) (l r : Option FileInfo) : Option Path :=
  if l.isNone && r.isSome then
    match indexByRemote index pair.remotePath with
    | [] => trustedBaselineKey nfc index pair.localPath pair.remotePath
    | [key] => verified index key
    | _ => none
  else trustedBaselineKey nfc index pair.localPath pair.remotePath

/-- The key belongs to the pair, and not to another file. -/
def ownsKey (localPrefixes remotePrefixes : List Path) (pair : Pair) (r : Option FileInfo)
    (key : Path) : Bool :=
  let recorded := index.remoteSpellings.lookup key
  if r.isSome && recorded.any (· ≠ pair.remotePath) then false
  else
    recorded = some pair.remotePath || key = pair.localPath || key = pair.remotePath ||
      (!aliasHasOtherOwner key pair.localPath localPrefixes
        && !aliasHasOtherOwner key pair.remotePath remotePrefixes)

section
variable (nfc : Nfc) (now : DateTime) (locals remotes : Inventory) (options : CompareOptions)
  (index : Option SyncIndex)

variable (pair : Pair) (l r : Option FileInfo)

def baselineKey : Option Path :=
  index.bind fun idx =>
    (selectedKey nfc idx pair l r).filter
      (ownsKey idx (inventoryPrefixes locals) (inventoryPrefixes remotes) pair r)

/-! ### The status of a pair -/

/-- The local file is not the one of the baseline. -/
def localChangedSince (l : FileInfo) (cached : SyncIndexEntry) (compareSize : Bool) : Bool :=
  (compareSize && l.size ≠ cached.size) ||
    (l.modified.isSome && cached.modified.isSome
      && !timestampsEqual l.modified cached.modified .ofLocal)

/-- The remote date is the one the server put on our own upload. -/
def stampedByOurUpload : Option DateTime → Option DateTime → Option DateTime → Bool
  | some remote, some baseline, some uploadedAt =>
    baseline ≠ unsettledBaseline && remote > baseline && remote ≤ uploadedAt
  | _, _, _ => false

/-- The remote file is not the one of the baseline. -/
def remoteChangedSince (r : FileInfo) (cached : SyncIndexEntry) : Bool :=
  (options.compareSize && r.size ≠ cached.size) ||
    (r.modified.isSome && cached.modified.isSome
      && !timestampsEqual r.modified cached.modified options.modifyWindow &&
      !stampedByOurUpload r.modified cached.modified cached.uploadedAt)

/-- The status against the baseline, of two files. -/
def statusAgainst (l r : FileInfo) (cached : SyncIndexEntry) : SyncStatus :=
  match localChangedSince l cached options.compareSize, remoteChangedSince options r cached with
  | true, true => .conflict
  | false, false => .identical
  | true, false => .localNewer
  | false, true => .remoteNewer

/-- The status of a pair that both sides have, with an index. -/
def statusWithIndex (l r : FileInfo) (cached : Option SyncIndexEntry) : SyncStatus :=
  if l.isDir ≠ r.isDir then .conflict
  else if l.isDir && r.isDir then .identical
  else if options.compareChecksum && compareFilePair options (some l) (some r) = .conflict
    then .conflict
  else if cached.all (·.modified ≠ some unsettledBaseline) && currentPairConverged l r options then
    .identical
  else
    match cached with
    | some cached => statusAgainst options l r cached
    | none => compareFilePair options (some l) (some r)

def pairStatus : SyncStatus :=
  if pair.blocked then .conflict
  else
    match index, l, r with
    | some idx, some l, some r =>
      statusWithIndex options l r
        ((baselineKey nfc locals remotes index pair (some l) (some r)).bind idx.files.lookup)
    | _, l, r => compareFilePair options l r

/-! ### The report -/

/-- The bytes at stake: those of the larger side, and none for a directory. -/
def comparePathBytes : Nat :=
  let side := fun info : Option FileInfo => info.elim 0 fun f => if f.isDir then 0 else f.size
  max (side l) (side r)

/-- The pair is passed over: its path is not accepted, it is left out, or it is filtered. -/
def passedOver : Bool :=
  !accepted pair.localPath || leavesOut options pair.localPath pair.remotePath
    ((l.or r).any (·.isDir)) || shouldFilter now l options || shouldFilter now r options

/-- The row of a pair that is examined. -/
def comparison : FileComparison :=
  let isDir := l.any (·.isDir) || r.any (·.isDir)
  let key := baselineKey nfc locals remotes index pair l r
  let status := pairStatus nfc locals remotes options index pair l r
  { baselineKey := key
    localRelativePath := some pair.localPath
    remoteRelativePath := some pair.remotePath
    nameMatchBlocked := pair.blocked
    relativePath := pair.localPath
    status
    localInfo := l
    remoteInfo := r
    isDir
    syncReason := generateSyncReason status l r isDir
    previouslySynced := key.isSome }

/-- What a pair has on the local side. -/
abbrev Pair.localInfo : Option FileInfo := pair.localKey.bind locals.lookup

abbrev Pair.remoteInfo : Option FileInfo := pair.remoteKey.bind remotes.lookup

/-- The row of a pair, where it is examined. -/
def examine : Option FileComparison :=
  let l := pair.localInfo locals
  let r := pair.remoteInfo remotes
  if passedOver now options pair l r then none else
    some (comparison nfc locals remotes options index pair l r)

end

/-- A file that is the same on both sides is not shown. -/
def FileComparison.shown (row : FileComparison) : Bool := row.status ≠ .identical || row.isDir

/-- One file under two names, which is not shown. -/
def FileComparison.isMirrored (row : FileComparison) : Bool :=
  !row.shown && !row.nameMatchBlocked && row.localRelativePath ≠ row.remoteRelativePath

/-- `a.saturating_add(b)`, of `u64`. -/
def addBytes (a b : Nat) : Nat := min (a + b) (2 ^ 64 - 1)

def CompareSummary.count (summary : CompareSummary) (row : FileComparison) : CompareSummary :=
  let atStake := comparePathBytes row.localInfo row.remoteInfo
  { examinedCount := summary.examinedCount + 1
    examinedBytes := addBytes summary.examinedBytes atStake
    identicalCount := if row.status = .identical then summary.identicalCount + 1 else
      summary.identicalCount
    identicalBytes := if row.status = .identical then addBytes summary.identicalBytes atStake else
      summary.identicalBytes }

/-- One turn of the loop, for a pair that is examined. -/
def CompareReport.add (report : CompareReport) (row : FileComparison) : CompareReport :=
  { report with
    differences := if row.shown then report.differences ++ [row] else report.differences
    mirrored := if row.isMirrored then report.mirrored ++ [{ row with syncReason := "" }] else
      report.mirrored
    summary := report.summary.count row }

section
variable (nfc : Nfc) (now : DateTime) (locals remotes : Inventory) (options : CompareOptions)
  (index : Option SyncIndex)

def classifyPairs (pairs : List Pair) : CompareReport :=
  let report := (pairs.filterMap (examine nfc now locals remotes options index)).foldl
    CompareReport.add ⟨[], ⟨0, 0, 0, 0⟩, options.modifyWindow, []⟩
  { report with
    differences := report.differences.insertionSort fun a b =>
      (compare a.relativePath b.relativePath).isLE }

/-- The report, where pairing ends. -/
def classifyWithSummary (fuel : Nat) : Option CompareReport :=
  (pairPaths nfc locals remotes fuel).map (classifyPairs nfc now locals remotes options index)

end

end AeroFtp.Sync
