/-
Planning of native bulks, `transfer_bulk.rs` and `providers/bulk.rs`.

Files that share a key share one invocation of the provider's own program, within
bounds on their number, their bytes and the command line.  `planGroupsByKey` goes over
the entries once and cuts their indices into groups.

What the standard library says of a path of the host is a `HostPaths`.
-/
import AeroFtp.Sync.Paths

namespace AeroFtp.Dag

open Sync

/-- The standard library's view of local paths, and its lower case. -/
structure HostPaths where
  /-- `std::path::absolute`, where the result is text. -/
  absolute : Path → Option Path
  /-- `Path::file_name`. -/
  fileName : Path → Option Path
  /-- `Path::parent`. -/
  parent : Path → Option Path
  /-- `str::to_lowercase`. -/
  lowercase : Path → Path

/-- One file of a batch; `id` is the caller's index. -/
structure TransferEntry where
  id : Nat
  displayName : Path
  localPath : Path
  remotePath : Path
  size : Nat

def maxBulkFiles : Nat := 256

def maxBulkPathBytes : Nat := 96 * 1024

def maxBulkBytes : Nat := 128 * 1024 * 1024

def bulkCommandReserveBytes : Nat := 1024

def nodeIdArgBytes : Nat := 64

/-- `saturating_add` on 64 bits. -/
def saturatingAdd (a b : Nat) : Nat := min (a + b) (2 ^ 64 - 1)

def commandArgBytes (absoluteLocal remote : Path) : Nat :=
  saturatingAdd (max (byteLen absoluteLocal) (max (byteLen remote) nodeIdArgBytes)) 3

variable (host : HostPaths)

def HostPaths.absoluteLocalPath (path : Path) : Option Path :=
  if path = [] then none else host.absolute path

/-- `char::is_control`. -/
def isControl (c : Char) : Bool := c.toNat < 0x20 ∨ (0x7F ≤ c.toNat ∧ c.toNat ≤ 0x9F)

/-- The last component, where it keeps its spelling through the native program. -/
def plainBulkName (path : Path) : Option Path :=
  let name := lastPart path
  if name ≠ [] ∧ name ≠ ['.'] ∧ name ≠ ['.', '.'] ∧
      name.getLast? ≠ some '.' ∧ name.getLast? ≠ some ' ' ∧
      ¬ name.any (fun c => isControl c || c ∈ ['<', '>', ':', '"', '|', '?', '*', '\\']) then
    some name
  else none

def remoteParent (path : Path) : Option Path :=
  (rsplitOnce path).map fun (parent, _) => if parent = [] then ['/'] else parent

/-- Files of one direction with one key may share an invocation. -/
def groupKey (entry : TransferEntry) (upload : Bool) : Option Path := do
  let name ← plainBulkName entry.remotePath
  let absolute ← host.absoluteLocalPath entry.localPath
  if absolute.head? ≠ some '/' ∨ absolute.any (· ∈ ['*', '?', '[', '{']) then none
  else if (← host.fileName absolute) ≠ name then none
  else if upload then remoteParent entry.remotePath
  else
    let parent ← host.parent absolute
    let remote ← remoteParent entry.remotePath
    some (parent ++ '\x00' :: remote)

/-! ### The planner -/

/-- Indices into the caller's entries; one native invocation per group. -/
abbrev BulkGroups := List (List Nat)

/-- A group that still takes files, and what it has come to. -/
structure Open where
  group : Nat
  bytes : Nat
  argBytes : Nat
  names : List Path

/-- The groups so far, and for each key the one that is open. -/
structure Grouping where
  groups : BulkGroups
  opened : Path → Option Open

/-- Every remote path is written once, and every local one in any case. -/
def destinationsDistinctFrom (host : HostPaths) : List Path → List Path → List TransferEntry → Bool
  | _, _, [] => true
  | remote, locals, entry :: entries =>
    decide (entry.remotePath ∉ remote) && decide (host.lowercase entry.localPath ∉ locals) &&
      destinationsDistinctFrom host (entry.remotePath :: remote)
        (host.lowercase entry.localPath :: locals) entries

def destinationsAreDistinct (entries : List TransferEntry) : Bool :=
  destinationsDistinctFrom host [] [] entries

namespace TransferEntry

variable (host : HostPaths) (entry : TransferEntry)

/-- What the file adds to the command line. -/
def argBytes : Nat :=
  commandArgBytes ((host.absoluteLocalPath entry.localPath).getD []) entry.remotePath

/-- The name that may occur once in a group. -/
def portableName : Path := host.lowercase (lastPart entry.remotePath)

/-- Its key, unless it is too large on its own. -/
def boundedKey (keyFor : TransferEntry → Option Path) : Option Path :=
  (keyFor entry).filter fun _ =>
    entry.size ≤ maxBulkBytes ∧
      saturatingAdd bulkCommandReserveBytes (entry.argBytes host) ≤ maxBulkPathBytes

end TransferEntry

namespace Open

variable (host : HostPaths)

/-- The group takes the entry as well. -/
def admits (members : Nat) (current : Open) (entry : TransferEntry) : Bool :=
  members < maxBulkFiles ∧
    saturatingAdd current.bytes entry.size ≤ maxBulkBytes ∧
    saturatingAdd current.argBytes (entry.argBytes host) ≤ maxBulkPathBytes ∧
    ¬current.names.contains (entry.portableName host)

def add (current : Open) (entry : TransferEntry) : Open :=
  { current with
    bytes := saturatingAdd current.bytes entry.size
    argBytes := saturatingAdd current.argBytes (entry.argBytes host)
    names := entry.portableName host :: current.names }

/-- A group of one file. -/
def first (group : Nat) (entry : TransferEntry) : Open where
  group := group
  bytes := entry.size
  argBytes := saturatingAdd bulkCommandReserveBytes (entry.argBytes host)
  names := [entry.portableName host]

end Open

namespace Grouping

/-- What stays open in front of an entry with this key: without `gather` only adjacent
files are grouped. -/
def retain (gather : Bool) (st : Grouping) (key : Option Path) : Path → Option Open :=
  if gather then st.opened else fun k => if key = some k then st.opened k else none

/-- The body of the planner's loop. -/
def place (host : HostPaths) (gather : Bool) (keyFor : TransferEntry → Option Path)
    (st : Grouping) (index : Nat) (entry : TransferEntry) : Grouping :=
  let key := entry.boundedKey host keyFor
  let opened := st.retain gather key
  match key with
  | none => { groups := st.groups ++ [[index]], opened }
  | some k =>
    match (opened k).filter fun current =>
        current.admits host (st.groups.getD current.group []).length entry with
    | some current =>
      { groups := st.groups.modify current.group (· ++ [index])
        opened := Function.update opened k (some (current.add host entry)) }
    | none =>
      { groups := st.groups ++ [[index]]
        opened := Function.update opened k (some (Open.first host st.groups.length entry)) }

end Grouping

/-- The loop of the planner, over the entries from `index` on. -/
def planFrom (host : HostPaths) (gather : Bool) (keyFor : TransferEntry → Option Path) :
    Nat → Grouping → List TransferEntry → Grouping
  | _, st, [] => st
  | index, st, entry :: entries =>
    planFrom host gather keyFor (index + 1) (st.place host gather keyFor index entry) entries

def planGroupsByKey (entries : List TransferEntry)
    (keyFor : TransferEntry → Option Path) : BulkGroups :=
  (planFrom host (destinationsAreDistinct host entries) keyFor 0 ⟨[], fun _ => none⟩ entries).groups

/-! ### What becomes of a bulk's files -/

inductive TransferFailureKind where
  | timeout
  | connectionLost
  | connectionReset
  | rateLimited
  | serviceUnavailable
  | maxConnections
  | notFound
  | permissionDenied
  | invalidPath
  | localIo
  | remoteIo
  | cancelled
  | auth
  | quotaExceeded
  | fileTooLarge
  | unknown
  deriving DecidableEq, Repr

structure TransferFailure where
  kind : TransferFailureKind
  message : String
  retryable : Bool
  deriving DecidableEq

/-- A provider's error: its text, and what `transfer_failure_from_provider` makes of it. -/
structure ProviderError where
  text : String
  failure : TransferFailure

inductive BulkTransferOutcome where
  | completed
  | failed (error : ProviderError)
  | uncertain (message : String)
  | notAttempted (message : String)

def transportIsTransient : TransferFailureKind → Bool
  | .rateLimited | .serviceUnavailable | .timeout | .connectionLost | .connectionReset
  | .maxConnections => true
  | _ => false

def errorGoesBackToSingleFile (error : ProviderError) : Bool :=
  error.failure.retryable && transportIsTransient error.failure.kind

def goesBackToSingleFile : BulkTransferOutcome → Bool
  | .notAttempted _ => true
  | .failed error => errorGoesBackToSingleFile error
  | .completed | .uncertain _ => false

inductive BulkSettlement where
  | done
  | singleFile
  | failed (failure : TransferFailure)

def settleBulkOutcome (outcome : BulkTransferOutcome) : BulkSettlement :=
  if goesBackToSingleFile outcome then .singleFile
  else
    match outcome with
    | .completed => .done
    | .failed error => .failed { error.failure with retryable := false }
    -- It may already have reached the server and is never replayed.
    | .uncertain message => .failed ⟨.remoteIo, message, false⟩
    | .notAttempted _ => .singleFile

def uncertainItems (count : Nat) (message : String) : List BulkTransferOutcome :=
  List.replicate count (.uncertain message)

end AeroFtp.Dag
