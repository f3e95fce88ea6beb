/-
The sync driver over the transfer graph, `transfer_dag_sync.rs`, and the capability
snapshot it plans by, `provider_transfer_executor.rs` and `transfer_dag/capabilities.rs`.

A sync plan is a list of transfers.  `syncBulkGroups` cuts it into groups, the work
source yields the first transfer of each group as a job, and the driver takes the jobs
as they come: on a clone worker, on the primary session, or back in a queue.  What the
outside does between two turns of the driver's loop is a `SyncEvent`: which task of the
pool ends and with what, which job the graph hands over, when the channel closes.
-/
import AeroFtp.Lib.Runs
import AeroFtp.TransferDag.Bulk

namespace AeroFtp.Dag

open Sync

/-! ### Capabilities -/

inductive Capability where
  | unsupported
  | supported
  | supportedAfterProbe
  | experimental
  deriving DecidableEq, Repr

def Capability.isAvailable : Capability → Bool
  | .supported | .supportedAfterProbe | .experimental => true
  | .unsupported => false

/-- The fields of `TransferCapabilities` that planning a sync reads. -/
structure TransferCapabilities where
  fileParallel : Capability := .unsupported
  sessionPool : Capability := .unsupported
  resumeDownload : Capability := .unsupported
  resumeUpload : Capability := .unsupported
  bulkUpload : Capability := .unsupported
  bulkDownload : Capability := .unsupported
  maxFileSlots : Option Nat := some 1
  deriving DecidableEq

inductive ProviderTransferExecutorKind where
  | lockedSingle
  | httpClonePool
  | sftpConnectionPool
  | ftpConnectionPool
  deriving DecidableEq, Repr

def isCloneBackedExecutor : ProviderTransferExecutorKind → Bool
  | .httpClonePool | .sftpConnectionPool | .ftpConnectionPool => true
  | .lockedSingle => false

def composeRuntimeTransferCapabilities (advertised : TransferCapabilities)
    (executorKind : ProviderTransferExecutorKind) (canClone : Bool) : TransferCapabilities :=
  let kindIsPool := isCloneBackedExecutor executorKind
  let canRealizeFileParallel :=
    kindIsPool && canClone && decide (advertised.fileParallel = .supported) &&
      decide (advertised.sessionPool = .supported)
  if !canRealizeFileParallel then
    { advertised with
      fileParallel := .unsupported, sessionPool := .unsupported, maxFileSlots := some 1 }
  else { advertised with maxFileSlots := some (max (advertised.maxFileSlots.getD 1) 1) }

/-! ### The plan and its workers -/

inductive DeltaPolicy where
  | disabled
  | sizeOnly
  | mtime
  | hash
  | delta
  deriving DecidableEq, Repr

inductive SyncOp where
  | upload
  | download
  deriving DecidableEq, Repr

/-- The label the report and the group keys carry. -/
def SyncOp.label : SyncOp → Path
  | .upload => ['u', 'p', 'l', 'o', 'a', 'd']
  | .download => ['d', 'o', 'w', 'n', 'l', 'o', 'a', 'd']

structure PlannedTransfer where
  rel : Path
  op : SyncOp
  total : Nat
  decisionPolicy : DeltaPolicy
  expectedSha256Hex : Option String

inductive SyncTransferLane where
  | normalPool
  | deltaExclusive
  deriving DecidableEq, Repr

variable (authorize : PlannedTransfer → Option String) (localRoot remoteRoot : Path)
variable (transfers : List PlannedTransfer) (provider : SyncProvider)
  (requestedPolicy : DeltaPolicy)

def transferLane : SyncTransferLane :=
  if requestedPolicy = .delta then .deltaExclusive else .normalPool

/-- What the provider answers while the workers are prepared: the last field says whether
the `n`-th call of `clone_for_transfer` yields a session. -/
structure SyncProvider where
  advertised : TransferCapabilities
  executorKind : ProviderTransferExecutorKind
  maxSessions : Nat
  cloneForTransfer : Nat → Bool

/-- The sessions to be cloned. -/
def SyncProvider.ceiling : Nat :=
  max (min (provider.advertised.maxFileSlots.getD provider.maxSessions) provider.maxSessions) 1

/-- The capability snapshot and the clone workers, named in the order they are cloned. -/
def prepareNormalFileWorkers : TransferCapabilities × List Nat :=
  let compose := composeRuntimeTransferCapabilities provider.advertised provider.executorKind
  if requestedPolicy = .delta ∨ ¬ isCloneBackedExecutor provider.executorKind then
    (compose false, [])
  else if provider.ceiling < 2 then (compose false, [])
  -- A partial allocation is discarded.
  else if (List.range provider.ceiling).all provider.cloneForTransfer then
    (compose true, List.range provider.ceiling)
  else (compose false, [])

/-- What a sync run is given. -/
structure SyncRun where
  host : HostPaths
  provider : SyncProvider
  policy : DeltaPolicy
  errorCorrection : Bool
  localRoot : Path
  remoteRoot : Path
  transfers : List PlannedTransfer

/-- `remote_root.trim_end_matches('/')`, a slash and the relative path. -/
def remotePathOf (remoteRoot rel : Path) : Path := trimEndSlash remoteRoot ++ '/' :: rel

/-- The entries `sync_bulk_groups` plans over. -/
def syncEntry (index : Nat) (t : PlannedTransfer) : TransferEntry where
  id := index
  displayName := t.rel
  localPath := joinClean localRoot t.rel
  remotePath := remotePathOf remoteRoot t.rel
  size := t.total

def syncEntries : List TransferEntry :=
  transfers.mapIdx (syncEntry localRoot remoteRoot)

/-- The key by which a planned transfer is admitted to a bulk. -/
def syncBulkKey (host : HostPaths) (transfers : List PlannedTransfer) (caps : TransferCapabilities)
    (policy : DeltaPolicy) (ec : Bool) (entry : TransferEntry) : Option Path := do
  let transfer ← transfers[entry.id]?
  if policy = .delta ∨ caps.sessionPool.isAvailable ∨ ec ∨ transfer.expectedSha256Hex.isSome ∨
      ¬ (validateRelativePath transfer.rel).isOk then none
  else
    let upload : Bool := transfer.op = .upload
    let cap := if upload then caps.bulkUpload else caps.bulkDownload
    let resume := if upload then caps.resumeUpload else caps.resumeDownload
    if cap ≠ .supported ∨ resume.isAvailable then none
    else (groupKey host entry upload).map fun key => transfer.op.label ++ ':' :: key

def syncBulkGroups (host : HostPaths) (transfers : List PlannedTransfer)
    (caps : TransferCapabilities) (localRoot remoteRoot : Path) (policy : DeltaPolicy) (ec : Bool) :
    BulkGroups :=
  planGroupsByKey host (syncEntries localRoot remoteRoot transfers)
    (syncBulkKey host transfers caps policy ec)

/-! ### One bulk on the primary session -/

/-- The fields of `FileOutcome` the driver writes. -/
inductive FileOutcome where
  | uploaded (bytes : Nat)
  | downloaded (bytes : Nat)
  | deleted
  | skipped (reason : String)
  | failed (error : String)
  deriving DecidableEq

/-- What the outside answers during one bulk: the error of the `n`-th round of access
checks for each transfer, and the reply of the provider. -/
structure BulkSession where
  authorize : Nat → PlannedTransfer → Option String
  reply : Except ProviderError (List BulkTransferOutcome)

/-- Every member's refusal, if one of them is refused. -/
def refusedBulkMembers : Option (List (Option FileOutcome)) :=
  if transfers.any fun t => (authorize t).isSome then
    some (transfers.map fun t => (authorize t).map FileOutcome.failed)
  else none

/-- What is reported for one file once the provider has answered. -/
def settleMember (upload : Bool)
    (transfer : PlannedTransfer) (outcome : BulkTransferOutcome) : Option FileOutcome :=
  match authorize transfer with
  | some error => some (.failed error)
  | none =>
    match settleBulkOutcome outcome with
    | .done => if upload then some (.uploaded transfer.total) else some (.downloaded transfer.total)
    | .singleFile => none
    | .failed failure => some (.failed failure.message)

/-- The directories made in front of an upload: the access checks are repeated at each. -/
def bulkDirs (remoteRoot : Path) : List PlannedTransfer → List Path
  | [] => []
  | first :: _ =>
    if first.op = .upload then
      ((remoteParent (remotePathOf remoteRoot first.rel)).map remoteDirChain).getD []
    else []

/-- What is reported once the provider has answered. -/
def settleReply
    (reply : Except ProviderError (List BulkTransferOutcome)) (transfers : List PlannedTransfer) :
    List (Option FileOutcome) :=
  match reply with
  -- The call was refused before any file reached the wire.
  | .error error =>
    if errorGoesBackToSingleFile error then
      (refusedBulkMembers authorize transfers).getD (transfers.map fun _ => none)
    else transfers.map fun _ => some (.failed error.text)
  | .ok results =>
    List.zipWith (settleMember authorize (transfers.head?.any fun first => first.op = .upload))
      transfers
      (if results.length = transfers.length then results
        else uncertainItems transfers.length
          "Bulk sync returned incomplete outcomes; destination state unknown")

/-- One outcome per transfer; `none` asks for the single-file path.  The members' access is
checked at the start, in front of each directory made, and in front of the call. -/
def performSyncBulk (session : BulkSession) (remoteRoot : Path) (transfers : List PlannedTransfer) :
    List (Option FileOutcome) :=
  let rounds := (bulkDirs remoteRoot transfers).length + 2
  ((List.range rounds).findSome? fun n => refusedBulkMembers (session.authorize n) transfers).getD
    (settleReply (session.authorize rounds) session.reply transfers)

/-! ### The driver -/

/-- A transfer node's hand-over to the driver. -/
structure TransferJob where
  transferIndex : Nat
  lane : SyncTransferLane
  deriving DecidableEq

/-- The jobs the work source and the graph hand over: the first transfer of each group. -/
def groupedJobs (groups : BulkGroups) (lane : SyncTransferLane) : List TransferJob :=
  groups.filterMap fun group => group.head?.map (⟨·, lane⟩)

/-- The driver's `HashMap` of the groups of more than one file, by their first: of two
groups with one first the later would be kept. -/
def bulkByFirst (groups : BulkGroups) (index : Nat) : Option (List Nat) :=
  (groups.filter fun group => group.length > 1).reverse.find? fun group => group.head? = some index

/-- The driver between two turns. -/
structure SyncDriver where
  /-- The idle clone workers. -/
  workers : List Nat
  /-- The tasks of the pool: each worker with the job it runs. -/
  normalJobs : List (Nat × TransferJob)
  pendingNormals : List TransferJob
  channelClosed : Bool
  /-- The jobs the graph has still to hand over. -/
  unsent : List TransferJob
  /-- The calls of `apply_sync_tree_outcome`, by the transfer's index in the plan. -/
  applied : List (Nat × FileOutcome)

/-- What the `select!` of a turn picks. -/
inductive SyncEvent where
  /-- The task at this place of the pool ends. -/
  | joined (task : Nat) (outcome : FileOutcome)
  | panicked (task : Nat)
  /-- The job at this place of the unsent ones arrives; `single` is what
  `perform_sync_transfer` returns for each transfer, should the driver call it. -/
  | received (job : Nat) (session : BulkSession) (single : Nat → FileOutcome)
  /-- Every sender is gone. -/
  | closed

/-- No worker task panics in this event. -/
def SyncEvent.Calm : SyncEvent → Prop
  | .panicked _ => False
  | _ => True

namespace SyncDriver

/-- The loop that gives queued jobs to idle workers. -/
def spawnPending : List TransferJob → List Nat → List (Nat × TransferJob) →
    List TransferJob × List Nat × List (Nat × TransferJob)
  | job :: pending, worker :: workers, jobs =>
    spawnPending pending workers (jobs ++ [(worker, job)])
  | pending, workers, jobs => (pending, workers, jobs)

variable (run : SyncRun) (groups : BulkGroups) (d : SyncDriver)

/-- The head of a turn. -/
def fill : SyncDriver :=
  match spawnPending d.pendingNormals d.workers d.normalJobs with
  | (pendingNormals, workers, normalJobs) => { d with pendingNormals, workers, normalJobs }

/-- The loop is over. -/
def done : Bool :=
  d.channelClosed && d.normalJobs.isEmpty && d.pendingNormals.isEmpty

/-- The outcomes of a bulk, each member's own or that of its single-file transfer. -/
def bulkOutcomes (group : List Nat) (session : BulkSession)
    (single : Nat → FileOutcome) : List (Nat × FileOutcome) :=
  let members := group.filterMap (run.transfers[·]?)
  (group.zip (performSyncBulk session run.remoteRoot members)).map fun (index, outcome) =>
    (index, outcome.getD (single index))

/-- A job arrives. -/
def receive (job : TransferJob) (session : BulkSession) (single : Nat → FileOutcome) : SyncDriver :=
  match job.lane with
  | .normalPool =>
    match d.workers with
    | worker :: workers => { d with workers, normalJobs := d.normalJobs ++ [(worker, job)] }
    | [] =>
      if d.normalJobs = [] then
        match bulkByFirst groups job.transferIndex with
        | some group => { d with applied := d.applied ++ bulkOutcomes run group session single }
        -- No honest clone pool was available.
        | none =>
          { d with applied := d.applied ++ [(job.transferIndex, single job.transferIndex)] }
      else { d with pendingNormals := d.pendingNormals ++ [job] }
  | .deltaExclusive =>
    { d with applied := d.applied ++ [(job.transferIndex, single job.transferIndex)] }

/-- One arm of the `select!`. -/
def select : SyncEvent → Option SyncDriver
  | .joined task outcome =>
    d.normalJobs[task]?.map fun (worker, job) =>
      { d with
        workers := d.workers ++ [worker]
        normalJobs := d.normalJobs.eraseIdx task
        applied := d.applied ++ [(job.transferIndex, outcome)] }
  | .panicked task =>
    d.normalJobs[task]?.map fun _ => { d with normalJobs := d.normalJobs.eraseIdx task }
  | .received place session single =>
    if d.channelClosed then none
    else
      d.unsent[place]?.map fun job =>
        receive run groups { d with unsent := d.unsent.eraseIdx place } job session single
  | .closed =>
    if d.channelClosed ∨ d.unsent ≠ [] then none else some { d with channelClosed := true }

/-- A turn of the loop that is not its last: what is picked, and the head of the next. -/
def turn (event : SyncEvent) : Option SyncDriver :=
  if d.done then none else (d.select run groups event).map fill

end SyncDriver

namespace SyncRun

variable (run : SyncRun)

/-- The snapshot and the workers of the run. -/
def prepared : TransferCapabilities × List Nat :=
  prepareNormalFileWorkers run.provider run.policy

def groups : BulkGroups :=
  syncBulkGroups run.host run.transfers run.prepared.1 run.localRoot run.remoteRoot run.policy
    run.errorCorrection

/-- The driver as it starts, with the jobs of all groups to come. -/
def start : SyncDriver :=
  SyncDriver.fill
    { workers := run.prepared.2
      normalJobs := []
      pendingNormals := []
      channelClosed := false
      unsent := groupedJobs run.groups (transferLane run.policy)
      applied := [] }

/-- `drive_sync_transfers_with_bulk`, as far as these events take it. -/
def drive (events : List SyncEvent) : Option SyncDriver :=
  Runs.run (SyncDriver.turn run run.groups) run.start events

end SyncRun

end AeroFtp.Dag
