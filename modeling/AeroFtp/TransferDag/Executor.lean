/-
The ready-frontier executor of the transfer graph, `transfer_dag/executor.rs`.

`execute_dag_with_options` is one loop.  A turn looks at the cancel token, fills the
dispatch window from the ready queue, ends if nothing is resident, and otherwise waits
for one task.  What the outside does in a turn is a `Turn`: whether the token is
cancelled, whether the grace has passed, and which task is joined with what, in any
order.  A resident task is named by its node.

The log records what the observer is told and what the executor learns.  The AIMD
controller, the timings and the permits do not act on the schedule and are left out;
a node timeout is an outcome `failed`.
-/
import AeroFtp.Lib.AssocList
import AeroFtp.Lib.Runs
import AeroFtp.TransferDag.Graph
import Mathlib.Data.List.Sort

namespace AeroFtp.Dag

open AssocList

/-! ### What a node and a run can end with -/

inductive TransferErrorKind where
  | rateLimited
  | serviceUnavailable
  | timeout
  | maxConnections
  | connectionReset
  | network
  | auth
  | notFound
  | permissionDenied
  | quotaExceeded
  | fileTooLarge
  | cancelled
  | localIo
  | remoteIo
  | notConnected
  | resourceAcquire
  | unknown
  deriving DecidableEq, Repr

/-- A typed error; the executor reads its kind. -/
structure TransferError where
  kind : TransferErrorKind
  message : String
  deriving DecidableEq, Repr

def TransferError.cancelled : TransferError := ⟨.cancelled, "Transfer cancelled by user"⟩

/-- The outcome of running one node. -/
inductive NodeOutcome where
  | completed
  | fallback
  | copyFallback
  | fileFailedButGraphContinues (error : TransferError)
  | failed (error : TransferError)
  deriving DecidableEq, Repr

/-- Whether a node that ends so counts as satisfied for the nodes that wait for it. -/
def NodeOutcome.releases : NodeOutcome → Bool
  | .completed | .fallback | .fileFailedButGraphContinues _ => true
  | .copyFallback | .failed _ => false

inductive ObservedOutcome where
  | completed
  | fallback
  | failed
  | cancelled
  deriving DecidableEq, Repr

/-- How a typed error is reported to the observer. -/
def TransferError.observed (error : TransferError) : ObservedOutcome :=
  if error.kind = .cancelled then .cancelled else .failed

/-- Why a run stopped; an id of `none` is the sentinel `usize::MAX`. -/
inductive DagExecutionError where
  | nodeFailed (nodeId : Option Nat) (error : TransferError)
  | unschedulable (nodeId : Nat) (message : String)
  | stuck (pending : Nat)
  | taskPanicked (nodeId : Nat) (message : String)
  deriving DecidableEq, Repr

structure DagExecutionSummary where
  nodesCompleted : UInt32 := 0
  nodesFailed : UInt32 := 0
  fallbackCount : UInt32 := 0
  slotPeak : UInt32 := 0
  rangeFallbacks : UInt32 := 0
  copyFallbacks : UInt32 := 0
  deriving DecidableEq, Repr

/-! ### The dependency index -/

/-- `Vec::dedup`: of equal neighbours only one is kept. -/
def dedupNeighbours : List Nat → List Nat
  | a :: b :: rest =>
    if a = b then dedupNeighbours (b :: rest) else a :: dedupNeighbours (b :: rest)
  | l => l

/-- The predecessors of a node, each once. -/
def uniquePreds (dependsOn : List Nat) : List Nat :=
  dedupNeighbours (dependsOn.insertionSort (· ≤ ·))

/-- How many predecessors each node still waits for, and who waits for each node. -/
structure DepIndex where
  remainingDeps : List Nat
  dependents : List (List Nat)
  deriving DecidableEq, Repr

/-- Enter a node into the index of a graph of `n` nodes; a predecessor out of range is
counted and has nobody to release it. -/
def DepIndex.addNode (n : Nat) (index : DepIndex) (node : TransferNode) : DepIndex where
  remainingDeps := index.remainingDeps ++ [(uniquePreds node.dependsOn).length]
  dependents := (uniquePreds node.dependsOn).foldl
    (fun dependents dep =>
      if dep < n then dependents.modify dep (· ++ [node.id]) else dependents)
    index.dependents

/-- The index of a graph. -/
def TransferDag.index (dag : TransferDag) : DepIndex :=
  dag.nodes.foldl (DepIndex.addNode dag.nodes.length) ⟨[], List.replicate dag.nodes.length []⟩

/-- The loop of `release_dependents` over the children of a node. -/
def releaseChildren : List Nat → List Nat × List Nat → List Nat × List Nat
  | [], state => state
  | child :: rest, (remainingDeps, ready) =>
    if child ≥ remainingDeps.length then releaseChildren rest (remainingDeps, ready)
    else
      let rem := remainingDeps.getD child 0
      if rem = 0 then releaseChildren rest (remainingDeps, ready)
      else
        releaseChildren rest
          (remainingDeps.set child (rem - 1), if rem - 1 = 0 then ready ++ [child] else ready)

/-- After a completion, count down for each child and enqueue those that are satisfied. -/
def releaseDependents (id : Nat) (dependents : List (List Nat)) (remainingDeps ready : List Nat) :
    List Nat × List Nat :=
  if id ≥ dependents.length then (remainingDeps, ready)
  else releaseChildren (dependents.getD id []) (remainingDeps, ready)

/-! ### The state of a run -/

/-- What happens in a run: the observer's calls, and what the executor learns. -/
inductive DagEvent where
  /-- `on_node_start`. -/
  | start (id : Nat) (kind : TransferNodeKind)
  /-- `on_node_complete`. -/
  | complete (id : Nat) (observed : ObservedOutcome)
  /-- A task was joined with an outcome. -/
  | joined (id : Nat) (outcome : NodeOutcome)
  /-- A task was joined with a cancelled `JoinError`. -/
  | aborted (id : Nat)
  /-- A task was joined with a panic. -/
  | panicked (id : Nat)
  /-- The cancel token was found cancelled. -/
  | cancelSeen
  deriving DecidableEq, Repr

/-- `HashSet::insert`, in the order of insertion. -/
def insertNew (l : List Nat) (a : Nat) : List Nat := if a ∈ l then l else l ++ [a]

/-- The local state of `execute_dag_with_options`. -/
structure DagState where
  ready : List Nat
  remainingDeps : List Nat
  started : List Nat := []
  completed : List Nat := []
  /-- Nodes that have already received `on_node_complete`. -/
  terminalNotified : List Nat := []
  /-- The nodes whose tasks are in the `JoinSet`. -/
  resident : List Nat := []
  failed : Option (Option Nat × TransferError) := none
  copyTransition : Bool := false
  terminalError : Option DagExecutionError := none
  /-- `fail_fast_deadline` is set. -/
  failFast : Bool := false
  forceAborted : Bool := false
  summary : DagExecutionSummary := {}
  log : List DagEvent := []
  /-- What the function returned. -/
  result : Option (Except DagExecutionError DagExecutionSummary) := none

/-- Which task is joined in a turn, or which clock runs out first. -/
inductive Joined where
  | finished (id : Nat) (outcome : NodeOutcome)
  | aborted (id : Nat)
  | panicked (id : Nat) (message : String)
  /-- The grace passed while waiting. -/
  | graceOver
  /-- The ceiling of the drain passed while waiting. -/
  | drainOver
  deriving DecidableEq, Repr

/-- What the outside does in one turn of the loop. -/
structure Turn where
  cancelled : Bool
  pastGrace : Bool
  joined : Joined
  deriving DecidableEq, Repr

namespace DagState

variable (dag : TransferDag) (s : DagState) (id : Nat)

/-- An external cancel is taken as the first error. -/
def observeCancel (cancelled : Bool) : DagState :=
  if s.failed.isNone ∧ cancelled then
    { s with
      failed := some (none, .cancelled)
      failFast := true
      log := s.log ++ [.cancelSeen] }
  else s

/-- Spawn the task of a node. -/
def dispatch : DagState :=
  match dag.nodes[id]? with
  | some node =>
    { s with
      started := s.started ++ [id]
      resident := s.resident ++ [id]
      log := s.log ++ [.start node.id node.kind] }
  | none => s

/-- Fill the window from the ready queue. -/
def fill (dag : TransferDag) (window : Nat) : List Nat → DagState → DagState
  | [], s => { s with ready := [] }
  | id :: rest, s =>
    if s.resident.length < window then
      -- A node should only enqueue once.
      if id ∈ s.started then fill dag window rest s
      else fill dag window rest (s.dispatch dag id)
    else { s with ready := id :: rest }

/-- The dispatch step of a turn; nothing is launched after a failure or a copy fallback. -/
def dispatchStep (dag : TransferDag) (window : Nat) (s : DagState) : DagState :=
  if s.failed.isNone ∧ s.copyTransition = false then
    let s := fill dag window s.ready s
    { s with summary.slotPeak := max s.summary.slotPeak (UInt32.ofNat s.resident.length) }
  else s

/-- Mark a node as notified and tell the observer. -/
def notify (observed : ObservedOutcome) : DagState :=
  { s with
    terminalNotified := insertNew s.terminalNotified id
    log := s.log ++ [.complete id observed] }

/-- Release the nodes that wait for `id`, unless the run has failed. -/
def release : DagState :=
  if s.failed.isNone then
    let released := releaseDependents id dag.index.dependents s.remainingDeps s.ready
    { s with remainingDeps := released.1, ready := released.2 }
  else s

/-- The outcome of a joined task. -/
def settle (outcome : NodeOutcome) : DagState :=
  match outcome with
  | .completed =>
    let s := { s with
      summary.nodesCompleted := s.summary.nodesCompleted + 1
      completed := insertNew s.completed id }
    (s.notify id .completed).release dag id
  | .fallback =>
    let s := { s with
      summary.nodesCompleted := s.summary.nodesCompleted + 1
      summary.fallbackCount := s.summary.fallbackCount + 1
      summary.rangeFallbacks := s.summary.rangeFallbacks + 1
      completed := insertNew s.completed id }
    (s.notify id .fallback).release dag id
  | .copyFallback =>
    let s := { s with
      summary.nodesCompleted := s.summary.nodesCompleted + 1
      summary.fallbackCount := s.summary.fallbackCount + 1
      summary.copyFallbacks := s.summary.copyFallbacks + 1
      completed := insertNew s.completed id }
    { s.notify id .fallback with copyTransition := true }
  | .fileFailedButGraphContinues error =>
    let s := { s with
      summary.nodesFailed := s.summary.nodesFailed + 1
      completed := insertNew s.completed id }
    (s.notify id error.observed).release dag id
  | .failed error =>
    let s := { s with summary.nodesFailed := s.summary.nodesFailed + 1 }
    let s := s.notify id error.observed
    if s.failed.isNone then { s with failed := some (some id, error), failFast := true } else s

/-- A task that was cancelled: its output is lost, its node is closed. -/
def closeAborted : DagState :=
  if id ∈ s.terminalNotified then s
  else
    let s := { s with summary.nodesFailed := s.summary.nodesFailed + 1 }
    let s := s.notify id .cancelled
    if s.failed.isNone then { s with failed := some (some id, .cancelled) } else s

/-- Tell the observer of each of `ids` that is still open. -/
def notifyOpen (observed : ObservedOutcome) : List Nat → DagState → DagState
  | [], s => s
  | id :: ids, s =>
    if id ∈ s.terminalNotified then notifyOpen observed ids s
    else
      let s := { s with summary.nodesFailed := s.summary.nodesFailed + 1 }
      notifyOpen observed ids (s.notify id observed)

variable (order : HashOrder Nat) (s : DagState)

/-- Behind the loop: close every started node that is open, and return. -/
def finish : DagState :=
  let opened := (order.iter s.started).filter fun id => id ∉ s.terminalNotified
  let s := notifyOpen .cancelled (order.iter s.started) { s with resident := [] }
  let failed := match s.failed, opened with
    | none, id :: _ => some (some id, TransferError.cancelled)
    | failed, _ => failed
  let result := match s.terminalError, failed with
    | some error, _ => .error error
    | none, some (some id, error) => .error (.nodeFailed (some id) error)
    | none, some (none, error) => .error (.nodeFailed (order.iter s.started).head? error)
    | none, none => .ok s.summary
  { s with failed, result := some result }

/-- A task that panicked: every open node is closed and the run ends. -/
def closePanicked (id : Nat) (message : String) : DagState :=
  let s := notifyOpen .failed (order.iter s.started) s
  finish order { s with terminalError := some (.taskPanicked id message) }

/-- What the turn waited for. -/
def join : Joined → Option DagState
  | .finished id outcome =>
    if id ∈ s.resident then
      let s := { s with
        resident := s.resident.erase id, log := s.log ++ [DagEvent.joined id outcome] }
      some (s.settle dag id outcome)
    else none
  | .aborted id =>
    if id ∈ s.resident then
      let s := { s with resident := s.resident.erase id, log := s.log ++ [DagEvent.aborted id] }
      some (s.closeAborted id)
    else none
  | .panicked id message =>
    if id ∈ s.resident then
      some (closePanicked order { s with log := s.log ++ [.panicked id] } id message)
    else none
  | .graceOver =>
    if s.failFast ∧ s.forceAborted = false then some { s with forceAborted := true } else none
  | .drainOver => if s.forceAborted then some (finish order s) else none

/-- Nothing is resident: the run is over, or stuck. -/
def drained : DagState :=
  if s.failed.isSome ∨ s.completed.length = dag.nodes.length ∨ s.copyTransition then finish order s
  else finish order
    { s with terminalError := some (.stuck (dag.nodes.length - s.completed.length)) }

/-- One turn of the loop; none once the function has returned. -/
def turn (dag : TransferDag) (window : Nat) (order : HashOrder Nat) (s : DagState) (t : Turn) :
    Option DagState :=
  if s.result.isSome then none
  else
    let s := (s.observeCancel t.cancelled).dispatchStep dag (max window 1)
    if s.resident = [] then some (drained dag order s)
    else
      -- After the grace every resident task is aborted.
      let s := if s.failFast ∧ t.pastGrace ∧ s.forceAborted = false then
        { s with forceAborted := true } else s
      join dag order s t.joined

/-- The state in front of the loop, or behind it if there is nothing to run or a node
asks for more than the manager owns. -/
def start (budget : TransferBudget) : DagState :=
  let remainingDeps := dag.index.remainingDeps
  let ready := (List.range remainingDeps.length).filter fun id => remainingDeps.getD id 0 = 0
  let s : DagState := { ready, remainingDeps }
  if dag.nodes = [] then { s with result := some (.ok {}) }
  else
    match dag.nodes.findSome? fun node =>
        (requestExceedsBudget node.resources budget).map fun message => (node.id, message) with
    | some (id, message) => { s with result := some (.error (.unschedulable id message)) }
    | none => s

/-- `execute_dag_with_options`, as far as the given turns take it. -/
def run (dag : TransferDag) (budget : TransferBudget) (window : Nat) (order : HashOrder Nat)
    (turns : List Turn) : Option DagState :=
  Runs.run (turn dag window order) (start dag budget) turns

end DagState

end AeroFtp.Dag
