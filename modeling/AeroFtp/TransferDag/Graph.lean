/-
The transfer graph, `transfer_dag/graph.rs`, and what its nodes may ask for,
`transfer_dag/resources.rs`.

A graph is built by `add_node` alone, which numbers the nodes in the order they come
in; `TransferDag` carries that as a field.  What a node depends on is an arbitrary list
of numbers.
-/
import Mathlib.Data.List.Range

namespace AeroFtp.Dag

/-- The permits a node holds while it runs. -/
structure ResourceRequest where
  fileSlots : UInt16 := 0
  checkerSlots : UInt16 := 0
  chunkSlots : UInt16 := 0
  httpSlots : UInt16 := 0
  apiSlots : UInt16 := 0
  diskReadSlots : UInt16 := 0
  diskWriteSlots : UInt16 := 0
  hashSlots : UInt16 := 0
  bufferBytes : UInt64 := 0
  deriving DecidableEq, Repr

/-- The permits a manager owns. -/
structure TransferBudget where
  fileSlots : UInt16
  checkerSlots : UInt16
  chunkSlots : UInt16
  httpSlots : UInt16
  apiSlots : UInt16
  diskReadSlots : UInt16
  diskWriteSlots : UInt16
  hashSlots : UInt16
  bufferBytes : UInt64
  deriving DecidableEq, Repr

/-- `request_exceeds_budget`: why a request can never be met, if it cannot. -/
def requestExceedsBudget (request : ResourceRequest) (budget : TransferBudget) : Option String :=
  -- Each slot semaphore is sized at `budget.X.max(1)`.
  let checks : List (String × UInt16 × UInt16) :=
    [("file_slots", request.fileSlots, max budget.fileSlots 1),
     ("checker_slots", request.checkerSlots, max budget.checkerSlots 1),
     ("chunk_slots", request.chunkSlots, max budget.chunkSlots 1),
     ("http_slots", request.httpSlots, max budget.httpSlots 1),
     ("api_slots", request.apiSlots, max budget.apiSlots 1),
     ("disk_read_slots", request.diskReadSlots, max budget.diskReadSlots 1),
     ("disk_write_slots", request.diskWriteSlots, max budget.diskWriteSlots 1),
     ("hash_slots", request.hashSlots, max budget.hashSlots 1)]
  match checks.find? fun check => check.2.1 > check.2.2 with
  | some (name, want, have_) => some s!"requests {want} {name} but the budget owns only {have_}"
  | none =>
    if request.bufferBytes > 0 ∧ budget.bufferBytes = 0 then
      some "requests buffer_bytes but the budget owns a zero-byte buffer pool"
    else none

inductive TransferNodeKind where
  | discoverLocal
  | discoverRemote
  | compare
  | planTransfer
  | acquireResource
  | downloadFile
  | downloadRange
  | uploadFile
  | uploadPart
  | serverSideCopy
  | verifyChecksum
  | preserveMetadata
  | commitTemp
  | cleanupTemp
  | emitProgress
  deriving DecidableEq, Repr

structure TransferNode where
  id : Nat
  kind : TransferNodeKind
  dependsOn : List Nat
  resources : ResourceRequest
  deriving DecidableEq, Repr

/-- A graph; nodes are numbered by their place. -/
structure TransferDag where
  nodes : List TransferNode
  ids : nodes.map TransferNode.id = List.range nodes.length

namespace TransferDag

def empty : TransferDag := ⟨[], rfl⟩

/-- `TransferDag::add_node`, with the id it returns. -/
def addNode (dag : TransferDag) (kind : TransferNodeKind) (dependsOn : List Nat)
    (resources : ResourceRequest) : TransferDag × Nat :=
  (⟨dag.nodes ++ [TransferNode.mk dag.nodes.length kind dependsOn resources], by
    rw [List.map_append, dag.ids, List.length_append, List.length_singleton, List.range_succ]
    rfl⟩, dag.nodes.length)

/-- The ids node `v` names in its `depends_on`. -/
def dependsOn (dag : TransferDag) (v : Nat) : List Nat :=
  match dag.nodes[v]? with
  | some node => node.dependsOn
  | none => []

end TransferDag

end AeroFtp.Dag
