/-
The checkpoint of a multipart upload, `transfer_dag/checkpoint.rs`.

A record says what is durably known of one upload: its identity, the provider's session,
the receipts of its parts and how far it got.  Every operation changes the record in memory
and then writes it; the write replaces the file in one step or leaves it as it was.

What the file system answers is an argument of each operation, and so is the clock.  The
hash that names the file is part of the identity; making room for a new record concerns
other files, so here only its answer is used.
-/
import AeroFtp.Lib.Runs
import Mathlib.Data.List.AList
import Mathlib.Algebra.GroupWithZero.Nat

namespace AeroFtp.Dag

structure CheckpointSourceIdentity where
  localPath : String
  size : Nat
  modifiedUnixNanos : Option Nat
  deriving DecidableEq

structure CheckpointDestinationIdentity where
  provider : String
  protocol : String
  host : String
  account : String
  remotePath : String
  deriving DecidableEq

structure CheckpointLayout where
  totalSize : Nat
  totalParts : Nat
  preferredPartSize : Nat
  deriving DecidableEq

structure CheckpointPartReceipt where
  partNumber : Nat
  etag : String
  deriving DecidableEq

inductive CheckpointStatus where
  | prepared
  | transferring
  | payloadComplete
  | verified
  | committed
  | failed
  deriving DecidableEq, Repr

namespace CheckpointStatus

def isTerminal : CheckpointStatus → Bool
  | .committed => true
  | _ => false

/-- How `{:?}` prints it. -/
def debug : CheckpointStatus → String
  | .prepared => "Prepared"
  | .transferring => "Transferring"
  | .payloadComplete => "PayloadComplete"
  | .verified => "Verified"
  | .committed => "Committed"
  | .failed => "Failed"

/-- The transitions `MultipartCheckpoint::transition` allows. -/
def legal : CheckpointStatus → CheckpointStatus → Bool
  -- Forward progress of one live attempt.
  | .prepared, .transferring | .transferring, .transferring | .transferring, .payloadComplete
  | .payloadComplete, .payloadComplete | .payloadComplete, .verified | .verified, .verified
  | .verified, .committed => true
  -- Another attempt rewinds the record.
  | .payloadComplete, .transferring | .verified, .transferring | .failed, .transferring => true
  | .prepared, .failed | .transferring, .failed | .payloadComplete, .failed | .verified, .failed
  | .failed, .failed => true
  | _, _ => false

end CheckpointStatus

/-- What names a transfer; the key is the hash of the rest. -/
structure CheckpointIdentity where
  transferKey : String
  source : CheckpointSourceIdentity
  destination : CheckpointDestinationIdentity
  layout : CheckpointLayout
  deriving DecidableEq

def checkpointSchemaVersion : Nat := 3

structure MultipartCheckpoint where
  schemaVersion : Nat
  identity : CheckpointIdentity
  uploadId : Option String
  receipts : AList fun _ : Nat => CheckpointPartReceipt
  attempts : Nat
  status : CheckpointStatus
  updatedUnixSecs : Nat

namespace MultipartCheckpoint

def fresh (identity : CheckpointIdentity) (now : Nat) : MultipartCheckpoint where
  schemaVersion := checkpointSchemaVersion
  identity := identity
  uploadId := none
  receipts := ∅
  attempts := 0
  status := .prepared
  updatedUnixSecs := now

variable (checkpoint : MultipartCheckpoint)

def totalParts : Nat := checkpoint.identity.layout.totalParts

def missingParts : List Nat :=
  (List.range' 1 checkpoint.totalParts).filter fun part => (checkpoint.receipts.lookup part).isNone

def transition (next : CheckpointStatus) (now : Nat) : Except String MultipartCheckpoint :=
  if !checkpoint.status.legal next then
    .error s!"illegal checkpoint transition {checkpoint.status.debug} -> {next.debug}"
  else .ok { checkpoint with status := next, updatedUnixSecs := now }

def insertReceipt (receipt : CheckpointPartReceipt) : MultipartCheckpoint :=
  { checkpoint with receipts := checkpoint.receipts.insert receipt.partNumber receipt }

/-- `self.attempts.saturating_add(1)`. -/
def nextAttempt : Nat := min (checkpoint.attempts + 1) (2 ^ 32 - 1)

end MultipartCheckpoint

/-- `migrate`: a record of an older schema as this one reads it. -/
def migrate (record : MultipartCheckpoint) : Except String MultipartCheckpoint :=
  if record.schemaVersion = checkpointSchemaVersion then .ok record
  else if record.schemaVersion = 2 then .ok { record with schemaVersion := checkpointSchemaVersion }
  else if record.schemaVersion = 1 then
    .ok { record with
      status := if record.status = .committed then .payloadComplete else record.status
      schemaVersion := checkpointSchemaVersion }
  else .error s!"unsupported transfer checkpoint schema {record.schemaVersion}"

/-! ### The store, for one transfer key -/

/-- What stands under the key on disk. -/
inductive StoredCheckpoint where
  | absent
  /-- Bytes that do not parse as a record. -/
  | corrupt (reason : String)
  | found (record : MultipartCheckpoint)

namespace StoredCheckpoint

/-- `load_path`, where reading the file answers `read`. -/
def load (disk : StoredCheckpoint) (read : Except String Unit) :
    Except String (Option MultipartCheckpoint) :=
  match disk with
  | .absent => .ok none
  | .corrupt reason => read.bind fun _ => .error s!"cannot parse transfer checkpoint: {reason}"
  | .found record => read.bind fun _ => (migrate record).map some

/-- `persist`, where replacing the file answers `write`. -/
def persist (disk : StoredCheckpoint) (checkpoint : MultipartCheckpoint)
    (write : Except String Unit) : StoredCheckpoint :=
  match write with
  | .ok _ => .found checkpoint
  | .error _ => disk

end StoredCheckpoint

structure CheckpointOpen where
  checkpoint : MultipartCheckpoint
  resumed : Bool

/-- What an operation leaves: the caller's record, the file, and its result. -/
structure CheckpointOutcome where
  checkpoint : MultipartCheckpoint
  disk : StoredCheckpoint
  result : Except String Unit

namespace CheckpointStore

open MultipartCheckpoint

variable (disk : StoredCheckpoint) (checkpoint : MultipartCheckpoint)
  (identity : CheckpointIdentity)

/-- A fresh record is written once there is room for it. -/
def startFresh (disk : StoredCheckpoint) (now : Nat)
    (enforceCap write : Except String Unit) : StoredCheckpoint × Except String CheckpointOpen :=
  match enforceCap with
  | .error e => (disk, .error e)
  | .ok _ =>
    let checkpoint := fresh identity now
    (disk.persist checkpoint write, write.map fun _ => { checkpoint, resumed := false })

def openOrCreate (disk : StoredCheckpoint) (now : Nat)
    (read enforceCap write : Except String Unit) :
    StoredCheckpoint × Except String CheckpointOpen :=
  let existing :=
    match disk.load read with
    | .ok existing => existing
    -- A record this build cannot read is not one to resume from.
    | .error _ => none
  match existing with
  | none => startFresh identity disk now enforceCap write
  | some loaded =>
    if loaded.identity ≠ identity ∨ loaded.status.isTerminal = true then
      startFresh identity disk now enforceCap write
    else
      match { loaded with attempts := loaded.nextAttempt }.transition .transferring now with
      | .error e => (disk, .error e)
      | .ok checkpoint =>
        (disk.persist checkpoint write, write.map fun _ => { checkpoint, resumed := true })

/-- A transition and then the write; a refused transition leaves `before` in memory. -/
def advance (before : MultipartCheckpoint)
    (moved : Except String MultipartCheckpoint) (write : Except String Unit) : CheckpointOutcome :=
  match moved with
  | .error e => ⟨before, disk, .error e⟩
  | .ok checkpoint => ⟨checkpoint, disk.persist checkpoint write, write⟩

def begin (uploadId : String) (now : Nat) (write : Except String Unit) : CheckpointOutcome :=
  if checkpoint.uploadId.isSome ∧ checkpoint.uploadId ≠ some uploadId then
    ⟨checkpoint, disk, .error "checkpoint session identifier changed during one transfer"⟩
  else
    let checkpoint :=
      { checkpoint with uploadId := some uploadId, attempts := checkpoint.nextAttempt }
    advance disk checkpoint (checkpoint.transition .transferring now) write

def recordReceipt (receipt : CheckpointPartReceipt) (now : Nat) (write : Except String Unit) :
    CheckpointOutcome :=
  if receipt.partNumber = 0 ∨ receipt.partNumber > checkpoint.totalParts then
    ⟨checkpoint, disk, .error s!"checkpoint receipt {receipt.partNumber} is outside layout"⟩
  else
    match checkpoint.receipts.lookup receipt.partNumber with
    | some existing =>
      if existing ≠ receipt then
        ⟨checkpoint, disk, .error s!"checkpoint receipt {receipt.partNumber} changed"⟩
      else ⟨checkpoint, disk, .ok ()⟩
    | none =>
      let checkpoint := checkpoint.insertReceipt receipt
      let next : CheckpointStatus :=
        if checkpoint.missingParts = [] then .payloadComplete else .transferring
      advance disk checkpoint (checkpoint.transition next now) write

variable (now : Nat) (write : Except String Unit)

def markFailed : CheckpointOutcome :=
  advance disk checkpoint (checkpoint.transition .failed now) write

def markVerified : CheckpointOutcome :=
  if checkpoint.missingParts ≠ [] then
    ⟨checkpoint, disk, .error "cannot verify a checkpoint with missing multipart receipts"⟩
  else
    match checkpoint.status with
    | .transferring =>
      match checkpoint.transition .payloadComplete now with
      | .error e => ⟨checkpoint, disk, .error e⟩
      | .ok complete => advance disk complete (complete.transition .verified now) write
    | .payloadComplete => advance disk checkpoint (checkpoint.transition .verified now) write
    | .verified => ⟨checkpoint, disk.persist checkpoint write, write⟩
    | other => ⟨checkpoint, disk, .error s!"cannot verify a checkpoint in state {other.debug}"⟩

def markCommitted : CheckpointOutcome :=
  if checkpoint.missingParts ≠ [] then
    ⟨checkpoint, disk, .error "cannot commit a checkpoint with missing multipart receipts"⟩
  else if checkpoint.status ≠ .verified then
    ⟨checkpoint, disk,
      .error s!"cannot commit a checkpoint that is not verified (state {checkpoint.status.debug})"⟩
  else advance disk checkpoint (checkpoint.transition .committed now) write

end CheckpointStore

/-! ### Histories of one transfer -/

/-- A call, with the clock and what the file system answers to it. -/
inductive CheckpointCall where
  | openOrCreate (now : Nat) (read enforceCap write : Except String Unit)
  | begin (uploadId : String) (now : Nat) (write : Except String Unit)
  | recordReceipt (receipt : CheckpointPartReceipt) (now : Nat) (write : Except String Unit)
  | markFailed (now : Nat) (write : Except String Unit)
  | markVerified (now : Nat) (write : Except String Unit)
  | markCommitted (now : Nat) (write : Except String Unit)

/-- The outcome of a call that is made on a record. -/
def CheckpointCall.operation (disk : StoredCheckpoint) (checkpoint : MultipartCheckpoint) :
    CheckpointCall → Option CheckpointOutcome
  | .openOrCreate .. => none
  | .begin uploadId now write => some (CheckpointStore.begin disk checkpoint uploadId now write)
  | .recordReceipt receipt now write =>
    some (CheckpointStore.recordReceipt disk checkpoint receipt now write)
  | .markFailed now write => some (CheckpointStore.markFailed disk checkpoint now write)
  | .markVerified now write => some (CheckpointStore.markVerified disk checkpoint now write)
  | .markCommitted now write => some (CheckpointStore.markCommitted disk checkpoint now write)

/-- The file, the record the last successful `open_or_create` returned, and the calls made
with whether they succeeded, newest first. -/
structure CheckpointSession where
  disk : StoredCheckpoint
  checkpoint : Option MultipartCheckpoint
  log : List (CheckpointCall × Bool)

namespace CheckpointSession

def start (disk : StoredCheckpoint) : CheckpointSession := ⟨disk, none, []⟩

def step (identity : CheckpointIdentity) (session : CheckpointSession) (call : CheckpointCall) :
    Option CheckpointSession :=
  match call with
  | .openOrCreate now read enforceCap write =>
    match CheckpointStore.openOrCreate identity session.disk now read enforceCap write with
    | (disk, .ok opened) => some ⟨disk, some opened.checkpoint, (call, true) :: session.log⟩
    | (disk, .error _) => some ⟨disk, session.checkpoint, (call, false) :: session.log⟩
  -- The other calls need a record to be made on.
  | call =>
    session.checkpoint.bind fun checkpoint =>
      (call.operation session.disk checkpoint).map fun outcome =>
        ⟨outcome.disk, some outcome.checkpoint, (call, outcome.result.isOk) :: session.log⟩

end CheckpointSession

end AeroFtp.Dag
