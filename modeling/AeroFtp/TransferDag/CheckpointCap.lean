/-
The cap on the checkpoint store, `enforce_cap` and `reclaim_slots` of
`transfer_dag/checkpoint.rs`.

An `open_or_create` for a new key makes room before it writes: it scans the directory,
reads the records it found if there are too many, and deletes them in order until it has
freed the slots it counted.  There is no lock.  Several such calls run at once, each a
sequence of single steps: one scan, one read, one unlink, one rename.  A step may fail, and
what the clock shows at a scan is an argument of it.

Only the `.json` files of the directory are modelled.
-/
import AeroFtp.TransferDag.Checkpoint
import Mathlib.Data.List.Sort

namespace AeroFtp.Dag

/-- A record file: its stem and what is in it. -/
structure StoredFile where
  key : String
  content : StoredCheckpoint

/-- `DEFAULT_CHECKPOINT_EVICT_GRACE`, in seconds. -/
def checkpointEvictGrace : Nat := 5

/-- What the eviction is ordered by. -/
structure EvictionCandidate where
  path : String
  terminal : Bool
  ts : Nat
  fresh : Bool
  deriving DecidableEq

namespace EvictionCandidate

/-- The candidate for a path that loads as `loaded`. -/
def ofLoaded (path : String) (now : Nat) (loaded : Except String (Option MultipartCheckpoint)) :
    EvictionCandidate :=
  match loaded with
  | .ok (some record) =>
    let terminal := record.status.isTerminal
    let ts := record.updatedUnixSecs
    { path, terminal, ts, fresh := !terminal && decide (now - ts < checkpointEvictGrace) }
  -- Corrupt or vanished: the oldest terminal residue.
  | .ok none | .error _ => { path, terminal := true, ts := 0, fresh := false }

/-- Terminal, then aged, then just opened. -/
def rank (candidate : EvictionCandidate) : Nat :=
  if candidate.terminal then 0 else if candidate.fresh then 2 else 1

/-- The order of the eviction: by rank, then oldest first. -/
def before (a b : EvictionCandidate) : Prop := a.rank < b.rank ∨ (a.rank = b.rank ∧ a.ts ≤ b.ts)

instance : DecidableRel before := fun _ _ => inferInstanceAs (Decidable (_ ∨ _))

end EvictionCandidate

/-- Where an `open_or_create` stands. -/
inductive OpenerPhase where
  | scanning
  /-- Reading what it found, to order it; so many slots are to be freed. -/
  | loading (now : Nat) (paths : List String) (records : List EvictionCandidate) (evict : Nat)
  /-- In the loop of `reclaim_slots`. -/
  | reclaiming (candidates : List String) (needed reclaimed vanished : Nat) (failures : List String)
  | writing
  | done (result : Except String Unit)

/-- `reclaim_slots`, after the next turn of its loop is due. -/
def reclaimSlots (candidates : List String) (needed reclaimed vanished : Nat)
    (failures : List String) : OpenerPhase :=
  if reclaimed = needed then .writing
  else
    match candidates with
    | [] =>
      let stuck := String.intercalate "; " failures
      .done (.error
        s!"checkpoint cap reclaimed only {reclaimed} of {needed} records ({vanished} taken by a concurrent eviction): {stuck}")
    | candidates => .reclaiming candidates needed reclaimed vanished failures

/-- Once everything is read the records are sorted. -/
def loadRecords (now : Nat) (paths : List String) (records : List EvictionCandidate) (evict : Nat) :
    OpenerPhase :=
  match paths with
  | [] => reclaimSlots ((records.insertionSort EvictionCandidate.before).map (·.path)) evict 0 0 []
  | paths => .loading now paths records evict

/-- The paths of `enforce_cap`: every record but the one being opened. -/
def otherRecords (dir : List StoredFile) (keep : String) : List String :=
  (dir.map (·.key)).filter (· ≠ keep)

/-- `enforce_cap`, after the scan. -/
def enforceCap (maxRecords : Nat) (dir : List StoredFile) (keep : String) (now : Nat) :
    OpenerPhase :=
  let paths := otherRecords dir keep
  -- The kept record is not in `paths`, so it counts for one slot.
  let total := paths.length + 1
  if total ≤ maxRecords then .writing else loadRecords now paths [] (total - maxRecords)

/-- `load_path` in a directory. -/
def loadFrom (dir : List StoredFile) (path : String) (read : Except String Unit) :
    Except String (Option MultipartCheckpoint) :=
  match dir.find? (·.key = path) with
  | none => .ok none
  | some file => file.content.load read

/-- An `open_or_create` for a new key: its fresh record, and where it stands. -/
structure CheckpointOpener where
  checkpoint : MultipartCheckpoint
  phase : OpenerPhase

def CheckpointOpener.key (opener : CheckpointOpener) : String :=
  opener.checkpoint.identity.transferKey

/-- The directory, the calls under way, and what each of them has deleted. -/
structure CheckpointDir where
  maxRecords : Nat
  files : List StoredFile
  openers : List CheckpointOpener
  deleted : List (String × String)

/-- The next step of one of the calls: whether it fails, and the clock. -/
structure OpenerStep where
  opener : Nat
  answer : Except String Unit
  now : Nat

namespace CheckpointDir

/-- `with_limits`, and calls that have made their fresh records. -/
def start (maxRecords : Nat) (files : List StoredFile) (fresh : List MultipartCheckpoint) :
    CheckpointDir where
  maxRecords := max maxRecords 1
  files := files
  openers := fresh.map fun checkpoint => { checkpoint, phase := .scanning }
  deleted := []

variable (store : CheckpointDir) (opener : CheckpointOpener)

/-- The opener at `index` goes on to `phase`. -/
def enter (index : Nat) (opener : CheckpointOpener) (phase : OpenerPhase) : CheckpointDir :=
  { store with openers := store.openers.set index { opener with phase } }

def unlink (path : String) : CheckpointDir :=
  { store with
    files := store.files.filter (·.key ≠ path)
    deleted := store.deleted ++ [(opener.key, path)] }

/-- The rename of `atomic_replace`. -/
def replace : CheckpointDir :=
  { store with
    files := store.files.filter (·.key ≠ opener.key) ++
      [{ key := opener.key, content := .found opener.checkpoint }] }

def step (e : OpenerStep) : Option CheckpointDir :=
  match store.openers[e.opener]? with
  | none => none
  | some opener =>
    match opener.phase with
    | .scanning =>
      some <| store.enter e.opener opener <|
        match e.answer with
        | .error error => .done (.error s!"cannot read transfer checkpoint directory: {error}")
        | .ok _ => enforceCap store.maxRecords store.files opener.key e.now
    | .loading now paths records evict =>
      match paths with
      | [] => none
      | path :: rest =>
        let candidate := EvictionCandidate.ofLoaded path now (loadFrom store.files path e.answer)
        some (store.enter e.opener opener (loadRecords now rest (records ++ [candidate]) evict))
    | .reclaiming candidates needed reclaimed vanished failures =>
      match candidates with
      | [] => none
      | path :: rest =>
        -- Gone before we got to it: somebody else's slot.
        if (store.files.map (·.key)).contains path = false then
          some (store.enter e.opener opener
            (reclaimSlots rest needed reclaimed (vanished + 1) failures))
        else
          match e.answer with
          | .error error =>
            some (store.enter e.opener opener
              (reclaimSlots rest needed reclaimed vanished (failures ++ [s!"{path}: {error}"])))
          | .ok _ =>
            some ((store.unlink opener path).enter e.opener opener
              (reclaimSlots rest needed (reclaimed + 1) vanished failures))
    | .writing =>
      match e.answer with
      | .error error => some (store.enter e.opener opener (.done (.error error)))
      | .ok _ => some ((store.replace opener).enter e.opener opener (.done (.ok ())))
    | .done _ => none

end CheckpointDir

end AeroFtp.Dag
