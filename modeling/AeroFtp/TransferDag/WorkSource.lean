/-
The streaming frontier of a transfer, `transfer_dag/work_source.rs`.

A producer pulls items from the source into a channel of bounded capacity.  An admitter
takes them from there and starts them, so many at a time: in the order they come, or, when
sizes are weighed, from a pending list by a score of size and waiting time.

What the tasks do is a run of steps, each from one await to the next or one turn of a loop
that does not await: the producer runs beside the admitter.  The source is the sequence of
its answers; the time is that of the clock when it is read.
-/
import AeroFtp.Lib.Runs
import Mathlib.Algebra.GroupWithZero.Nat

namespace AeroFtp.Dag

/-- How items are admitted. -/
inductive AdmissionPolicy where
  | fifo
  | sizeFair (smallMaxBytes : Nat)
  deriving DecidableEq, Repr

structure TransferWorkItem where
  index : Nat
  size : Nat
  deriving DecidableEq, Repr

/-- `WorkSource`: what the `n`-th call of `next_item` answers. -/
abbrev WorkSource := Nat → Option TransferWorkItem

structure StreamingConfig where
  backlogCap : Nat
  activeFileCap : Nat
  admission : AdmissionPolicy

def StreamingConfig.normalized (config : StreamingConfig) : StreamingConfig :=
  let activeFileCap := max config.activeFileCap 1
  { backlogCap := max (max config.backlogCap 1) activeFileCap
    activeFileCap
    admission := config.admission }

/-! ### The pick by size and age -/

/-- Times are in nanoseconds. -/
structure PendingItem where
  item : TransferWorkItem
  enqueuedAt : Nat
  seq : Nat
  deriving DecidableEq, Repr

def isSmallFile (size smallMaxBytes : Nat) : Bool := size ≤ smallMaxBytes

def sizeFairSmallBaseScore : Nat := 1000000

def sizeFairAgeScorePerMs : Nat := 1000

/-- The sums and the product saturate in `i64`. -/
def sizeFairScore (pending : PendingItem) (now smallMaxBytes : Nat) : Nat :=
  let ageMs := min ((now - pending.enqueuedAt) / 1000000) (2 ^ 63 - 1)
  let base := if isSmallFile pending.item.size smallMaxBytes then sizeFairSmallBaseScore else 0
  min (base + min (ageMs * sizeFairAgeScorePerMs) (2 ^ 63 - 1)) (2 ^ 63 - 1)

/-- `max_by`: of several greatest elements, the last. -/
def maxBy {α : Type} (cmp : α → α → Ordering) : List α → Option α
  | [] => none
  | first :: rest => some (rest.foldl (fun best x => if cmp best x = .gt then best else x) first)

/-- The place in `pending` of the next item; none if there is none. -/
def pickSizeFairIndex (pending : List PendingItem) (activeLarge activeCount freeSlots now
    smallMaxBytes : Nat) : Option Nat :=
  let isLarge (p : PendingItem) : Bool := !isSmallFile p.item.size smallMaxBytes
  -- The last slot is kept for a large file while none is active.
  let reserveLarge :=
    pending.any isLarge && activeLarge = 0 && freeSlots = 1 && decide (activeCount > 0)
  let cmp (a b : PendingItem × Nat) : Ordering :=
    (compare (sizeFairScore a.1 now smallMaxBytes) (sizeFairScore b.1 now smallMaxBytes)).then
      (compare b.1.seq a.1.seq)
  let eligible := pending.zipIdx.filter fun p => if reserveLarge then isLarge p.1 else true
  match maxBy cmp eligible with
  | some (_, i) => some i
  | none => (maxBy cmp pending.zipIdx).map (·.2)

/-! ### The frontier -/

inductive Producer where
  /-- In `next_item`. -/
  | pulling
  /-- In `send`. -/
  | sending (item : TransferWorkItem)
  /-- At the end of the source; the channel is closed. -/
  | done
  deriving DecidableEq, Repr

/-- Where the loop of `run_size_fair_admission` is. -/
inductive AdmitterPhase where
  /-- In `drain_size_fair_channel`. -/
  | draining
  | admitting
  /-- Waiting for an item, with nothing active. -/
  | receiving
  /-- In `yield_now`. -/
  | yielding
  /-- Waiting for an item or for the end of a file. -/
  | selecting
  | ended
  deriving DecidableEq, Repr

structure StreamingRun where
  /-- How many items the source has yielded. -/
  pulled : Nat
  producer : Producer
  channel : List TransferWorkItem
  pending : List PendingItem
  nextSeq : Nat
  sourceDone : Bool
  active : List TransferWorkItem
  activeLarge : Nat
  phase : AdmitterPhase
  /-- How many files were started. -/
  admitted : Nat

inductive StreamEvent where
  | pull
  | send
  /-- In arrival order: the next item is taken and started. -/
  | next
  /-- One turn of the drain; the clock says `now`. -/
  | tryRecv (now : Nat)
  /-- One turn of the loop that admits. -/
  | fill (now : Nat)
  | recv (now : Nat)
  | resume
  /-- The file at this place of the active ones ends. -/
  | complete (index : Nat)
  /-- The branch of the select that receives. -/
  | selectRecv (now : Nat)
  deriving DecidableEq, Repr

namespace StreamingRun

def start : StreamingRun where
  pulled := 0
  producer := .pulling
  channel := []
  pending := []
  nextSeq := 0
  sourceDone := false
  active := []
  activeLarge := 0
  phase := .draining
  admitted := 0

/-- `push_size_fair_pending`, for an item of the channel. -/
def pushPending (s : StreamingRun) (item : TransferWorkItem) (rest : List TransferWorkItem)
    (now : Nat) : StreamingRun :=
  { s with
    channel := rest
    pending := s.pending ++ [⟨item, now, s.nextSeq⟩]
    nextSeq := min (s.nextSeq + 1) (2 ^ 64 - 1) }

def producerStep (source : WorkSource) (config : StreamingConfig) (s : StreamingRun) :
    StreamEvent → Option StreamingRun
  | .pull =>
    match s.producer with
    | .pulling =>
      match source s.pulled with
      | some item => some { s with pulled := s.pulled + 1, producer := .sending item }
      | none => some { s with producer := .done }
    | _ => none
  | .send =>
    match s.producer with
    | .sending item =>
      if s.channel.length < config.backlogCap then
        some { s with channel := s.channel ++ [item], producer := .pulling }
      else none
    | _ => none
  | _ => none

variable (config : StreamingConfig)

/-- `for_each_concurrent` over what is received. -/
def fifoStep (s : StreamingRun) : StreamEvent → Option StreamingRun
  | .next =>
    match s.channel with
    | item :: rest =>
      if s.active.length < config.activeFileCap then
        some { s with channel := rest, active := s.active ++ [item], admitted := s.admitted + 1 }
      else none
    | [] => none
  | .complete index =>
    if index < s.active.length then some { s with active := s.active.eraseIdx index } else none
  | _ => none

/-- The turn of the loop that admits, and what follows it. -/
def fill (smallMaxBytes : Nat) (s : StreamingRun) (now : Nat) : Option StreamingRun :=
  if s.active.length < config.activeFileCap ∧ s.pending ≠ [] then do
    let freeSlots := config.activeFileCap - s.active.length
    let index ← pickSizeFairIndex s.pending s.activeLarge s.active.length freeSlots now
        smallMaxBytes
    let chosen ← s.pending[index]?
    let isLarge := !isSmallFile chosen.item.size smallMaxBytes
    some { s with
      pending := s.pending.eraseIdx index
      activeLarge := if isLarge then s.activeLarge + 1 else s.activeLarge
      active := s.active ++ [chosen.item]
      admitted := s.admitted + 1 }
  else if s.active.isEmpty then
    if s.sourceDone ∧ s.pending = [] then some { s with phase := .ended }
    else if s.pending ≠ [] then some { s with phase := .draining }
    else some { s with phase := .receiving }
  else some { s with phase := .selecting }

/-- `run_size_fair_admission`. -/
def sizeFairStep (smallMaxBytes : Nat) (s : StreamingRun) :
    StreamEvent → Option StreamingRun
  | .tryRecv now =>
    if s.phase = .draining then
      match s.channel with
      | item :: rest => some (s.pushPending item rest now)
      | [] => some { s with phase := .admitting, sourceDone := s.sourceDone || s.producer = .done }
    else none
  | .fill now => if s.phase = .admitting then s.fill config smallMaxBytes now else none
  | .recv now =>
    if s.phase = .receiving then
      match s.channel with
      | item :: rest => some { s.pushPending item rest now with phase := .yielding }
      | [] =>
        if s.producer = .done then
          some { s with sourceDone := true, phase := if s.pending = [] then .ended else .draining }
        else none
    else none
  | .resume => if s.phase = .yielding then some { s with phase := .draining } else none
  | .complete index =>
    if s.phase = .selecting then
      s.active[index]?.map fun item =>
        { s with
          active := s.active.eraseIdx index
          activeLarge :=
            if isSmallFile item.size smallMaxBytes then s.activeLarge else s.activeLarge - 1
          phase := if s.sourceDone then .draining else .yielding }
    else none
  | .selectRecv now =>
    if s.phase = .selecting ∧ s.sourceDone = false then
      match s.channel with
      | item :: rest => some { s.pushPending item rest now with phase := .draining }
      | [] =>
        if s.producer = .done then some { s with sourceDone := true, phase := .draining } else none
    else none
  | _ => none

/-- `run_streaming_with_clock`, for a configuration that is normalized. -/
def step (source : WorkSource) (config : StreamingConfig) (s : StreamingRun) (e : StreamEvent) :
    Option StreamingRun :=
  match e with
  | .pull | .send => s.producerStep source config e
  | _ =>
    match config.admission with
    | .fifo => s.fifoStep config e
    | .sizeFair smallMaxBytes => s.sizeFairStep config smallMaxBytes e

end StreamingRun

end AeroFtp.Dag
