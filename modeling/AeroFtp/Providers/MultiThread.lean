/-
Reading an object in order through several workers, `providers/multi_thread.rs`.

`read_in_order_with` cuts the object into windows, reads at most one per worker at a time
into memory and hands them on in their order.  A window is read by attempts: each takes a
worker from the pool and reads until the window is full or a read fails; a recoverable
failure is resumed from the mark, after a wait, on a worker that replaces the failed one.

What the tasks do is a run of steps.  The provider answers a read with any error or with
any bytes that are there; which worker answers does not matter, so the pool is a number.
-/
import AeroFtp.Lib.Runs
import Mathlib.Algebra.Order.Floor.Div

namespace AeroFtp.Providers

/-! ### Planning ranges and parts -/

/-- The rounds of the loop over `0..effective` from `i` on, `left` of them. -/
def rangesFrom (base remainder i offset : Nat) : Nat → List (Nat × Nat)
  | 0 => []
  | left + 1 =>
    let len := base + if i < remainder then 1 else 0
    if len = 0 then rangesFrom base remainder (i + 1) offset left
    else (offset, offset + len - 1) :: rangesFrom base remainder (i + 1) (offset + len) left

/-- The first and the last byte of each range. -/
def planMultiThreadRanges (totalSize streams maxStreams : Nat) : List (Nat × Nat) :=
  if totalSize = 0 ∨ streams = 0 ∨ maxStreams = 0 then []
  else
    let effective := min (min streams maxStreams) totalSize
    rangesFrom (totalSize / effective) (totalSize % effective) 0 0 effective

/-- The number of a part, where it starts and how long it is. -/
structure Part where
  number : Nat
  offset : Nat
  len : Nat
  deriving DecidableEq, Repr

/-- The rounds of the loop while `offset < total_size`.  A `u32` numbers the parts, and
`left` bounds the rounds. -/
def partsFrom (totalSize effective partNumber offset : Nat) : Nat → List Part
  | 0 => []
  | left + 1 =>
    if offset < totalSize then
      let len := min effective (totalSize - offset)
      ⟨partNumber, offset, len⟩ ::
        partsFrom totalSize effective ((partNumber + 1) % 2 ^ 32) (offset + len) left
    else []

def effectivePartSize (totalSize partSize maxParts : Nat) : Nat :=
  if maxParts < totalSize ⌈/⌉ partSize then totalSize ⌈/⌉ maxParts else partSize

def planFixedSizeParts (totalSize partSize maxParts : Nat) : List Part :=
  if totalSize = 0 ∨ partSize = 0 ∨ maxParts = 0 then []
  else
    let effective := effectivePartSize totalSize partSize maxParts
    partsFrom totalSize effective 1 0 (totalSize ⌈/⌉ effective)

/-! ### Errors -/

inductive ProviderError where
  | notConnected
  | timeout
  | cancelled
  | networkError (text : String)
  | connectionLost (text : String)
  | parallelRefused (text : String)
  | pinRefused (text : String)
  | transferFailed (text : String)
  | other (text : String)
  /-- Any other variant, as it prints. -/
  | failed (text : String)
  deriving DecidableEq, Repr

namespace ProviderError

def isRecoverable : ProviderError → Bool
  | .timeout | .networkError _ | .notConnected | .connectionLost _ => true
  | _ => false

/-- `to_string`. -/
def display : ProviderError → String
  | .notConnected => "Not connected to server"
  | .timeout => "Timeout"
  | .cancelled => "Transfer cancelled"
  | .networkError text => s!"Network error: {text}"
  | .connectionLost text => s!"Connection lost: {text}"
  | .parallelRefused text => text
  | .pinRefused text => text
  | .transferFailed text => s!"Transfer failed: {text}"
  | .other text => text
  | .failed text => text

end ProviderError

def rangeReadFailed (what : String) (offset : Nat) (e : ProviderError) : ProviderError :=
  let cause := e.display
  let text := s!"{what}: read_range at offset {offset} failed: {cause}"
  match e with
  | .timeout | .notConnected => e
  | .networkError _ => .networkError text
  | .connectionLost _ => .connectionLost text
  | .parallelRefused _ => .parallelRefused text
  | .pinRefused _ => .pinRefused text
  | _ => .transferFailed text

/-- The error of `replace_failed_range_worker`, where the worker can be cloned or not and
connecting it again answers `connect`. -/
def replacedError (clones : Bool) (connect : Except ProviderError Unit) (failure : ProviderError) :
    ProviderError :=
  if clones then failure
  else if failure.isRecoverable then
    match connect with
    | .ok _ => failure
    | .error e => e
  else failure

/-! ### One window -/

def rangeRetries : Nat := 3

/-- Where a window stands. -/
inductive WindowStage where
  /-- About to make an attempt. -/
  | idle
  /-- In an attempt, with a worker: the next byte to read, and the mark. -/
  | reading (offset mark : Nat)
  /-- The attempt has failed, and its worker is being replaced. -/
  | replacing (error : ProviderError) (mark : Nat)
  /-- Waiting before the next attempt. -/
  | waiting
  | done (result : Except ProviderError Unit)

/-- A call of `read_window_in_memory`, with how often it has tried and read. -/
structure Window where
  start : Nat
  /-- The last byte of the window. -/
  last : Nat
  buffer : List UInt8
  /-- Where the next attempt starts. -/
  resumeAt : Nat
  failures : Nat
  stage : WindowStage
  attempts : Nat
  reads : Nat

namespace Window

def new (start last : Nat) : Window where
  start := start
  last := last
  buffer := List.replicate (last - start + 1) 0
  resumeAt := start
  failures := 0
  stage := .idle
  attempts := 0
  reads := 0

variable (w : Window)

/-- It holds a worker. -/
def holdsWorker : Bool :=
  match w.stage with
  | .reading .. | .replacing .. => true
  | _ => false

/-- `mark.reached().clamp(from, end + 1)`. -/
def reached (mark : Nat) : Nat := min (max mark w.resumeAt) (w.last + 1)

/-- `write_range_resuming`, after an attempt that failed.  One that did not ends the window. -/
def settle (mark : Nat) (e : ProviderError) (cancelled : Bool) : Window :=
  if e.isRecoverable && !cancelled then
    let reached := w.reached mark
    if reached > w.last then { w with stage := .done (.ok ()) }
    else
      let failures := (if reached > w.resumeAt then 0 else w.failures) + 1
      if failures > rangeRetries then { w with failures, stage := .done (.error e) }
      else { w with failures, resumeAt := reached, stage := .waiting }
  else { w with stage := .done (.error e) }

/-- The bytes of one read are copied into the buffer, and the mark goes on. -/
def receive (offset : Nat) (data : List UInt8) : Window :=
  let take := min data.length (w.last - offset + 1)
  let place := offset - w.start
  { w with
    buffer := w.buffer.take place ++ data.take take ++ w.buffer.drop (place + take)
    stage :=
      if offset + take ≤ w.last then .reading (offset + take) (offset + take) else .done (.ok ()) }

/-- One turn of the loop of an attempt. -/
def read (remotePath : String) (offset mark : Nat) (cancelled : Bool)
    (answer : Except ProviderError (List UInt8)) : Window :=
  if cancelled then { w with stage := .replacing .cancelled mark }
  else
    let w := { w with reads := w.reads + 1 }
    match answer with
    | .error e => { w with stage := .replacing (rangeReadFailed "in-order read" offset e) mark }
    | .ok [] =>
      -- The object ended before the size it was read for.
      let size := w.last + 1
      { w with
        stage := .replacing (.transferFailed
          s!"{remotePath} ended at byte {offset}, before the {size} bytes it was read for") mark }
    | .ok data => w.receive offset data

end Window

/-! ### All windows -/

/-- What `read_in_order_with` is called with. -/
structure InOrderCall where
  remotePath : String
  size : Nat
  window : Nat
  streams : Nat

namespace InOrderCall

variable (call : InOrderCall)

/-- `window.max(1)`. -/
def windowSize : Nat := max call.window 1

def windowCount : Nat := call.size ⌈/⌉ call.windowSize

/-- The `i`-th window. -/
def windowAt (i : Nat) : Window :=
  let start := i * call.windowSize
  .new start (min (start + call.windowSize) call.size - 1)

end InOrderCall

/-- The windows under way in their order, the free workers, and what has been handed on. -/
structure InOrderRead where
  next : Nat
  inFlight : List Window
  pool : Nat
  cancelled : Bool
  consumed : List (List UInt8)
  outcome : Option (Except ProviderError Unit)

inductive ReadEvent where
  /-- `buffered` starts the next window. -/
  | launch
  /-- The window at this place takes a worker and starts an attempt. -/
  | attempt (index : Nat)
  | read (index : Nat) (answer : Except ProviderError (List UInt8))
  | replaceWorker (index : Nat) (clones : Bool) (connect : Except ProviderError Unit)
  /-- The wait before a retry is over, or the window is given up during it. -/
  | wake (index : Nat)
  | abandon (index : Nat)
  | cancel
  /-- `windows.next()`. -/
  | deliver

/-- The provider's answer to a read at `offset`: any error, or bytes that are there; no
bytes only at the end. -/
def answers (object : List UInt8) (offset : Nat) : Except ProviderError (List UInt8) → Bool
  | .error _ => true
  | .ok [] => decide (object.length ≤ offset)
  | .ok data => data.isPrefixOf (object.drop offset)

namespace InOrderRead

def start (call : InOrderCall) : InOrderRead where
  next := 0
  inFlight := []
  pool := call.streams
  cancelled := false
  consumed := []
  outcome :=
    if call.streams = 0 then some (.error (.other "read_in_order needs at least one worker"))
    else none

/-- The window at `index` becomes `w`. -/
def put (s : InOrderRead) (index : Nat) (w : Window) : InOrderRead :=
  { s with inFlight := s.inFlight.set index w }

/-- The window at `index` takes a worker from the pool. -/
def takeWorker (s : InOrderRead) (index : Nat) (w : Window) : InOrderRead :=
  let w := { w with attempts := w.attempts + 1 }
  if s.pool = 0 then
    s.put index (w.settle w.resumeAt
      (.other "read_in_order: no free worker (internal invariant)") s.cancelled)
  else { s.put index { w with stage := .reading w.resumeAt w.resumeAt } with pool := s.pool - 1 }

/-- A window that has given its worker back. -/
def giveBack (s : InOrderRead) (index : Nat) (w : Window) : InOrderRead :=
  { s.put index w with pool := s.pool + 1 }

/-- One step, for a provider that serves `object`. -/
def step (call : InOrderCall) (object : List UInt8) (s : InOrderRead) (e : ReadEvent) :
    Option InOrderRead :=
  if s.outcome.isSome then none
  else
    match e with
    | .launch =>
      if s.inFlight.length < call.streams ∧ s.next < call.windowCount then
        some { s with next := s.next + 1, inFlight := s.inFlight ++ [call.windowAt s.next] }
      else none
    | .attempt index =>
      s.inFlight[index]?.bind fun w =>
        match w.stage with
        | .idle => some (s.takeWorker index w)
        | _ => none
    | .read index answer =>
      s.inFlight[index]?.bind fun w =>
        match w.stage with
        | .reading offset mark =>
          if answers object offset answer then
            let w := w.read call.remotePath offset mark s.cancelled answer
            if w.holdsWorker then some (s.put index w) else some (s.giveBack index w)
          else none
        | _ => none
    | .replaceWorker index clones connect =>
      s.inFlight[index]?.bind fun w =>
        match w.stage with
        | .replacing error mark =>
          let error := replacedError clones connect error
          some (s.giveBack index (w.settle mark error s.cancelled))
        | _ => none
    | .wake index =>
      s.inFlight[index]?.bind fun w =>
        match w.stage with
        | .waiting => some (s.put index { w with stage := .idle })
        | _ => none
    | .abandon index =>
      s.inFlight[index]?.bind fun w =>
        match w.stage with
        | .waiting =>
          if s.cancelled then some (s.put index { w with stage := .done (.error .cancelled) })
          else none
        | _ => none
    | .cancel => some { s with cancelled := true }
    | .deliver =>
      match s.inFlight with
      | [] => if s.next = call.windowCount then some { s with outcome := some (.ok ()) } else none
      | w :: rest =>
        match w.stage with
        | .done (.ok _) => some { s with inFlight := rest, consumed := s.consumed ++ [w.buffer] }
        | .done (.error e) => some { s with outcome := some (.error e) }
        | _ => none

end InOrderRead

end AeroFtp.Providers
