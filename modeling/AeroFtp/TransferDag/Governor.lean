/-
The endpoint governor, `transfer_dag/governor.rs`.

An endpoint has so many operation slots, and its waiters are of two classes: foreground
work is preferred, and after a bounded number of bypasses a waiting background job gets the
next slot.  A waiter registers, then loops: it creates its `notified`, tries to be admitted
under the lock, and awaits that `notified` if it was refused.

What the tasks do is a run of atomic steps.  `notify_waiters` wakes exactly the waiters
whose `notified` exists, so a suspended waiter is polled again only once it is woken.
-/
import AeroFtp.Lib.Runs

namespace AeroFtp.Dag

inductive TransferPriority where
  | foreground
  | background
  deriving DecidableEq, Repr

/-- What the lock of an endpoint guards. -/
structure EndpointState where
  available : Nat
  foregroundWaiters : Nat
  backgroundWaiters : Nat
  foregroundBypass : Nat
  deriving DecidableEq, Repr

def maxForegroundBypass : Nat := 8

/-- Foreground work has gone ahead often enough: the next slot is for a background waiter. -/
def backgroundTurn (state : EndpointState) : Bool :=
  decide (0 < state.backgroundWaiters) && decide (maxForegroundBypass ≤ state.foregroundBypass)

def priorityAdmits (state : EndpointState) (priority : TransferPriority) : Bool :=
  if state.available = 0 then false
  else
    match priority with
    | .foreground => !backgroundTurn state
    | .background => decide (state.foregroundWaiters = 0) || backgroundTurn state

namespace EndpointState

variable (state : EndpointState) (priority : TransferPriority)

/-- `EndpointWaiter::new`. -/
def register : TransferPriority → EndpointState
  | .foreground => { state with foregroundWaiters := state.foregroundWaiters + 1 }
  | .background => { state with backgroundWaiters := state.backgroundWaiters + 1 }

/-- `EndpointWaiter::admit`: the state of a waiter that was let in, or nothing. -/
def admitWaiter : Option EndpointState :=
  if !priorityAdmits state priority then none
  else
    let state := { state with available := state.available - 1 }
    match priority with
    | .foreground =>
      some { state with
        foregroundWaiters := state.foregroundWaiters - 1
        foregroundBypass := if 0 < state.backgroundWaiters then state.foregroundBypass + 1 else 0 }
    | .background =>
      some { state with backgroundWaiters := state.backgroundWaiters - 1, foregroundBypass := 0 }

/-- `Drop for EndpointWaiter`, for a waiter that is still registered. -/
def unregister : EndpointState :=
  let state :=
    match priority with
    | .foreground => { state with foregroundWaiters := state.foregroundWaiters - 1 }
    | .background => { state with backgroundWaiters := state.backgroundWaiters - 1 }
  if state.backgroundWaiters = 0 then { state with foregroundBypass := 0 } else state

end EndpointState

/-! ### An endpoint and its waiters -/

/-- Where a waiter stands in the loop of `acquire_op_with_priority`. -/
inductive Await where
  /-- About to poll for the first time. -/
  | starting
  /-- Refused, and awaiting its `notified`; it has been woken or not. -/
  | suspended (woken : Bool)
  deriving DecidableEq, Repr

/-- A registered waiter. -/
structure EndpointWaiter where
  priority : TransferPriority
  await : Await
  deriving DecidableEq, Repr

/-- `notify_waiters`, for one waiter. -/
def EndpointWaiter.notify (waiter : EndpointWaiter) : EndpointWaiter :=
  match waiter.await with
  | .starting => waiter
  | .suspended _ => { waiter with await := .suspended true }

/-- The governor of an endpoint, its registered waiters and how many leases are out. -/
structure EndpointGovernor where
  capacity : Nat
  state : EndpointState
  waiters : List EndpointWaiter
  leases : Nat
  deriving DecidableEq, Repr

inductive GovernorEvent where
  | register (priority : TransferPriority)
  /-- The waiter at this place creates its `notified` and tries to be admitted. -/
  | poll (index : Nat)
  | releaseOp
  /-- The waiter at this place is dropped before it was admitted. -/
  | dropWaiter (index : Nat)
  deriving DecidableEq, Repr

namespace EndpointGovernor

def new (capacity : Nat) : EndpointGovernor :=
  let capacity := max capacity 1
  { capacity
    state :=
      { available := capacity, foregroundWaiters := 0, backgroundWaiters := 0,
        foregroundBypass := 0 }
    waiters := []
    leases := 0 }

def step (g : EndpointGovernor) : GovernorEvent → Option EndpointGovernor
  | .register priority =>
    some { g with
      state := g.state.register priority
      waiters := g.waiters ++ [{ priority, await := .starting }] }
  | .poll index =>
    match g.waiters[index]? with
    | none => none
    | some waiter =>
      -- A task that sleeps is not polled.
      if waiter.await = .suspended false then none
      else
        match g.state.admitWaiter waiter.priority with
        | some state =>
          some { g with
            state, waiters := g.waiters.eraseIdx index, leases := g.leases + 1 }
        | none =>
          some { g with
            waiters := g.waiters.set index { waiter with await := .suspended false } }
  | .releaseOp =>
    if g.leases = 0 then none
    else
      some { g with
        state := { g.state with available := min (g.state.available + 1) g.capacity }
        waiters := g.waiters.map EndpointWaiter.notify
        leases := g.leases - 1 }
  | .dropWaiter index =>
    match g.waiters[index]? with
    | none => none
    | some waiter =>
      some { g with
        state := g.state.unregister waiter.priority
        waiters := (g.waiters.eraseIdx index).map EndpointWaiter.notify }

def run (g : EndpointGovernor) (events : List GovernorEvent) : Option EndpointGovernor :=
  Runs.run step g events

end EndpointGovernor

end AeroFtp.Dag
