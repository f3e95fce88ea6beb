/-
The adaptive semaphore of the transfer graph and its controller, `transfer_dag/adaptive.rs`.

`DynamicSemaphore` moves its effective size between one and a ceiling.  Growing adds
permits; shrinking takes free ones out of circulation and records the rest as a
deficit, to be absorbed when a permit in flight comes back.  Each call is one step
here, so a compare-and-swap sees the value the call began with.

The tokio semaphore below it is `FairSemaphore`.  A permit in flight is named by the
acquirer that holds it.

The controller has four classes that share nothing, so one is modelled: congestion halves
its target, quiet lets it grow again.  What it was seeded with is an argument.
-/
import AeroFtp.Lib.FairSemaphore
import AeroFtp.Lib.Runs

namespace AeroFtp.Dag

variable {α : Type}

/-- A semaphore whose effective size moves between `1` and `hardCeiling`. -/
structure DynamicSemaphore (α : Type) where
  sem : FairSemaphore α
  hardCeiling : Nat
  live : Nat
  deficit : Nat
  deriving DecidableEq

namespace DynamicSemaphore

/-- `usize::clamp`. -/
def clamp (x lo hi : Nat) : Nat := if x < lo then lo else if hi < x then hi else x

def new (hardCeiling initial : Nat) : DynamicSemaphore α :=
  let hardCeiling := max hardCeiling 1
  let initial := clamp initial 1 hardCeiling
  { sem := .new initial, hardCeiling, live := initial, deficit := 0 }

variable (ds : DynamicSemaphore α)

/-- Permits the semaphore still owes a shrink for. -/
def pendingShrink : Nat := ds.deficit

/-- Move the live size toward `target`; with the acquirers that get a permit by it. -/
def setLive (target : Nat) : DynamicSemaphore α × List α :=
  let target := clamp target 1 ds.hardCeiling
  if target > ds.live then
    let need := target - ds.live
    -- An owed shrink is paid down before real permits are added.
    let paid := min need ds.deficit
    let added := if need - paid > 0 then ds.sem.addPermits (need - paid) else (ds.sem, [])
    ({ ds with sem := added.1, deficit := ds.deficit - paid, live := target }, added.2)
  else if target < ds.live then
    let want := ds.live - target
    let forgotten := ds.sem.forgetUpTo want
    let owed := if forgotten.2 < want then want - forgotten.2 else 0
    ({ ds with sem := forgotten.1, deficit := ds.deficit + owed, live := target }, [])
  else (ds, [])

/-- Acquire one permit, or wait for one; with the acquirers that get a permit by it. -/
def acquire (a : α) : DynamicSemaphore α × List α :=
  let acquired := ds.sem.acquire a
  ({ ds with sem := acquired.1 }, acquired.2)

/-- `Drop for DynamicPermit`; with the acquirers that get a permit by it. -/
def dropPermit : DynamicSemaphore α × List α :=
  -- Return the permit first.
  let returned := ds.sem.addPermits 1
  if ds.deficit > 0 then
    match returned.1.tryAcquire with
    | some taken =>
      match (if ds.deficit > 0 then some (ds.deficit - 1) else none) with
      | some deficit => ({ ds with sem := taken, deficit }, returned.2)
      -- The deficit was cleared concurrently: hand the slot back.
      | none =>
        let back := taken.addPermits 1
        ({ ds with sem := back.1 }, returned.2 ++ back.2)
    | none => ({ ds with sem := returned.1 }, returned.2)
  else ({ ds with sem := returned.1 }, returned.2)

end DynamicSemaphore

/-! ### A semaphore in use -/

/-- A semaphore and the permits that are out. -/
structure InUse (α : Type) where
  ds : DynamicSemaphore α
  inFlight : List α
  deriving DecidableEq

/-- A call on the semaphore, or the drop of a permit that is out. -/
inductive Call (α : Type) where
  | acquire (a : α)
  | setLive (target : Nat)
  | drop (a : α)
  deriving DecidableEq, Repr

namespace InUse

/-- A semaphore nobody has used yet. -/
def start (hardCeiling initial : Nat) : InUse α := ⟨.new hardCeiling initial, []⟩

variable [DecidableEq α]

/-- One call; only a permit that is out can be dropped. -/
def step (s : InUse α) : Call α → Option (InUse α)
  | .acquire a =>
    let called := s.ds.acquire a
    some ⟨called.1, s.inFlight ++ called.2⟩
  | .setLive target =>
    let called := s.ds.setLive target
    some ⟨called.1, s.inFlight ++ called.2⟩
  | .drop a =>
    if a ∈ s.inFlight then
      let called := s.ds.dropPermit
      some ⟨called.1, s.inFlight.erase a ++ called.2⟩
    else none

/-- The state after a list of calls. -/
def run (s : InUse α) (calls : List (Call α)) : Option (InUse α) := Runs.run step s calls

end InUse

/-! ### The controller of a class -/

/-- What the operator sets for a class. -/
structure AimdClassWindow where
  min : Option Nat
  max : Option Nat
  step : Option Nat

/-- Times and lengths of time are in nanoseconds. -/
structure AimdConfig where
  cooldown : Nat
  healthyWindow : Nat
  recoveryWindow : Nat
  disabled : Bool

structure ClassState (α : Type) where
  sem : InUse α
  ceiling : Nat
  target : Nat
  cooldownUntil : Option Nat
  healthySince : Option Nat
  /-- What an increase may reach. -/
  regrowthCap : Nat
  lastCongestion : Option Nat
  minTarget : Nat
  step : Nat
  deriving DecidableEq

namespace ClassState

open DynamicSemaphore

def withOverridesSeeded (ceiling : Nat) (overrides : AimdClassWindow) (seed : Option Nat) :
    ClassState α :=
  let budgetCeiling := max ceiling 1
  let ceiling := overrides.max.elim budgetCeiling fun cap => min budgetCeiling (max cap 1)
  let minTarget := clamp (overrides.min.getD 1) 1 ceiling
  let start := seed.elim ceiling (clamp · minTarget ceiling)
  { sem := .start ceiling start
    ceiling
    target := start
    cooldownUntil := none
    healthySince := none
    regrowthCap := ceiling
    lastCongestion := none
    minTarget
    step := max (overrides.step.getD 1) 1 }

variable (config : AimdConfig) (now : Nat) (st : ClassState α)

/-- The target is set, and the semaphore with it. -/
def setTarget (target : Nat) : ClassState α :=
  let called := st.sem.ds.setLive target
  { st with target, sem := ⟨called.1, st.sem.inFlight ++ called.2⟩ }

def minHintCooldown : Nat := 1000000000

def maxHintMultiplier : Nat := 10

/-- `on_congestion_with_hint` under the lock of the class. -/
def congest (deadline : Nat) : ClassState α :=
  let floor := min (max st.minTarget 1) st.ceiling
  { st.setTarget (max (st.target / 2) floor) with
    cooldownUntil := some deadline
    healthySince := none
    regrowthCap := min (max (st.target - 1) 1) st.regrowthCap
    lastCongestion := some now }

/-- The hint is the caller's or else the provider's.  `none` is the panic of `clamp` on an
empty band. -/
def onCongestionWithHint (hint : Option Nat) : Option (ClassState α) :=
  let upper := config.cooldown * maxHintMultiplier
  if config.disabled then some st
  else if hint.isSome ∧ upper < minHintCooldown then none
  else some (st.congest now (now + hint.elim config.cooldown (clamp · minHintCooldown upper)))

/-- A recovery window of quiet lifts the cap on regrowth. -/
def relax : ClassState α :=
  if st.lastCongestion.any (now - · ≥ config.recoveryWindow) then
    { st with regrowthCap := st.ceiling, lastCongestion := none }
  else st

/-- `note_healthy` behind the cooldown. -/
def grow : ClassState α :=
  let growthCap := min st.ceiling st.regrowthCap
  if st.target ≥ growthCap then st
  else
    match st.healthySince with
    | none => { st with healthySince := some now }
    | some since =>
      if now - since ≥ config.healthyWindow then
        { st.setTarget (min (st.target + max st.step 1) growthCap) with healthySince := some now }
      else st

def noteHealthy : ClassState α :=
  if config.disabled then st
  else
    let st := st.relax config now
    if st.cooldownUntil.any (now < ·) then st else { st with cooldownUntil := none }.grow config now

/-- Feedback on a class, or the use of its permits. -/
inductive Event (α : Type) where
  | congestion (now : Nat) (hint : Option Nat)
  | healthy (now : Nat)
  | acquire (a : α)
  | drop (a : α)

/-- When feedback is given. -/
def Event.time : Event α → Option Nat
  | .congestion now _ | .healthy now => some now
  | _ => none

/-- One event.  A call that panics has not changed the class. -/
def turn [DecidableEq α] (st : ClassState α) : Event α → Option (ClassState α)
  | .congestion now hint => some ((st.onCongestionWithHint config now hint).getD st)
  | .healthy now => some (st.noteHealthy config now)
  | .acquire a => (st.sem.step (.acquire a)).map fun sem => { st with sem }
  | .drop a => (st.sem.step (.drop a)).map fun sem => { st with sem }

/-- A class from its start. -/
def run [DecidableEq α] (ceiling : Nat) (overrides : AimdClassWindow) (seed : Option Nat)
    (events : List (Event α)) : Option (ClassState α) :=
  Runs.run (turn config) (withOverridesSeeded ceiling overrides seed) events

end ClassState

end AeroFtp.Dag
