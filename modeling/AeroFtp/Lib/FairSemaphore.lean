/-
A counting semaphore with a queue.

A permit that comes back goes to the acquirer that has waited longest; it becomes
available only when nobody waits.  So there are never permits available and acquirers
queued at once, which the structure carries as a field.
-/
import Mathlib.Data.List.Basic

namespace AeroFtp

open List

/-- The free permits and the queue of acquirers, oldest first. -/
structure FairSemaphore (α : Type) where
  available : Nat
  waiters : List α
  /-- Nobody waits while a permit is free. -/
  idle : 0 < available → waiters = []
  deriving DecidableEq

namespace FairSemaphore

variable {α : Type}

/-- A semaphore of `n` permits that nobody has asked for yet. -/
def new (n : Nat) : FairSemaphore α := ⟨n, [], fun _ => rfl⟩

variable (s : FairSemaphore α)

/-- Take a permit if one is free. -/
def tryAcquire : Option (FairSemaphore α) :=
  if h : 0 < s.available then
    some ⟨s.available - 1, s.waiters, fun _ => s.idle h⟩
  else none

/-- Take a permit, or join the queue; with the acquirers that now hold one. -/
def acquire (a : α) : FairSemaphore α × List α :=
  match s.tryAcquire with
  | some taken => (taken, [a])
  | none => (⟨0, s.waiters ++ [a], fun h => absurd h (Nat.lt_irrefl 0)⟩, [])

variable (s : FairSemaphore α)

theorem addPermits_idle (n : Nat)
    (h : 0 < s.available + (n - s.waiters.length)) : s.waiters.drop n = [] := by
  by_cases hs : 0 < s.available
  · rw [s.idle hs, drop_nil]
  · exact drop_eq_nil_of_le (by omega)

/-- Put back `n` permits: the queue is served first; with the acquirers served. -/
def addPermits (n : Nat) : FairSemaphore α × List α :=
  (⟨s.available + (n - s.waiters.length), s.waiters.drop n, s.addPermits_idle n⟩,
    s.waiters.take n)

/-- Take up to `want` of the free permits out of circulation; with how many went. -/
def forgetUpTo (s : FairSemaphore α) : Nat → FairSemaphore α × Nat
  | 0 => (s, 0)
  | want + 1 =>
    match s.tryAcquire with
    | some taken =>
      let rest := taken.forgetUpTo want
      (rest.1, rest.2 + 1)
    | none => (s, 0)

/-! ### What the operations do to the counts -/

theorem tryAcquire_none {s : FairSemaphore α} (h : s.tryAcquire = none) : s.available = 0 := by
  unfold tryAcquire at h
  split at h
  · cases h
  · omega

theorem tryAcquire_some {s t : FairSemaphore α} (h : s.tryAcquire = some t) :
    s.available = t.available + 1 ∧ t.waiters = s.waiters := by
  unfold tryAcquire at h
  split at h
  · cases h
    refine ⟨?_, rfl⟩
    show s.available = s.available - 1 + 1
    omega
  · cases h

theorem acquire_balance (a : α) :
    (s.acquire a).1.available + (s.acquire a).2.length = s.available := by
  unfold acquire
  split
  next taken h =>
    have := (tryAcquire_some h).1
    simp only [length_singleton]
    omega
  next h =>
    have := tryAcquire_none h
    simp only [length_nil]
    omega

theorem addPermits_balance (n : Nat) :
    (s.addPermits n).1.available + (s.addPermits n).2.length = s.available + n := by
  simp only [addPermits, length_take]
  omega

theorem forgetUpTo_balance (want : Nat) :
    (s.forgetUpTo want).1.available + (s.forgetUpTo want).2 = s.available := by
  induction want generalizing s with
  | zero => rfl
  | succ want ih =>
    rw [forgetUpTo]
    split
    next taken h =>
      have ht := (tryAcquire_some h).1
      have hr := ih taken
      dsimp only
      omega
    next => rfl

theorem forgetUpTo_le (want : Nat) : (s.forgetUpTo want).2 ≤ want := by
  induction want generalizing s with
  | zero => exact Nat.le_refl 0
  | succ want ih =>
    rw [forgetUpTo]
    split
    next taken _ => exact Nat.succ_le_succ (ih taken)
    next => exact Nat.zero_le _

theorem forgetUpTo_short {s : FairSemaphore α} {want : Nat} (h : (s.forgetUpTo want).2 < want) :
    (s.forgetUpTo want).1.available = 0 := by
  induction want generalizing s with
  | zero => exact absurd h (Nat.not_lt_zero _)
  | succ want ih =>
    rw [forgetUpTo] at h ⊢
    split at h
    next taken ht => exact ih (Nat.lt_of_succ_lt_succ h)
    next hn => exact tryAcquire_none hn

end FairSemaphore

end AeroFtp
