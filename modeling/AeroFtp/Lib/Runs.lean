/-
Runs of a machine.

A machine takes a state and an event to the next state, or to nothing where the event
cannot happen there.  A run is a list of events that all can happen, each in the state
the ones before it have led to.  What one event preserves a whole run preserves; what
one event lowers bounds how long a run can be, and where some event can always happen a
run gets to its end.
-/
import Mathlib.Data.List.Basic

namespace AeroFtp.Runs

open List

variable {σ ε : Type}

/-- The state after a list of events, if each of them can happen in its turn. -/
def run (step : σ → ε → Option σ) : σ → List ε → Option σ
  | s, [] => some s
  | s, e :: es => (step s e).bind fun t => run step t es

variable {step : σ → ε → Option σ} {s t : σ}

@[simp] theorem run_nil : run step s [] = some s := rfl

variable {es : List ε}

theorem run_cons {e : ε} :
    run step s (e :: es) = some t ↔ ∃ m, step s e = some m ∧ run step m es = some t := by
  rw [run, Option.bind_eq_some_iff]

theorem run_append {es es' : List ε} {m : σ} (h : run step s es = some m) :
    run step s (es ++ es') = run step m es' := by
  induction es generalizing s with
  | nil =>
    cases h
    rfl
  | cons e es ih =>
    obtain ⟨n, hn, hr⟩ := run_cons.mp h
    rw [cons_append, run, hn, Option.bind_some, ih hr]

variable {P : σ → Prop} {Q : ε → Prop}

/-- What every event of a kind preserves, every run of such events preserves. -/
theorem run_invariant_of (hstep : ∀ s e t, Q e → step s e = some t → P s → P t)
    (hes : ∀ e ∈ es, Q e) (hrun : run step s es = some t) (hs : P s) : P t := by
  induction es generalizing s with
  | nil =>
    cases hrun
    exact hs
  | cons e es ih =>
    obtain ⟨m, hm, hrest⟩ := run_cons.mp hrun
    have hPm := hstep s e m (hes e (mem_cons_self ..)) hm hs
    exact ih (fun e he => hes e (mem_cons_of_mem _ he)) hrest hPm

/-- **An invariant of every event is an invariant of every run.** -/
theorem run_invariant (hstep : ∀ s e t, step s e = some t → P s → P t)
    (hrun : run step s es = some t) (hs : P s) : P t :=
  run_invariant_of (Q := fun _ => True) (fun s e t _ => hstep s e t) (fun _ _ => trivial) hrun hs

/-- Every event of a run meets `Q` in the state it happens in. -/
def Along (step : σ → ε → Option σ) (Q : σ → ε → Prop) : σ → List ε → Prop
  | _, [] => True
  | s, e :: es => Q s e ∧ ∀ t, step s e = some t → Along step Q t es

/-- What an event that meets `Q` preserves, every run whose events meet it preserves. -/
theorem run_invariant_along {Q : σ → ε → Prop}
    (hstep : ∀ s e t, Q s e → step s e = some t → P s → P t) (hes : Along step Q s es)
    (hrun : run step s es = some t) (hs : P s) : P t := by
  induction es generalizing s with
  | nil =>
    cases hrun
    exact hs
  | cons e es ih =>
    obtain ⟨m, hm, hrest⟩ := run_cons.mp hrun
    exact ih (hes.2 m hm) hrest (hstep s e m hes.1 hm hs)

/-- A run of events that each keep `P` and lower a measure is no longer than that
measure. -/
theorem run_decreasing {μ : σ → Nat}
    (hstep : ∀ s e t, Q e → step s e = some t → P s → P t ∧ μ t < μ s) (hes : ∀ e ∈ es, Q e)
    (hrun : run step s es = some t) (hs : P s) : P t ∧ es.length + μ t ≤ μ s := by
  induction es generalizing s with
  | nil =>
    cases hrun
    exact ⟨hs, by simp⟩
  | cons e es ih =>
    obtain ⟨m, hm, hrest⟩ := run_cons.mp hrun
    obtain ⟨hPm, hlt⟩ := hstep s e m (hes e (mem_cons_self ..)) hm hs
    obtain ⟨hPt, hlen⟩ := ih (fun e he => hes e (mem_cons_of_mem _ he)) hrest hPm
    refine ⟨hPt, ?_⟩
    rw [length_cons]
    omega

/-- Where every state that is not `done` has an event that keeps `P` and lowers a
measure, some run reaches a state that is. -/
theorem exists_run_done (done : σ → Prop) {μ : σ → Nat}
    (hstep : ∀ s e t, Q e → step s e = some t → P s → P t ∧ μ t < μ s)
    (hgo : ∀ s, P s → ¬ done s → ∃ e t, Q e ∧ step s e = some t) (hs : P s) :
    ∃ es t, (∀ e ∈ es, Q e) ∧ run step s es = some t ∧ P t ∧ done t := by
  induction h : μ s using Nat.strongRecOn generalizing s with
  | ind n ih =>
    by_cases hdone : done s
    · exact ⟨[], s, by simp, rfl, hs, hdone⟩
    · obtain ⟨e, m, hQ, hm⟩ := hgo s hs hdone
      obtain ⟨hPm, hlt⟩ := hstep s e m hQ hm hs
      obtain ⟨es, t, hes, hrun, hPt, hdt⟩ := ih (μ m) (h ▸ hlt) hPm rfl
      refine ⟨e :: es, t, ?_, run_cons.mpr ⟨m, hm, hrun⟩, hPt, hdt⟩
      intro e' he'
      rcases mem_cons.mp he' with rfl | he'
      · exact hQ
      · exact hes e' he'

end AeroFtp.Runs
