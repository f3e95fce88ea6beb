/-
How many items wait between the source and their start.

Every item that was pulled is with the producer, in the channel, pending, or started; the
channel never holds more than its capacity.  In arrival order nothing is pending, so the
bound is that of the channel.  When sizes are weighed the admitter empties the channel into
the pending list before it picks and while it waits, so the list grows with the source: the
bound holds then only for a source that cannot reach it.  Which items they are is followed
as well: each waits in one place, or was started, once.
-/
import AeroFtp.TransferDag.WorkSource
import Mathlib.Data.List.Perm.Basic

namespace AeroFtp.Dag

open List Option Runs

/-- What the producer holds. -/
def Producer.held : Producer → Nat
  | .sending _ => 1
  | _ => 0

namespace StreamingRun

variable {source : WorkSource} {config : StreamingConfig} {s s' : StreamingRun} {e : StreamEvent}

/-! ### What a step can be -/

/-- All that a step does to the items. -/
inductive Move (source : WorkSource) (config : StreamingConfig) (s : StreamingRun) :
    StreamingRun → Prop where
  | pull {item} (h : s.producer = .pulling) (hitem : source s.pulled = some item) :
      Move source config s { s with pulled := s.pulled + 1, producer := .sending item }
  | close (h : s.producer = .pulling) : Move source config s { s with producer := .done }
  | send {item} (h : s.producer = .sending item) (hroom : s.channel.length < config.backlogCap) :
      Move source config s { s with channel := s.channel ++ [item], producer := .pulling }
  /-- From the channel to the active files. -/
  | next {item rest} (h : s.channel = item :: rest) :
      Move source config s
        { s with channel := rest, active := s.active ++ [item], admitted := s.admitted + 1 }
  /-- From the channel to the pending list. -/
  | buffer {item rest} (now : Nat) (phase : AdmitterPhase) (hpolicy : config.admission ≠ .fifo)
      (h : s.channel = item :: rest) :
      Move source config s { s.pushPending item rest now with phase }
  /-- From the pending list to the active files. -/
  | fill {index chosen} (activeLarge : Nat) (h : s.pending[index]? = some chosen) :
      Move source config s
        { s with
          pending := s.pending.eraseIdx index, activeLarge, active := s.active ++ [chosen.item]
          admitted := s.admitted + 1 }
  | complete (index activeLarge : Nat) (phase : AdmitterPhase) :
      Move source config s { s with active := s.active.eraseIdx index, activeLarge, phase }
  | turn (sourceDone : Bool) (phase : AdmitterPhase) :
      Move source config s { s with sourceDone, phase }

theorem producerStep_move (h : s.producerStep source config e = some s') :
    Move source config s s' := by
  cases e <;> simp only [producerStep, reduceCtorEq] at h
  case pull =>
    split at h
    · rename_i hp
      split at h
      · rename_i item hi
        cases h
        exact .pull hp hi
      · cases h
        exact .close hp
    · cases h
  case send =>
    split at h
    · rename_i item hp
      split at h
      · rename_i hr
        cases h
        exact .send hp hr
      · cases h
    · cases h

theorem fifoStep_move (h : s.fifoStep config e = some s') : Move source config s s' := by
  cases e <;> simp only [fifoStep, reduceCtorEq] at h
  case next =>
    split at h
    · rename_i item rest hc
      split at h
      · cases h
        exact .next hc
      · cases h
    · cases h
  case complete index =>
    split at h
    · cases h
      exact .complete index s.activeLarge s.phase
    · cases h

variable {smallMaxBytes : Nat}

theorem fill_move {now : Nat} (h : s.fill config smallMaxBytes now = some s') :
    Move source config s s' := by
  unfold StreamingRun.fill at h
  split at h
  · obtain ⟨index, -, h⟩ := bind_eq_some_iff.mp h
    obtain ⟨chosen, hc, h⟩ := bind_eq_some_iff.mp h
    cases h
    exact .fill _ hc
  · split at h
    · split at h
      · cases h
        exact .turn s.sourceDone .ended
      · split at h
        · cases h
          exact .turn s.sourceDone .draining
        · cases h
          exact .turn s.sourceDone .receiving
    · cases h
      exact .turn s.sourceDone .selecting

theorem sizeFairStep_move (hp : config.admission = .sizeFair smallMaxBytes)
    (h : s.sizeFairStep config smallMaxBytes e = some s') : Move source config s s' := by
  have hnot : config.admission ≠ .fifo := by simp [hp]
  cases e <;> simp only [sizeFairStep, reduceCtorEq] at h
  case tryRecv now =>
    split at h
    · split at h
      · rename_i item rest hc
        cases h
        exact .buffer now s.phase hnot hc
      · cases h
        exact .turn _ _
    · cases h
  case fill now =>
    split at h
    · exact fill_move h
    · cases h
  case recv now =>
    split at h
    · split at h
      · rename_i item rest hc
        cases h
        exact .buffer now _ hnot hc
      · split at h
        · cases h
          exact .turn _ _
        · cases h
    · cases h
  case resume =>
    split at h
    · cases h
      exact .turn s.sourceDone .draining
    · cases h
  case complete index =>
    split at h
    · obtain ⟨item, -, rfl⟩ := map_eq_some_iff.mp h
      exact .complete index _ _
    · cases h
  case selectRecv now =>
    split at h
    · split at h
      · rename_i item rest hc
        cases h
        exact .buffer now _ hnot hc
      · split at h
        · cases h
          exact .turn _ _
        · cases h
    · cases h

theorem step_move (h : s.step source config e = some s') : Move source config s s' := by
  unfold step at h
  split at h
  · exact producerStep_move h
  · exact producerStep_move h
  · split at h
    · exact fifoStep_move h
    · rename_i smallMaxBytes hp
      exact sizeFairStep_move hp h

/-! ### The items -/

/-- Every item that was pulled is accounted for, within the capacities. -/
structure Kept (config : StreamingConfig) (s : StreamingRun) : Prop where
  items : s.pulled = s.admitted + s.pending.length + s.channel.length + s.producer.held
  channel : s.channel.length ≤ config.backlogCap
  fifo : config.admission = .fifo → s.pending = []

theorem kept_start (config : StreamingConfig) : Kept config start :=
  ⟨rfl, Nat.zero_le _, fun _ => rfl⟩

theorem kept_step (h : s.step source config e = some s') (hs : Kept config s) : Kept config s' := by
  obtain ⟨hitems, hchan, hfifo⟩ := hs
  cases step_move h with
  | pull hprod hitem =>
    rw [hprod] at hitems
    refine ⟨?_, hchan, hfifo⟩
    simp only [Producer.held] at hitems ⊢
    omega
  | close hprod =>
    rw [hprod] at hitems
    exact ⟨hitems, hchan, hfifo⟩
  | send hprod hr =>
    rw [hprod] at hitems
    refine ⟨?_, ?_, hfifo⟩
    · simp only [Producer.held, length_append, length_singleton] at hitems ⊢
      omega
    · simpa [Nat.succ_le_iff] using hr
  | next hh =>
    rw [hh] at hitems hchan
    refine ⟨?_, ?_, hfifo⟩
    · simp only [length_cons] at hitems ⊢
      omega
    · exact Nat.le_of_succ_le hchan
  | buffer now phase hpolicy hh =>
    rw [hh] at hitems hchan
    refine ⟨?_, ?_, fun hpol => absurd hpol hpolicy⟩
    · simp only [pushPending, length_append, length_cons, length_nil] at hitems ⊢
      omega
    · exact Nat.le_of_succ_le hchan
  | @fill index chosen activeLarge hchosen =>
    obtain ⟨hlt, -⟩ := List.getElem?_eq_some_iff.mp hchosen
    refine ⟨?_, hchan, ?_⟩
    · simp only [length_eraseIdx_of_lt hlt]
      omega
    · intro hpol
      simp [hfifo hpol]
  | complete index activeLarge phase => exact ⟨hitems, hchan, hfifo⟩
  | turn sourceDone phase => exact ⟨hitems, hchan, hfifo⟩

variable {events : List StreamEvent}

/-! ### The bound -/

/-- The items pulled and not yet started. -/
def waiting (s : StreamingRun) : Nat := s.pulled - s.admitted

/-- In arrival order the channel and the producer hold all that waits. -/
theorem waiting_le_of_fifo (hp : config.admission = .fifo)
    (hrun : run (step source config) start events = some s) :
    s.waiting ≤ config.backlogCap + 1 := by
  have hk := run_invariant (fun _ _ _ => kept_step) hrun (kept_start config)
  have hi := hk.items
  rw [hk.fifo hp] at hi
  have hh : s.producer.held ≤ 1 := by
    unfold Producer.held
    split <;> omega
  have := hk.channel
  unfold waiting
  simp only [length_nil] at hi
  omega

theorem pulled_le_of_end {k : Nat} (hend : source k = none)
    (hrun : run (step source config) start events = some s) : s.pulled ≤ k := by
  refine run_invariant (P := fun s => s.pulled ≤ k) ?_ hrun (Nat.zero_le k)
  intro s e s' h hle
  cases step_move h with
  | pull hp hi =>
    have hne : s.pulled ≠ k := by
      rintro rfl
      rw [hend] at hi
      cases hi
    show s.pulled + 1 ≤ k
    omega
  | close | send | next | buffer | fill | complete | turn => exact hle

/-- One item from the source to the pending list, while the admitter drains. -/
def drainOne : List StreamEvent := [.pull, .send, .tryRecv 0]

theorem run_drain (hpolicy : config.admission = .sizeFair smallMaxBytes)
    (hcap : 0 < config.backlogCap) (n : Nat) (hs : ∀ k < n, (source k).isSome = true) :
    ∃ s, run (step source config) start (List.replicate n drainOne).flatten = some s ∧
      s.pulled = n ∧ s.admitted = 0 ∧ s.producer = .pulling ∧ s.channel = [] ∧
        s.phase = .draining := by
  induction n with
  | zero => exact ⟨start, rfl, rfl, rfl, rfl, rfl, rfl⟩
  | succ n ih =>
    obtain ⟨s, hrun, hpulled, ha, hprod, hchan, hphase⟩ := ih fun k hk => hs k (by omega)
    obtain ⟨item, hi⟩ := isSome_iff_exists.mp (hs n (Nat.lt_succ_self n))
    rw [replicate_succ', flatten_append, run_append hrun]
    refine ⟨{ s.pushPending item [] 0 with pulled := n + 1 }, ?_, rfl, ha, hprod, rfl, hphase⟩
    simp [drainOne, run, step, producerStep, sizeFairStep, pushPending, hpolicy, hprod, hpulled,
      hi, hchan, hcap, hphase]

/-- **The frontier is bounded exactly in arrival order, or by a short source.**  For every
source and configuration, in every run at most the capacity of the channel and two more
items wait, if and only if items are admitted in arrival order or the source does not yield
more than that. -/
theorem waiting_bounded_iff (source : WorkSource) (config : StreamingConfig) :
    (∀ events s, Runs.run (step source config.normalized) start events = some s →
        s.waiting ≤ config.normalized.backlogCap + 2) ↔
      config.admission = .fifo ∨ ∃ k ≤ config.normalized.backlogCap + 2, source k = none := by
  have hpolicy : config.normalized.admission = config.admission := rfl
  constructor
  · intro h
    cases hadmission : config.admission with
    | fifo => exact .inl rfl
    | sizeFair smallMaxBytes =>
      refine .inr ?_
      by_contra hshort
      have hlong : ∀ k < config.normalized.backlogCap + 3, (source k).isSome = true := by
        intro k hk
        rw [isSome_iff_ne_none]
        exact fun hend => hshort ⟨k, by omega, hend⟩
      have hcap : 0 < config.normalized.backlogCap :=
        Nat.le_trans (Nat.le_max_right ..) (Nat.le_max_left ..)
      obtain ⟨s, hrun, hpulled, hadmitted, -⟩ := run_drain (hpolicy.trans hadmission) hcap
        (config.normalized.backlogCap + 3) hlong
      have := h _ s hrun
      unfold waiting at this
      omega
  · intro h events s hrun
    rcases h with hfifo | ⟨k, hk, hend⟩
    · exact Nat.le_succ_of_le (waiting_le_of_fifo (hpolicy.trans hfifo) hrun)
    · have := pulled_le_of_end hend hrun
      unfold waiting
      omega

/-- One file runs, and each further item is received while the admitter waits for its end. -/
def receiveOne : List StreamEvent := [.pull, .send, .selectRecv 0, .tryRecv 0, .fill 0]

/-- One slot and a channel of one: one file runs, and four items wait. -/
theorem pending_grows :
    ∃ s, Runs.run (step (fun n => some ⟨n, 1⟩)
      (StreamingConfig.normalized ⟨1, 1, .sizeFair 8388608⟩)) start
        ([.pull, .send, .tryRecv 0, .tryRecv 0, .fill 0, .fill 0] ++
          (List.replicate 4 receiveOne).flatten) = some s ∧
      s.active.length = 1 ∧ s.pending.length = 4 ∧ s.waiting = 4 := by
  refine ⟨_, rfl, rfl, rfl, rfl⟩

/-! ### Which items -/

/-- The items that wait, wherever they are. -/
def waitingItems (s : StreamingRun) : List TransferWorkItem :=
  s.pending.map (·.item) ++ s.channel ++
    match s.producer with
    | .sending item => [item]
    | _ => []

/-- A step, with a record of the files that were started. -/
def record (source : WorkSource) (config : StreamingConfig)
    (r : StreamingRun × List TransferWorkItem) (e : StreamEvent) :
    Option (StreamingRun × List TransferWorkItem) :=
  (r.1.step source config e).map fun s =>
    (s, if s.admitted = r.1.admitted then r.2 else r.2 ++ s.active.getLast?.toList)

/-- The items pulled are those that were started and those that wait, each once. -/
def Conserved (source : WorkSource) (r : StreamingRun × List TransferWorkItem) : Prop :=
  (r.2 ++ r.1.waitingItems).Perm ((range r.1.pulled).filterMap source)

theorem conserved_record {r r' : StreamingRun × List TransferWorkItem}
    (h : record source config r e = some r') (hr : Conserved source r) : Conserved source r' := by
  obtain ⟨s, started⟩ := r
  obtain ⟨s', hstep, rfl⟩ := Option.map_eq_some_iff.mp h
  unfold Conserved waitingItems at hr
  -- An item is started: it leaves the place it waited at.
  have hstart : ∀ (item : TransferWorkItem) {t : StreamingRun}, t.pulled = s.pulled →
      (item :: t.waitingItems).Perm s.waitingItems → Conserved source (t, started ++ [item]) := by
    intro item t hpulled hw
    unfold Conserved
    rw [append_assoc, hpulled]
    exact (hw.append_left started).trans hr
  cases step_move (show s.step source config e = some s' from hstep) with
  | @pull item hprod hitem =>
    simp only [hprod, append_nil] at hr
    simpa [Conserved, waitingItems, range_succ, hitem] using hr.append_right [item]
  | close hprod => simpa [Conserved, waitingItems, hprod] using hr
  | send hprod => simpa [Conserved, waitingItems, hprod] using hr
  | @next item rest hchan =>
    rw [if_neg (Nat.succ_ne_self _), getLast?_concat]
    refine hstart item rfl ?_
    simp only [waitingItems, hchan, append_assoc, cons_append]
    exact perm_middle.symm
  | buffer now phase hpolicy hchan => simpa [Conserved, waitingItems, pushPending, hchan] using hr
  | @fill index chosen activeLarge hchosen =>
    obtain ⟨hlt, rfl⟩ := List.getElem?_eq_some_iff.mp hchosen
    rw [if_neg (Nat.succ_ne_self _), getLast?_concat]
    refine hstart _ rfl ?_
    have hp := ((getElem_cons_eraseIdx_perm hlt).map (·.item)).append_right
      (s.channel ++ match s.producer with
      | .sending item => [item]
      | _ => [])
    simpa [waitingItems] using hp
  | complete index => simpa [Conserved, waitingItems] using hr
  | turn => simpa [Conserved, waitingItems] using hr

/-- **No item is lost and none is started twice.**  In every run, under both policies, what
the source has yielded is what was started and what waits, with the producer, in the
channel or pending. -/
theorem items_conserved (source : WorkSource) (config : StreamingConfig) (events : List StreamEvent)
    {s : StreamingRun} {started : List TransferWorkItem}
    (hrun : run (record source config) (start, []) events = some (s, started)) :
    (started ++ s.waitingItems).Perm ((range s.pulled).filterMap source) :=
  run_invariant (P := Conserved source) (fun _ _ _ => conserved_record) hrun (.refl _)

/-- One item was started, one is in the channel and one with the producer. -/
theorem items_conserved_three : ∃ s started,
    run (record (fun n => some ⟨n, 1⟩) ⟨1, 1, .fifo⟩) (start, [])
      [.pull, .send, .next, .pull, .send, .pull] = some (s, started) ∧
    (started ++ s.waitingItems).Perm ((range s.pulled).filterMap fun n => some ⟨n, 1⟩) := by
  obtain ⟨s, started, hrun⟩ : ∃ s started, run (record (fun n => some ⟨n, 1⟩) ⟨1, 1, .fifo⟩)
    (start, []) [.pull, .send, .next, .pull, .send, .pull] = some (s, started) := ⟨_, _, rfl⟩
  exact ⟨s, started, hrun, items_conserved _ _ _ hrun⟩

end StreamingRun

end AeroFtp.Dag
