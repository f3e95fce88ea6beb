/-
What holds in every run of the executor, whatever the tasks do and in whatever order
they are joined.

The ledger says who has been started, who is resident and who has been closed: started
nodes are the resident ones and the closed ones.  The other invariant is about order: a
node is started only when all it depends on has been released, and nothing is started
once something has happened that stops the run.  Both are kept by each part of a turn.
-/
import AeroFtp.Lib.History
import AeroFtp.Proofs.TransferDag.Frontier

namespace AeroFtp.Dag

open AssocList History List Option DagState

section Steps

variable {observed : ObservedOutcome} {id : Nat} {order : HashOrder Nat}

/-! ### Reading the log -/

namespace DagEvent

def startId : DagEvent → Option Nat
  | .start id _ => some id
  | _ => none

def completeId : DagEvent → Option Nat
  | .complete id _ => some id
  | _ => none

/-- The node whose task was joined, with or without its output. -/
def joinId : DagEvent → Option Nat
  | .joined id _ | .aborted id => some id
  | _ => none

/-- The node that has ended so that the nodes which wait for it may go on. -/
def releasedId : DagEvent → Option Nat
  | .joined id outcome => if outcome.releases then some id else none
  | _ => none

/-- Whether nothing may be started any more. -/
def stops : DagEvent → Bool
  | .joined _ (.failed _) | .joined _ .copyFallback | .aborted _ | .panicked _ | .cancelSeen => true
  | _ => false

end DagEvent

variable (log : List DagEvent)

/-- The nodes that got `on_node_start`. -/
def starts : List Nat := log.filterMap DagEvent.startId

/-- The nodes that got `on_node_complete`. -/
def completes : List Nat := log.filterMap DagEvent.completeId

def joins : List Nat := log.filterMap DagEvent.joinId

def released : List Nat := log.filterMap DagEvent.releasedId

section Append

variable (log more : List DagEvent)

@[simp] theorem starts_append : starts (log ++ more) = starts log ++ starts more := filterMap_append

@[simp] theorem completes_append : completes (log ++ more) = completes log ++ completes more :=
  filterMap_append

@[simp] theorem joins_append : joins (log ++ more) = joins log ++ joins more := filterMap_append

@[simp] theorem released_append : released (log ++ more) = released log ++ released more :=
  filterMap_append

end Append

theorem completes_map (observed : ObservedOutcome) (ids : List Nat) :
    completes (ids.map fun id => .complete id observed) = ids := by
  rw [completes, filterMap_map]
  exact filterMap_some

theorem filterMap_complete_map {f : DagEvent → Option Nat}
    (hf : ∀ id, f (.complete id observed) = none) (ids : List Nat) :
    (ids.map fun id => DagEvent.complete id observed).filterMap f = [] := by
  rw [filterMap_map]
  exact filterMap_eq_nil_iff.mpr fun id _ => hf id

theorem mem_released {log : List DagEvent} {d : Nat} :
    d ∈ released log ↔ ∃ outcome, outcome.releases = true ∧ DagEvent.joined d outcome ∈ log := by
  unfold released
  rw [mem_filterMap]
  constructor
  · rintro ⟨e, he, hd⟩
    cases e with
    | joined id outcome =>
      simp only [DagEvent.releasedId, ite_none_right_eq_some, some.injEq] at hd
      obtain ⟨hrel, rfl⟩ := hd
      exact ⟨outcome, hrel, he⟩
    | start | complete | aborted | panicked | cancelSeen => cases hd
  · rintro ⟨outcome, hrel, he⟩
    exact ⟨_, he, by simp [DagEvent.releasedId, hrel]⟩

variable {outcome : NodeOutcome}

theorem released_ended (h : outcome.releases = true) (log : List DagEvent)
    (observed : ObservedOutcome) :
    released (log ++ [.joined id outcome] ++ [.complete id observed]) = released log ++ [id] := by
  have hj : released [.joined id outcome] = [id] := by simp [released, DagEvent.releasedId, h]
  rw [released_append, released_append, hj]
  exact append_nil _

theorem released_subset_joins : released log ⊆ joins log := by
  intro d hd
  obtain ⟨outcome, _, he⟩ := mem_released.mp hd
  exact mem_filterMap.mpr ⟨_, he, rfl⟩

theorem insertNew_of_not_mem {l : List Nat} {a : Nat} (h : a ∉ l) : insertNew l a = l ++ [a] :=
  if_neg h

variable {dag : TransferDag}

theorem DagState.dispatch_eq (s : DagState) (hlt : id < dag.nodes.length) :
    ∃ kind, s.dispatch dag id =
      { s with
        started := s.started ++ [id]
        resident := s.resident ++ [id]
        log := s.log ++ [.start id kind] } := by
  have hn := getElem?_eq_getElem hlt
  have hid := (dag.id_of_getElem? hn).1
  refine ⟨dag.nodes[id].kind, ?_⟩
  rw [dispatch, hn]
  dsimp only
  rw [hid]

/-! ### The ledger -/

/-- The nodes counted as over. -/
abbrev DagExecutionSummary.nodesOver (summary : DagExecutionSummary) : UInt32 :=
  summary.nodesCompleted + summary.nodesFailed

/-- Who has been started, who is resident, who has been closed. -/
structure Ledger (window : Nat) (s : DagState) : Prop where
  starts_eq : starts s.log = s.started
  completes_eq : completes s.log = s.terminalNotified
  nodup : s.started.Nodup
  /-- A started node is resident or closed. -/
  split : s.started.Perm (s.resident ++ s.terminalNotified)
  joins_nodup : (joins s.log).Nodup
  joins_closed : joins s.log ⊆ s.terminalNotified
  residency : s.resident.length ≤ window
  count : s.summary.nodesOver = UInt32.ofNat s.terminalNotified.length

namespace Ledger

variable {window : Nat} {s t : DagState}

theorem not_closed (h : Ledger window s) (hid : id ∈ s.resident) : id ∉ s.terminalNotified := by
  have hn := h.split.nodup_iff.mp h.nodup
  exact fun hc => (nodup_append.mp hn).2.2 id hid id hc rfl

theorem not_joined (h : Ledger window s) (hid : id ∈ s.resident) : id ∉ joins s.log :=
  fun hj => h.not_closed hid (h.joins_closed hj)

theorem closing (h : Ledger window s) (opened : List Nat) (more : List DagEvent)
    (hstarted : t.started = s.started) (ho : (t.resident ++ opened).Perm s.resident)
    (hclosed : t.terminalNotified = s.terminalNotified ++ opened) (hlog : t.log = s.log ++ more)
    (hstarts : starts more = []) (hcompletes : completes more = opened) (hn : (joins more).Nodup)
    (hj : joins more ⊆ opened)
    (hcount : t.summary.nodesOver = s.summary.nodesOver + UInt32.ofNat opened.length) :
    Ledger window t where
  starts_eq := by rw [hlog, starts_append, hstarts, append_nil, hstarted, h.starts_eq]
  completes_eq := by rw [hlog, completes_append, hcompletes, hclosed, h.completes_eq]
  nodup := by
    rw [hstarted]
    exact h.nodup
  split := by
    rw [hstarted, hclosed]
    refine h.split.trans ((ho.symm.append_right _).trans ?_)
    rw [append_assoc]
    exact perm_append_comm.append_left _
  joins_nodup := by
    rw [hlog, joins_append]
    refine List.Nodup.append h.joins_nodup hn fun id hid hm => ?_
    exact h.not_joined (ho.subset (mem_append_right _ (hj hm))) hid
  joins_closed := by
    rw [hlog, joins_append, hclosed]
    exact append_subset.mpr ⟨fun d hd => mem_append_left _ (h.joins_closed hd),
      fun d hd => mem_append_right _ (hj hd)⟩
  residency := by
    have hlen := ho.length_eq
    have hw := h.residency
    rw [length_append] at hlen
    omega
  count := by rw [hcount, h.count, hclosed, length_append, UInt32.ofNat_add]

theorem close (h : Ledger window s) (hid : id ∈ s.resident) (e : DagEvent)
    (hjoin : joins [e] = [id]) (hstart : starts [e] = []) (hcomplete : completes [e] = [])
    (hstarted : t.started = s.started) (hr : t.resident = s.resident.erase id)
    (hclosed : t.terminalNotified = s.terminalNotified ++ [id])
    (hlog : t.log = s.log ++ [e] ++ [.complete id observed])
    (hcount : t.summary.nodesOver = s.summary.nodesOver + 1) : Ledger window t := by
  have hjoins : joins ([e] ++ [.complete id observed]) = [id] := by rw [joins_append, hjoin]; rfl
  refine h.closing [id] ([e] ++ [.complete id observed]) hstarted ?_ hclosed
    (hlog.trans (append_assoc ..))
    (by rw [starts_append, hstart]; rfl) (by rw [completes_append, hcomplete]; rfl) ?_ ?_ hcount
  · rw [hr]
    exact (perm_append_singleton id _).trans (perm_cons_erase hid).symm
  · rw [hjoins]
    exact nodup_singleton id
  · rw [hjoins]
    exact List.Subset.refl _

theorem note (h : Ledger window s) (e : DagEvent) (hs : starts [e] = []) (hc : completes [e] = [])
    (hj : joins [e] = []) : Ledger window { s with log := s.log ++ [e] } :=
  h.closing [] [e] rfl (by rw [append_nil]) (append_nil _).symm rfl hs hc
    (hj ▸ nodup_nil) (hj ▸ List.Subset.refl _) (UInt32.add_zero _).symm

theorem dispatch (h : Ledger window s) (hlt : id < dag.nodes.length) (hf : id ∉ s.started)
    (hr : s.resident.length < window) : Ledger window (s.dispatch dag id) := by
  obtain ⟨kind, hd⟩ := dispatch_eq s hlt
  rw [hd]
  refine ⟨?_, ?_, ?_, ?_, ?_, ?_, ?_, h.count⟩
  · rw [starts_append, h.starts_eq]
    rfl
  · rw [completes_append, h.completes_eq]
    exact append_nil _
  · exact List.Nodup.append h.nodup (by simp) (by simpa using hf)
  · refine (h.split.append_right [id]).trans ?_
    rw [append_assoc, append_assoc]
    exact perm_append_comm.append_left _
  · rw [joins_append]
    exact (append_nil _).symm ▸ h.joins_nodup
  · rw [joins_append]
    exact (append_nil _).symm ▸ h.joins_closed
  · rw [length_append]
    exact hr

end Ledger

/-! ### Closing what is open -/

variable {ids : List Nat}

theorem DagState.notifyOpen_eq (observed : ObservedOutcome) (hnd : ids.Nodup) (s : DagState) :
    let opened := ids.filter fun id => id ∉ s.terminalNotified
    notifyOpen observed ids s =
      { s with
        terminalNotified := s.terminalNotified ++ opened
        log := s.log ++ opened.map fun id => .complete id observed
        summary.nodesFailed := s.summary.nodesFailed + UInt32.ofNat opened.length } := by
  induction ids generalizing s with
  | nil => simp [notifyOpen]
  | cons id ids ih =>
    obtain ⟨hid, hnd⟩ := nodup_cons.mp hnd
    rw [notifyOpen]
    split
    next hc =>
      rw [ih hnd]
      simp [hc]
    next ho =>
      have hs : ids.filter (fun x => x ∉ s.terminalNotified ++ [id])
          = ids.filter fun x => x ∉ s.terminalNotified := by
        apply filter_congr
        intro x hx
        have hne : x ≠ id := by
          rintro rfl
          exact hid hx
        simp [hne]
      rw [ih hnd]
      simp only [notify, insertNew_of_not_mem ho, hs]
      rw [filter_cons, if_pos (by simpa using ho)]
      simp only [append_assoc, length_cons,
        UInt32.ofNat_add, UInt32.add_assoc, UInt32.add_comm 1]
      rfl

theorem Ledger.closeAll {window : Nat} {s t : DagState} (h : Ledger window s)
    (order : HashOrder Nat) {opened : List Nat} (observed : ObservedOutcome)
    (ho : (order.iter s.started).filter (fun id => id ∉ s.terminalNotified) = opened)
    (hs : t.started = s.started) (hr : t.resident = [])
    (hclosed : t.terminalNotified = s.terminalNotified ++ opened)
    (hlog : t.log = s.log ++ opened.map fun id => .complete id observed)
    (hcount : t.summary.nodesOver = s.summary.nodesOver + UInt32.ofNat opened.length) :
    Ledger window t := by
  -- What is open is what is resident.
  have ho : opened.Perm s.resident := by
    refine ho ▸ (((order.perm s.started).trans h.split).filter _).trans ?_
    rw [filter_append, filter_eq_self.mpr, filter_eq_nil_iff.mpr, append_nil]
    · intro id hid
      simpa using hid
    · intro id hid
      simpa using h.not_closed hid
  have hj : joins (opened.map fun id => .complete id observed) = [] :=
    filterMap_complete_map (fun _ => rfl) _
  exact h.closing opened _ hs (by rw [hr]; exact ho) hclosed hlog
    (filterMap_complete_map (fun _ => rfl) _) (completes_map observed opened) (hj ▸ nodup_nil)
    (hj ▸ nil_subset _) hcount

/-! ### The order of starts -/

/-- A node is started when all it depends on is released and nothing has stopped the
run. -/
def StartsInOrder (dag : TransferDag) (before : List DagEvent) (e : DagEvent) : Prop :=
  ∀ v kind, e = .start v kind →
    (∀ d ∈ dag.dependsOn v, d ∈ released before) ∧ ∀ e' ∈ before, e'.stops = false

/-- The run launches nothing any more. -/
def Halted (s : DagState) : Prop :=
  s.failed.isSome = true ∨ s.copyTransition = true ∨ s.result.isSome = true

structure Orderly (dag : TransferDag) (s : DagState) : Prop where
  frontier : Frontier dag s.ready s.started (released s.log)
  counted : s.failed = none → Counted dag s.remainingDeps s.ready s.started (released s.log)
  ordered : Each (StartsInOrder dag) s.log
  halted : ∀ e ∈ s.log, e.stops = true → Halted s

theorem Frontier.mono {ready started before after : List Nat}
    (h : Frontier dag ready started before) (hsub : before ⊆ after) :
    Frontier dag ready started after :=
  ⟨h.nodup, fun v hv => ⟨(h.satisfied v hv).1, fun d hd => hsub ((h.satisfied v hv).2 d hd)⟩⟩

namespace Orderly

variable {dag : TransferDag} {s t : DagState}

theorem extend (h : Orderly dag s) (more : List DagEvent) (hlog : t.log = s.log ++ more)
    (hm : ∀ e ∈ more, e.startId = none) (hf : Frontier dag t.ready t.started (released t.log))
    (hc : t.failed = none → Counted dag t.remainingDeps t.ready t.started (released t.log))
    (hold : Halted s → Halted t) (hnew : ∀ e ∈ more, e.stops = true → Halted t) :
    Orderly dag t := by
  refine ⟨hf, hc, ?_, ?_⟩
  · rw [hlog]
    refine h.ordered.append fun before e he v kind hstart => ?_
    have hnone := hm e he
    rw [hstart] at hnone
    cases hnone
  · intro e he hstop
    rw [hlog] at he
    rcases mem_append.mp he with he | he
    · exact hold (h.halted e he hstop)
    · exact hnew e he hstop

theorem halting (h : Orderly dag s) (more : List DagEvent) (hlog : t.log = s.log ++ more)
    (hm : ∀ e ∈ more, e.startId = none ∧ e.releasedId = none)
    (hready : t.ready = s.ready) (hs : t.started = s.started)
    (hrem : t.remainingDeps = s.remainingDeps) (hf : t.failed = none → s.failed = none)
    (hh : Halted t) : Orderly dag t := by
  have hreleased : released t.log = released s.log := by
    rw [hlog, released_append, released, released, filterMap_eq_nil_iff.mpr fun e he => (hm e he).2,
      append_nil]
  refine h.extend more hlog (fun e he => (hm e he).1) ?_ ?_ (fun _ => hh) fun _ _ _ => hh
  · rw [hready, hs, hreleased]
    exact h.frontier
  · intro hn
    rw [hready, hs, hreleased, hrem]
    exact h.counted (hf hn)

theorem failing (h : Orderly dag s) (more : List DagEvent) (hlog : t.log = s.log ++ more)
    (hm : ∀ e ∈ more, e.startId = none ∧ e.releasedId = none)
    (hready : t.ready = s.ready) (hs : t.started = s.started)
    (hrem : t.remainingDeps = s.remainingDeps) (hf : t.failed.isSome = true) : Orderly dag t :=
  h.halting more hlog hm hready hs hrem
    (fun hn => by rw [hn] at hf; cases hf) (.inl hf)

theorem dispatch {rest : List Nat} (h : Orderly dag { s with ready := id :: rest })
    (hf : s.failed = none) (hg : ¬ Halted s) :
    Orderly dag { s.dispatch dag id with ready := rest } := by
  obtain ⟨hlt, hdeps⟩ := h.frontier.satisfied id (by simp)
  obtain ⟨kind, hdispatch⟩ := dispatch_eq s hlt
  have hc := h.counted hf
  have hp : (rest ++ (s.started ++ [id])).Perm ((id :: rest) ++ s.started) := by
    rw [← append_assoc]
    exact perm_append_singleton id _
  have hr : released (s.log ++ [.start id kind]) = released s.log := by
    rw [released_append]
    exact append_nil _
  rw [hdispatch]
  refine ⟨?_, fun _ => ?_, each_snoc.mpr ⟨h.ordered, ?_⟩, ?_⟩
  · show Frontier dag rest (s.started ++ [id]) (released (s.log ++ [.start id kind]))
    rw [hr]
    exact ⟨hp.nodup_iff.mpr h.frontier.nodup, fun v hv => h.frontier.satisfied v (hp.mem_iff.mp hv)⟩
  · show Counted dag s.remainingDeps rest (s.started ++ [id]) (released (s.log ++ [.start id kind]))
    rw [hr]
    exact ⟨hc.length, hc.count, fun v hv hz => hp.mem_iff.mpr (hc.all v hv hz)⟩
  · rintro v kind ⟨⟩
    refine ⟨hdeps, fun e he => ?_⟩
    by_contra hs
    exact hg (h.halted e he (by simpa using hs))
  · intro e he hs
    rcases mem_append.mp he with he | he
    · exact h.halted e he hs
    · rw [mem_singleton] at he
      subst he
      cases hs

end Orderly

/-- Both invariants. -/
structure Sound (dag : TransferDag) (window : Nat) (s : DagState) : Prop where
  ledger : Ledger window s
  orderly : Orderly dag s

variable {dag : TransferDag} {window : Nat} {s : DagState}

/-! ### The parts of a turn -/

theorem sound_observeCancel (h : Sound dag window s) (cancelled : Bool) :
    Sound dag window (s.observeCancel cancelled) := by
  unfold observeCancel
  split
  · refine ⟨{ h.ledger.note .cancelSeen rfl rfl rfl with }, ?_⟩
    exact h.orderly.failing [.cancelSeen] rfl (by simp [DagEvent.startId, DagEvent.releasedId])
      rfl rfl rfl rfl
  · exact h

theorem DagState.fill_frame (dag : TransferDag) (window : Nat) (ids : List Nat) (s : DagState) :
    ∃ ready started resident log, fill dag window ids s
      = { s with ready, started, resident, log } := by
  induction ids generalizing s with
  | nil => exact ⟨[], s.started, s.resident, s.log, rfl⟩
  | cons id rest ih =>
    rw [fill]
    split
    · split
      · exact ih s
      · obtain ⟨ready, started, resident, log, heq⟩ := ih (s.dispatch dag id)
        refine ⟨ready, started, resident, log, heq.trans ?_⟩
        unfold dispatch
        split <;> rfl
    · exact ⟨id :: rest, s.started, s.resident, s.log, rfl⟩

theorem sound_fill (hl : Ledger window s) (ho : Orderly dag { s with ready := ids })
    (hfailed : s.failed = none) (hg : ¬ Halted s) : Sound dag window (s.fill dag window ids) := by
  induction ids generalizing s with
  | nil => exact ⟨{ hl with }, ho⟩
  | cons id rest ih =>
    rw [fill]
    have hfresh : id ∉ s.started := by
      intro hs
      have hn := ho.frontier.nodup
      exact (nodup_cons.mp hn).1 (mem_append_right _ hs)
    split
    next hr =>
      have hlt := (ho.frontier.satisfied id (by simp)).1
      obtain ⟨kind, hd⟩ := dispatch_eq s hlt
      refine ih (hl.dispatch hlt hfresh hr) (ho.dispatch hfailed hg) ?_ ?_
      · rw [hd]
        exact hfailed
      · rw [hd]
        exact hg
    next =>
      exact ⟨{ hl with }, ho⟩

theorem sound_dispatchStep (h : Sound dag window s) (hrunning : s.result = none) :
    Sound dag window (s.dispatchStep dag window) := by
  unfold dispatchStep
  split
  next hgo =>
    have hfailed : s.failed = none := isNone_iff_eq_none.mp hgo.1
    have hgoing : ¬ Halted s := by
      rintro (hf | hc | hr)
      · simp [hfailed] at hf
      · simp [hgo.2] at hc
      · simp [hrunning] at hr
    have hfill := sound_fill h.ledger h.orderly hfailed hgoing
    exact ⟨{ hfill.ledger with }, { hfill.orderly with }⟩
  · exact h

theorem DagState.release_frame (dag : TransferDag) (s : DagState) (id : Nat) :
    ∃ remainingDeps ready, s.release dag id = { s with remainingDeps, ready } := by
  unfold release
  split
  · exact ⟨_, _, rfl⟩
  · exact ⟨s.remainingDeps, s.ready, rfl⟩

theorem DagState.settle_frame (dag : TransferDag) (s : DagState) (hid : id ∉ s.terminalNotified)
    (outcome : NodeOutcome) : (s.settle dag id outcome).started = s.started ∧
    (s.settle dag id outcome).resident = s.resident ∧
    (s.settle dag id outcome).terminalNotified = s.terminalNotified ++ [id] ∧
    (∃ observed, (s.settle dag id outcome).log = s.log ++ [.complete id observed]) ∧
    (s.settle dag id outcome).summary.nodesOver = s.summary.nodesOver + 1 ∧
    (s.settle dag id outcome).result = s.result := by
  have hc : ∀ a b : UInt32, a + 1 + b = a + b + 1 := by
    intro a b
    rw [UInt32.add_assoc, UInt32.add_comm 1, ← UInt32.add_assoc]
  have hf : ∀ a b : UInt32, a + (b + 1) = a + b + 1 := fun a b => (UInt32.add_assoc a b 1).symm
  have hins := insertNew_of_not_mem hid
  cases outcome with
  | completed | fallback =>
    simp only [settle]
    obtain ⟨_, _, heq⟩ := release_frame dag _ id
    rw [heq]
    exact ⟨rfl, rfl, hins, ⟨_, rfl⟩, hc _ _, rfl⟩
  | copyFallback => exact ⟨rfl, rfl, hins, ⟨_, rfl⟩, hc _ _, rfl⟩
  | fileFailedButGraphContinues error =>
    simp only [settle]
    obtain ⟨_, _, heq⟩ := release_frame dag _ id
    rw [heq]
    exact ⟨rfl, rfl, hins, ⟨_, rfl⟩, hf _ _, rfl⟩
  | failed error =>
    simp only [settle]
    split
    · exact ⟨rfl, rfl, hins, ⟨_, rfl⟩, hf _ _, rfl⟩
    · exact ⟨rfl, rfl, hins, ⟨_, rfl⟩, hf _ _, rfl⟩

theorem stops_of_releases (h : outcome.releases = true) :
    (DagEvent.joined id outcome).stops = false := by
  cases outcome with
  | completed | fallback | fileFailedButGraphContinues => rfl
  | copyFallback | failed => cases h

section

variable (h : Sound dag window s)
include h

variable (hid : id ∈ s.resident)
include hid

theorem Sound.resident_open : id < dag.nodes.length ∧ id ∈ s.started ∧ id ∉ released s.log := by
  have hs : id ∈ s.started := h.ledger.split.mem_iff.mpr (mem_append_left _ hid)
  refine ⟨(h.orderly.frontier.satisfied id (mem_append_right _ hs)).1, hs, ?_⟩
  exact fun hrel => h.ledger.not_joined hid (released_subset_joins _ hrel)

theorem orderly_release (outcome : NodeOutcome) (hrel : outcome.releases = true) {u : DagState}
    (hlog : u.log = s.log ++ [.joined id outcome] ++ [.complete id observed])
    (hready : u.ready = s.ready) (hstarted : u.started = s.started)
    (hrem : u.remainingDeps = s.remainingDeps) (hfailed : u.failed = s.failed)
    (hcopy : u.copyTransition = s.copyTransition) (hresult : u.result = s.result) :
    Orderly dag (u.release dag id) := by
  obtain ⟨hlt, _, hfresh⟩ := h.resident_open hid
  have hreleased : released u.log = released s.log ++ [id] := by rw [hlog, released_ended hrel]
  have hsame : (u.release dag id).log = u.log ∧ (u.release dag id).failed = u.failed ∧
      (Halted s → Halted (u.release dag id)) := by
    obtain ⟨_, _, heq⟩ := release_frame dag u id
    unfold Halted
    rw [heq, ← hfailed, ← hcopy, ← hresult]
    exact ⟨rfl, rfl, fun hs => hs⟩
  have hb : Frontier dag (u.release dag id).ready (u.release dag id).started (released u.log) ∧
      (u.failed = none → Counted dag (u.release dag id).remainingDeps (u.release dag id).ready
        (u.release dag id).started (released u.log)) := by
    rw [hreleased]
    unfold release
    split
    next hn =>
      have hcounted := h.orderly.counted (hfailed.symm.trans (isNone_iff_eq_none.mp hn))
      have hrelease := frontier_release h.orderly.frontier hcounted hfresh hlt
      rw [hready, hstarted, hrem]
      exact ⟨hrelease.1, fun _ => hrelease.2⟩
    next hsome =>
      rw [hready, hstarted]
      refine ⟨h.orderly.frontier.mono (subset_append_left ..), fun hn => ?_⟩
      exact absurd (by rw [hn]; rfl) hsome
  rw [← hsame.1, ← hsame.2.1] at hb
  refine h.orderly.extend _ ((hsame.1.trans hlog).trans (append_assoc ..)) ?_ hb.1 hb.2 hsame.2.2 ?_
  · simp [DagEvent.startId]
  · intro e he hstop
    rcases mem_append.mp he with he | he
    · rw [mem_singleton.mp he, stops_of_releases hrel] at hstop
      cases hstop
    · rw [mem_singleton.mp he] at hstop
      cases hstop

theorem sound_settle (outcome : NodeOutcome) : Sound dag window (settle dag
      { s with resident := s.resident.erase id, log := s.log ++ [.joined id outcome] }
      id outcome) := by
  have ho := h.ledger.not_closed hid
  obtain ⟨hstarted, hres, hclosed, ⟨observed, hlog⟩, hcount, _⟩ :=
    settle_frame dag
      { s with resident := s.resident.erase id, log := s.log ++ [.joined id outcome] } ho outcome
  refine ⟨h.ledger.close hid (.joined id outcome) rfl rfl rfl hstarted hres hclosed hlog hcount, ?_⟩
  have he : ∀ observed : ObservedOutcome, outcome.releases = false →
      ∀ e ∈ [DagEvent.joined id outcome, .complete id observed], e.startId = none ∧
        e.releasedId = none := by
    intro observed hrel
    simp [DagEvent.startId, DagEvent.releasedId, hrel]
  cases outcome with
  | completed => exact orderly_release h hid .completed rfl rfl rfl rfl rfl rfl rfl rfl
  | fallback => exact orderly_release h hid .fallback rfl rfl rfl rfl rfl rfl rfl rfl
  | fileFailedButGraphContinues error =>
    exact orderly_release h hid (.fileFailedButGraphContinues error) rfl rfl rfl rfl rfl rfl rfl rfl
  | copyFallback =>
    exact h.orderly.halting _ (append_assoc ..) (he .fallback rfl) rfl rfl rfl (fun hf => hf)
      (.inr (.inl rfl))
  | failed error =>
    simp only [settle]
    split
    · exact h.orderly.failing _ (append_assoc ..) (he error.observed rfl) rfl rfl rfl rfl
    next hsome =>
      exact h.orderly.failing _ (append_assoc ..) (he error.observed rfl) rfl rfl rfl
        (isSome_iff_ne_none.mpr (mt isNone_iff_eq_none.mpr hsome))

theorem sound_closeAborted : Sound dag window (closeAborted
      { s with resident := s.resident.erase id, log := s.log ++ [.aborted id] } id) := by
  have ho := h.ledger.not_closed hid
  have hins := insertNew_of_not_mem ho
  have hc : s.summary.nodesCompleted + (s.summary.nodesFailed + 1)
      = s.summary.nodesCompleted + s.summary.nodesFailed + 1 := (UInt32.add_assoc ..).symm
  have he : ∀ e ∈ [DagEvent.aborted id, .complete id .cancelled],
      e.startId = none ∧ e.releasedId = none := by
    simp [DagEvent.startId, DagEvent.releasedId]
  rw [closeAborted, if_neg ho]
  dsimp only
  split
  · exact ⟨h.ledger.close hid (.aborted id) rfl rfl rfl rfl rfl hins rfl hc,
      h.orderly.failing _ (append_assoc ..) he rfl rfl rfl rfl⟩
  next hs =>
    exact ⟨h.ledger.close hid (.aborted id) rfl rfl rfl rfl rfl hins rfl hc,
      h.orderly.failing _ (append_assoc ..) he rfl rfl rfl
        (isSome_iff_ne_none.mpr (mt isNone_iff_eq_none.mpr hs))⟩

end

theorem DagState.finish_frame (order : HashOrder Nat) (s : DagState) (hnd : s.started.Nodup) :
    let opened := (order.iter s.started).filter fun id => id ∉ s.terminalNotified
    ∃ failed result, (failed = none → s.failed = none) ∧ s.finish order =
      { s with
        resident := []
        terminalNotified := s.terminalNotified ++ opened
        log := s.log ++ opened.map fun id => .complete id .cancelled
        summary.nodesFailed := s.summary.nodesFailed + UInt32.ofNat opened.length
        failed
        result := some result } := by
  have hi : (order.iter s.started).Nodup := order.nodup_iter hnd
  have hnotify := notifyOpen_eq .cancelled hi { s with resident := [] }
  unfold finish
  rw [hnotify]
  refine ⟨_, _, ?_, rfl⟩
  cases s.failed with
  | none => exact fun _ => rfl
  | some failure => exact nofun

theorem orderly_finish (h : Orderly dag s) (hn : s.started.Nodup) (order : HashOrder Nat) :
    Orderly dag (s.finish order) := by
  obtain ⟨failed, result, hf, heq⟩ := finish_frame order s hn
  rw [heq]
  refine h.halting _ rfl ?_ rfl rfl rfl hf (.inr (.inr rfl))
  intro e he
  obtain ⟨id, _, rfl⟩ := mem_map.mp he
  exact ⟨rfl, rfl⟩

section

variable (h : Sound dag window s)
include h

variable (order : HashOrder Nat)

theorem sound_finish : Sound dag window (s.finish order) := by
  refine ⟨?_, orderly_finish h.orderly h.ledger.nodup order⟩
  obtain ⟨failed, result, _, heq⟩ := finish_frame order s h.ledger.nodup
  rw [heq]
  exact h.ledger.closeAll order .cancelled rfl rfl rfl rfl rfl (UInt32.add_assoc ..).symm

theorem sound_closePanicked (id : Nat) (message : String) :
    Sound dag window
      (closePanicked order { s with log := s.log ++ [.panicked id] } id message) := by
  have hi : (order.iter s.started).Nodup := order.nodup_iter h.ledger.nodup
  have hl : Ledger window { s with log := s.log ++ [.panicked id] } :=
    h.ledger.note (.panicked id) rfl rfl rfl
  have hnotify := notifyOpen_eq .failed hi { s with log := s.log ++ [.panicked id] }
  unfold closePanicked
  rw [hnotify]
  generalize ho : (order.iter s.started).filter (fun id => id ∉ s.terminalNotified) = opened
  -- Nothing is left open for the end of the function.
  have hr : (order.iter s.started).filter (fun id => id ∉ s.terminalNotified ++ opened) = [] := by
    rw [filter_eq_nil_iff]
    intro x hx hnot
    have hnot : x ∉ s.terminalNotified ∧ x ∉ opened := by simpa using hnot
    exact hnot.2 (ho ▸ mem_filter.mpr ⟨hx, by simpa using hnot.1⟩)
  obtain ⟨failed, result, hf, heq⟩ := finish_frame order
    { s with
      terminalNotified := s.terminalNotified ++ opened
      terminalError := some (.taskPanicked id message)
      log := s.log ++ [.panicked id] ++ opened.map fun id => .complete id .failed
      summary.nodesFailed := s.summary.nodesFailed + UInt32.ofNat opened.length } h.ledger.nodup
  rw [hr] at heq
  rw [heq]
  refine ⟨?_, ?_⟩
  · refine hl.closeAll order .failed ho rfl rfl (append_nil _) (append_nil _) ?_
    simp [UInt32.add_assoc]
  · refine h.orderly.halting ([.panicked id] ++ opened.map fun id => .complete id .failed) ?_ ?_
      rfl rfl rfl hf (.inr (.inr rfl))
    · dsimp only
      rw [map_nil, append_nil, append_assoc]
    · intro e he
      rcases mem_append.mp he with he | he
      · rw [mem_singleton] at he
        subst he
        exact ⟨rfl, rfl⟩
      · obtain ⟨id, _, rfl⟩ := mem_map.mp he
        exact ⟨rfl, rfl⟩

theorem sound_drained : Sound dag window (s.drained dag order) := by
  unfold drained
  split
  · exact sound_finish h order
  · refine sound_finish ⟨?_, ?_⟩ order
    · exact { h.ledger with }
    · exact { h.orderly with }

theorem sound_forceAborted (b : Bool) : Sound dag window { s with forceAborted := b } :=
  ⟨{ h.ledger with }, { h.orderly with }⟩

end

variable {t : DagState} {joined : Joined}

theorem DagState.join_cases (h : s.join dag order joined = some t) :
    (∃ id outcome, joined = .finished id outcome ∧ id ∈ s.resident ∧ t = settle dag
      { s with resident := s.resident.erase id, log := s.log ++ [.joined id outcome] } id outcome) ∨
    (∃ id, id ∈ s.resident ∧ t = closeAborted
      { s with resident := s.resident.erase id, log := s.log ++ [.aborted id] } id) ∨
    (∃ id message, t = closePanicked order { s with log := s.log ++ [.panicked id] } id message) ∨
    t = { s with forceAborted := true } ∨ t = s.finish order := by
  cases joined <;> rw [join, ite_none_right_eq_some] at h <;> obtain ⟨hif, h⟩ := h <;> cases h
  case finished id outcome => exact .inl ⟨id, outcome, rfl, hif, rfl⟩
  case aborted id => exact .inr (.inl ⟨id, hif, rfl⟩)
  case panicked id message => exact .inr (.inr (.inl ⟨id, message, rfl⟩))
  case graceOver => exact .inr (.inr (.inr (.inl rfl)))
  case drainOver => exact .inr (.inr (.inr (.inr rfl)))

theorem sound_join (h : Sound dag window s)
    (ht : s.join dag order joined = some t) : Sound dag window t := by
  rcases join_cases ht with ⟨id, outcome, -, hid, rfl⟩ | ⟨id, hid, rfl⟩ |
    ⟨id, message, rfl⟩ | rfl | rfl
  · exact sound_settle h hid outcome
  · exact sound_closeAborted h hid
  · exact sound_closePanicked h order id message
  · exact sound_forceAborted h true
  · exact sound_finish h order

theorem DagState.turn_cases {turn : Turn} (ht : s.turn dag window order turn = some t) :
    s.result = none ∧ ∃ u, u = (s.observeCancel turn.cancelled).dispatchStep dag (max window 1) ∧
      ((u.resident = [] ∧ t = u.drained dag order) ∨
        (u.resident ≠ [] ∧ ∃ aborted, join dag order { u with forceAborted := aborted } turn.joined
          = some t)) := by
  unfold DagState.turn at ht
  split at ht
  · cases ht
  next hnone =>
    refine ⟨by simpa using hnone, _, rfl, ?_⟩
    dsimp only at ht
    split at ht
    next he => exact .inl ⟨he, (some.inj ht).symm⟩
    next hne =>
      refine .inr ⟨hne, ?_⟩
      split at ht
      · exact ⟨true, ht⟩
      · exact ⟨_, ht⟩

theorem DagState.observeCancel_result (s : DagState) (cancelled : Bool) :
    (s.observeCancel cancelled).result = s.result := by
  unfold observeCancel
  split <;> rfl

theorem DagState.dispatchStep_result (dag : TransferDag) (window : Nat) (s : DagState) :
    (s.dispatchStep dag window).result = s.result := by
  unfold dispatchStep
  split
  · obtain ⟨_, _, _, _, heq⟩ := fill_frame dag window s.ready s
    rw [heq]
  · rfl

theorem sound_turn (order : HashOrder Nat) (s : DagState) (turn : Turn) (t : DagState)
    (ht : s.turn dag window order turn = some t) (h : Sound dag (max window 1) s) :
    Sound dag (max window 1) t := by
  obtain ⟨hn, u, rfl, hc⟩ := turn_cases ht
  have hu := sound_dispatchStep (sound_observeCancel h turn.cancelled)
    ((s.observeCancel_result turn.cancelled).trans hn)
  rcases hc with ⟨_, rfl⟩ | ⟨_, aborted, hj⟩
  · exact sound_drained hu order
  · exact sound_join (sound_forceAborted hu aborted) hj

theorem sound_start (budget : TransferBudget) : Sound dag window (start dag budget) := by
  obtain ⟨hf, hcounted⟩ := @frontier_start dag
  have hledger : ∀ s : DagState, s.started = [] → s.log = [] → s.terminalNotified = [] →
      s.resident = [] → s.summary = {} → Ledger window s := by
    intro s hstarted hlog hclosed hr hsummary
    refine ⟨?_, ?_, ?_, ?_, ?_, ?_, ?_, ?_⟩
    all_goals simp [hstarted, hlog, hclosed, hr, hsummary, starts, completes, joins]
  have ho : ∀ result, Orderly dag
      { ready := (range dag.index.remainingDeps.length).filter
          fun id => dag.index.remainingDeps.getD id 0 = 0
        remainingDeps := dag.index.remainingDeps
        result } := by
    intro result
    exact ⟨hf, fun _ => hcounted, each_nil, fun e he => by cases he⟩
  unfold start
  split
  · exact ⟨hledger _ rfl rfl rfl rfl rfl, ho _⟩
  · split
    · exact ⟨hledger _ rfl rfl rfl rfl rfl, ho _⟩
    · exact ⟨hledger _ rfl rfl rfl rfl rfl, ho _⟩

variable {budget : TransferBudget} {turns : List Turn}

/-- **Both invariants hold in every state of every run.** -/
theorem sound_run
    (h : run dag budget window order turns = some s) : Sound dag (max window 1) s :=
  Runs.run_invariant (sound_turn order) h (sound_start budget)

/-! ### Safety -/

theorem DagState.notifyOpen_resident (observed : ObservedOutcome) (ids : List Nat) (s : DagState) :
    (notifyOpen observed ids s).resident = s.resident := by
  induction ids generalizing s with
  | nil => rfl
  | cons id ids ih =>
    rw [notifyOpen]
    split
    · exact ih s
    · exact ih _

theorem DagState.finish_resident (order : HashOrder Nat) (s : DagState) :
    (s.finish order).resident = [] :=
  notifyOpen_resident .cancelled _ _

theorem DagState.closeAborted_result (s : DagState) (id : Nat) :
    (s.closeAborted id).result = s.result := by
  unfold closeAborted
  split
  · rfl
  · dsimp only
    split <;> rfl

theorem resident_of_turn (order : HashOrder Nat) {turn : Turn}
    (h : Sound dag (max window 1) s) (ht : s.turn dag window order turn = some t)
    (hresult : t.result.isSome = true) : t.resident = [] := by
  obtain ⟨hn, u, hu, hc⟩ := turn_cases ht
  have hsound : Sound dag (max window 1) u := by
    rw [hu]
    exact sound_dispatchStep (sound_observeCancel h turn.cancelled)
      ((s.observeCancel_result turn.cancelled).trans hn)
  have hg : u.result = none := by
    rw [hu, dispatchStep_result, observeCancel_result, hn]
  rcases hc with ⟨_, rfl⟩ | ⟨_, aborted, hj⟩
  · unfold drained
    split <;> exact finish_resident ..
  · have hrunning : ∀ v : DagState, v.result = u.result → v.result.isSome = true →
        v.resident = [] := by
      intro v hsame hsome
      rw [hsame, hg] at hsome
      cases hsome
    rcases join_cases hj with
      ⟨id, outcome, -, hid, rfl⟩ | ⟨id, -, rfl⟩ | ⟨id, message, rfl⟩ | rfl | rfl
    · have ho : id ∉ u.terminalNotified := hsound.ledger.not_closed hid
      obtain ⟨_, _, _, _, _, hsame⟩ := settle_frame dag
        { u with
          forceAborted := aborted
          resident := u.resident.erase id
          log := u.log ++ [.joined id outcome] } ho outcome
      exact hrunning _ hsame hresult
    · exact hrunning _ (closeAborted_result ..) hresult
    · exact finish_resident ..
    · exact hrunning _ rfl hresult
    · exact finish_resident ..

theorem resident_of_result
    (h : run dag budget window order turns = some s) (hr : s.result.isSome = true) :
    s.resident = [] := by
  have hinv : Sound dag (max window 1) s ∧ (s.result.isSome = true → s.resident = []) := by
    refine Runs.run_invariant (P := fun s => Sound dag (max window 1) s ∧
      (s.result.isSome = true → s.resident = [])) ?_ h ⟨sound_start budget, ?_⟩
    · rintro s turn t ht ⟨hs, _⟩
      exact ⟨sound_turn order s turn t ht hs, resident_of_turn order hs ht⟩
    · intro _
      unfold start
      split
      · rfl
      · split <;> rfl
  exact hinv.2 hr

/-- The nodes a node depends on, directly. -/
def TransferDag.DependsOn (dag : TransferDag) (v d : Nat) : Prop := d ∈ dag.dependsOn v

theorem released_of_started (h : Sound dag window s) {v w : Nat} (hw : w ∈ s.started)
    (hp : Relation.TransGen dag.DependsOn w v) : v ∈ released s.log := by
  have hs : ∀ x ∈ s.started, ∀ d, dag.DependsOn x d → d ∈ released s.log := by
    intro x hx d hd
    exact (h.orderly.frontier.satisfied x (mem_append_right _ hx)).2 d hd
  have hc : ∀ d ∈ released s.log, d ∈ s.started := by
    intro d hd
    exact h.ledger.split.mem_iff.mpr
      (mem_append_right _ (h.ledger.joins_closed (released_subset_joins _ hd)))
  induction hp with
  | single hd => exact hs w hw _ hd
  | tail _ hd ih => exact hs _ (hc _ ih) _ hd

theorem not_released_of_failed (h : Ledger window s) {v : Nat} {error : TransferError}
    (hf : DagEvent.joined v (.failed error) ∈ s.log) : v ∉ released s.log := by
  intro hrel
  obtain ⟨outcome, hreleases, hj⟩ := mem_released.mp hrel
  have hne : DagEvent.joined v outcome ≠ .joined v (.failed error) := by
    rintro ⟨⟩
    cases hreleases
  have hp := pairwise_filterMap.mp h.joins_nodup
  have : Std.Symm fun a b : DagEvent =>
      ∀ x, a.joinId = some x → ∀ y, b.joinId = some y → x ≠ y :=
    ⟨fun a b hab x hx y hy heq => hab y hy x hx heq.symm⟩
  exact hp.forall hj hf hne v rfl v rfl rfl

end Steps

/-- **Execution is safe**, in every state of every run: whatever the outcomes, whatever
is cancelled, aborted or panics, and in whatever order tasks are joined.

A node is started at most once, only behind all it depends on and before anything that
stops the run; no descendant of a failed node is started; the window bounds what is
resident, also where a turn waits for a task; nobody but a started node is closed, and
nobody twice; and when the function has returned every started node is closed and
counted. -/
theorem executeDag_safe (dag : TransferDag) (budget : TransferBudget) (window : Nat)
    (order : HashOrder Nat) (turns : List Turn) (s : DagState)
    (h : DagState.run dag budget window order turns = some s) :
    (starts s.log).Nodup ∧
    (∀ before v kind after, s.log = before ++ .start v kind :: after →
      (∀ d ∈ dag.dependsOn v, ∃ outcome, outcome.releases = true ∧ .joined d outcome ∈ before) ∧
      ∀ e ∈ before, e.stops = false) ∧
    (∀ v error w, .joined v (.failed error) ∈ s.log → Relation.TransGen dag.DependsOn w v →
      w ∉ starts s.log) ∧
    s.resident.length ≤ max window 1 ∧
    (∀ turn t, s.turn dag window order turn = some t →
      ((s.observeCancel turn.cancelled).dispatchStep dag (max window 1)).resident.length
        ≤ max window 1) ∧
    (completes s.log).Nodup ∧ completes s.log ⊆ starts s.log ∧
    (s.result.isSome = true → (completes s.log).Perm (starts s.log) ∧
      s.summary.nodesCompleted + s.summary.nodesFailed = UInt32.ofNat (starts s.log).length) := by
  have hs := sound_run h
  have hsplit := hs.ledger.split
  rw [hs.ledger.starts_eq, hs.ledger.completes_eq]
  refine ⟨hs.ledger.nodup, ?_, ?_, hs.ledger.residency, ?_, ?_, ?_, ?_⟩
  · intro before v kind after hlog
    obtain ⟨hdeps, hstop⟩ := hs.orderly.ordered before _ after hlog v kind rfl
    exact ⟨fun d hd => mem_released.mp (hdeps d hd), hstop⟩
  · intro v error w hfailed hpath hw
    exact not_released_of_failed hs.ledger hfailed (released_of_started hs hw hpath)
  · intro turn t ht
    have hnone := (turn_cases ht).1
    exact (sound_dispatchStep (sound_observeCancel hs turn.cancelled)
      ((s.observeCancel_result turn.cancelled).trans hnone)).ledger.residency
  · exact (nodup_append.mp (hsplit.nodup_iff.mp hs.ledger.nodup)).2.1
  · intro d hd
    exact hsplit.mem_iff.mpr (mem_append_right _ hd)
  · intro hresult
    rw [resident_of_result h hresult, nil_append] at hsplit
    refine ⟨hsplit.symm, ?_⟩
    exact hs.ledger.count.trans (by rw [hsplit.length_eq])

/-- Two nodes, the second behind the first: the first is done, the second fails, and
both are closed. -/
theorem executeDag_safe_failed_part :
    let dag := (((TransferDag.empty.addNode .planTransfer [] {}).1).addNode .downloadFile
      [0, 0] {}).1
    let turns : List Turn :=
      [⟨false, false, .finished 0 .completed⟩,
       ⟨false, false, .finished 1 (.failed ⟨.network, "reset"⟩)⟩,
       ⟨false, false, .drainOver⟩]
    ∃ s, run dag ⟨4, 8, 1, 8, 4, 4, 4, 2, 0⟩ 1 ⟨id, fun _ => .refl _⟩ turns = some s ∧
      (completes s.log).Perm (starts s.log) := by
  intro dag turns
  have hrun : (run dag ⟨4, 8, 1, 8, 4, 4, 4, 2, 0⟩ 1 ⟨id, fun _ => .refl _⟩ turns).any
      (fun s => s.result.isSome) = true := by
    decide
  obtain ⟨s, hs, hresult⟩ := any_eq_true _ _ |>.mp hrun
  have hsafe := executeDag_safe dag _ 1 _ turns s hs
  exact ⟨s, hs, (hsafe.2.2.2.2.2.2.2 hresult).1⟩

end AeroFtp.Dag
