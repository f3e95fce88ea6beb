/-
What a run comes to when nothing goes wrong.

Every task ends with an outcome that releases, nothing is cancelled, aborted or times
out.  Then the nodes that have ended are in an order where each comes behind all it
depends on, and when the run is over every node all of whose dependencies have ended
has ended too.  What is left is what is blocked: it leads to a cycle or to an id that is
no node.
-/
import AeroFtp.Lib.DependencyOrder
import AeroFtp.Proofs.TransferDag.Executor
import Mathlib.Data.Set.Card

namespace AeroFtp.Dag

open AssocList History DependencyOrder List DagState TransferDag

/-! ### Blocked nodes -/

/-- `v` is on, or leads to, a cycle or an id that is no node. -/
def TransferDag.BlockedNode (dag : TransferDag) (v : Nat) : Prop :=
  Blocked dag.DependsOn (· < dag.nodes.length) v

/-- No dependency cycle and no dependency out of range. -/
structure TransferDag.WellFormed (dag : TransferDag) : Prop where
  acyclic : ∀ v, ¬ Relation.TransGen dag.DependsOn v v
  inRange : ∀ v d, dag.DependsOn v d → d < dag.nodes.length

variable {dag : TransferDag}

theorem TransferDag.DependsOn.lt {v d : Nat} (h : dag.DependsOn v d) : v < dag.nodes.length := by
  unfold TransferDag.DependsOn dependsOn at h
  split at h
  next node hn => exact (dag.id_of_getElem? hn).2
  next => cases h

theorem wellFormed_iff : dag.WellFormed ↔ ∀ v < dag.nodes.length, ¬ dag.BlockedNode v := by
  constructor
  · rintro ⟨ha, hr⟩ v hv ⟨w, hp, hw⟩
    rcases hw with hw | hw
    · rcases Relation.ReflTransGen.cases_tail hp with rfl | ⟨x, _, hx⟩
      · exact hw hv
      · exact hw (hr x w hx)
    · exact ha w hw
  · intro h
    refine ⟨fun v hc => ?_, fun v d hd => ?_⟩
    · obtain ⟨d, hd, _⟩ := Relation.TransGen.head'_iff.mp hc
      exact h v hd.lt ⟨v, .refl, .inr hc⟩
    · by_contra hnot
      exact h v hd.lt ⟨d, .single hd, .inl hnot⟩

/-! ### Steady turns -/

/-- A turn in which a task ends well and nothing else happens. -/
def Turn.Steady (turn : Turn) : Prop :=
  turn.cancelled = false ∧ ∃ id outcome, turn.joined = .finished id outcome ∧
    outcome.releases = true

/-- Nothing has gone wrong so far, and everything that has ended was released. -/
structure Going (dag : TransferDag) (s : DagState) : Prop where
  failed : s.failed = none
  copyTransition : s.copyTransition = false
  terminalError : s.terminalError = none
  completed : s.completed = released s.log
  closed : s.terminalNotified = released s.log
  behind : Behind dag.DependsOn s.completed

variable {window : Nat} {s : DagState}

theorem DagState.fill_released (dag : TransferDag) (window : Nat) (ids : List Nat) (s : DagState) :
    released (fill dag window ids s).log = released s.log := by
  induction ids generalizing s with
  | nil => rfl
  | cons id rest ih =>
    rw [fill]
    split
    · split
      · exact ih s
      · rw [ih]
        unfold dispatch
        split
        · rw [released_append]
          exact append_nil _
        · rfl
    · rfl

theorem DagState.fill_full (dag : TransferDag) (window : Nat) (ids : List Nat) (s : DagState) :
    (fill dag window ids s).ready = [] ∨ window ≤ (fill dag window ids s).resident.length := by
  induction ids generalizing s with
  | nil => exact .inl rfl
  | cons id rest ih =>
    rw [fill]
    split
    · split
      · exact ih s
      · exact ih _
    next hf => exact .inr (Nat.le_of_not_lt hf)

theorem going_dispatchStep (h : Going dag s) : Going dag (s.dispatchStep dag window) := by
  unfold dispatchStep
  split
  · have hr := fill_released dag window s.ready s
    obtain ⟨ready, started, resident, log, heq⟩ := fill_frame dag window s.ready s
    rw [heq] at hr
    rw [heq]
    refine ⟨h.failed, h.copyTransition, h.terminalError, ?_, ?_, h.behind⟩
    · exact h.completed.trans hr.symm
    · exact h.closed.trans hr.symm
  · exact h

theorem ready_of_resident (h : Going dag s) (hw : 0 < window)
    (he : (s.dispatchStep dag window).resident = []) : (s.dispatchStep dag window).ready = [] := by
  unfold dispatchStep at he ⊢
  rw [if_pos ⟨by rw [h.failed]; rfl, h.copyTransition⟩] at he ⊢
  rcases fill_full dag window s.ready s with hr | hf
  · exact hr
  · rw [he, length_nil] at hf
    omega

theorem going_settle (hs : Sound dag window s) (h : Going dag s) {id : Nat}
    (hid : id ∈ s.resident) {outcome : NodeOutcome} (hrel : outcome.releases = true) :
    Going dag (settle dag
        { s with resident := s.resident.erase id, log := s.log ++ [.joined id outcome] } id
          outcome) ∧
      (settle dag
        { s with resident := s.resident.erase id, log := s.log ++ [.joined id outcome] } id
        outcome).completed = s.completed ++ [id] := by
  obtain ⟨_, hstarted, hfresh⟩ := hs.resident_open hid
  have hclosed := insertNew_of_not_mem (hs.ledger.not_closed hid)
  have hcompleted : insertNew s.completed id = s.completed ++ [id] :=
    insertNew_of_not_mem (h.completed ▸ hfresh)
  have hb : Behind dag.DependsOn (s.completed ++ [id]) := by
    refine each_snoc.mpr ⟨h.behind, fun d hd => ?_⟩
    rw [h.completed]
    exact (hs.orderly.frontier.satisfied id (mem_append_right _ hstarted)).2 d hd
  -- Whatever the outcome adds to the counters, the rest is the same.
  have hall : ∀ u : DagState, u.failed = s.failed → u.copyTransition = s.copyTransition →
      u.terminalError = s.terminalError → u.completed = insertNew s.completed id →
      u.terminalNotified = insertNew s.terminalNotified id →
      (∃ observed, u.log = s.log ++ [.joined id outcome] ++ [.complete id observed]) →
      Going dag (u.release dag id) ∧ (u.release dag id).completed = s.completed ++ [id] := by
    rintro u hf hc he hcomp hnot ⟨observed, hlog⟩
    obtain ⟨_, _, heq⟩ := release_frame dag u id
    rw [heq]
    refine ⟨⟨hf.trans h.failed, hc.trans h.copyTransition, he.trans h.terminalError, ?_, ?_, ?_⟩,
      ?_⟩
    · rw [hcomp, hcompleted, hlog, released_ended hrel, h.completed]
    · rw [hnot, hclosed, hlog, released_ended hrel, h.closed]
    · rw [hcomp, hcompleted]
      exact hb
    · rw [hcomp, hcompleted]
  cases outcome with
  | completed | fallback | fileFailedButGraphContinues => exact hall _ rfl rfl rfl rfl rfl ⟨_, rfl⟩
  | copyFallback | failed => cases hrel

/-! ### The end of a steady run -/

/-- The nodes that are blocked. -/
def TransferDag.blockedNodes (dag : TransferDag) : Set Nat :=
  {v | v < dag.nodes.length ∧ dag.BlockedNode v}

/-- What a run that went well has come to. -/
structure Finished (dag : TransferDag) (s : DagState)
    (result : Except DagExecutionError DagExecutionSummary) : Prop where
  ran : ∀ v, v ∈ s.started ↔ v < dag.nodes.length ∧ ¬ dag.BlockedNode v
  ok : dag.WellFormed → ∃ summary, result = .ok summary
  stuck : ¬ dag.WellFormed → result = .error (.stuck dag.blockedNodes.ncard)

theorem mem_completed_iff (hs : Sound dag window s) (h : Going dag s) (hready : s.ready = [])
    (hres : s.resident = []) (v : Nat) :
    v ∈ s.completed ↔ v < dag.nodes.length ∧ ¬ dag.BlockedNode v := by
  have hsplit := hs.ledger.split
  rw [hres, h.closed, ← h.completed] at hsplit
  have hn : ∀ v ∈ s.completed, v < dag.nodes.length := by
    intro v hv
    exact (hs.orderly.frontier.satisfied v (mem_append_right _ (hsplit.mem_iff.mpr hv))).1
  have hc := hs.orderly.counted h.failed
  have hgo : ∀ v, v < dag.nodes.length → (∀ d, dag.DependsOn v d → d ∈ s.completed) →
      v ∈ s.completed := by
    intro v hv hdeps
    have hz := (hc.zero_iff hv).mpr fun d hd => h.completed ▸ hdeps d hd
    have hmem := hc.all v hv hz
    rw [hready] at hmem
    exact hsplit.mem_iff.mp hmem
  constructor
  · intro hv
    exact ⟨hn v hv, not_blocked_of_mem h.behind hn hv⟩
  · rintro ⟨hv, hf⟩
    exact (mem_iff_not_blocked (Set.finite_lt_nat _) h.behind hn hgo hv).mpr hf

theorem length_completed (hn : s.completed.Nodup)
    (hmem : ∀ v, v ∈ s.completed ↔ v < dag.nodes.length ∧ ¬ dag.BlockedNode v) :
    s.completed.length + dag.blockedNodes.ncard = dag.nodes.length := by
  classical
  have hf : s.completed.toFinset = (Finset.range dag.nodes.length).filter fun v =>
      ¬ dag.BlockedNode v := by
    ext v
    simp [hmem]
  have hb : dag.blockedNodes
      = ((Finset.range dag.nodes.length).filter fun v => dag.BlockedNode v : Finset Nat) := by
    simp [blockedNodes]
  rw [← toFinset_card_of_nodup hn, hf, hb, Set.ncard_coe_finset, Nat.add_comm,
    Finset.card_filter_add_card_filter_not, Finset.card_range]

theorem DagState.finish_settled (order : HashOrder Nat) (s : DagState) (hf : s.failed = none)
    (hc : ∀ v ∈ s.started, v ∈ s.terminalNotified) :
    (s.finish order).started = s.started ∧ (s.finish order).log = s.log ∧
    ∃ summary, (s.finish order).result = some
      (match s.terminalError with | some error => .error error | none => .ok summary) := by
  have hn : ∀ (ids : List Nat) (t : DagState), (∀ v ∈ ids, v ∈ t.terminalNotified) →
      notifyOpen .cancelled ids t = t := by
    intro ids t hids
    induction ids with
    | nil => rfl
    | cons id ids ih =>
      rw [notifyOpen, if_pos (hids id (mem_cons_self ..))]
      exact ih fun v hv => hids v (mem_cons_of_mem _ hv)
  have hiter : ∀ v ∈ order.iter s.started, v ∈ s.terminalNotified :=
    fun v hv => hc v ((order.perm s.started).mem_iff.mp hv)
  have ho : (order.iter s.started).filter (fun id => id ∉ s.terminalNotified) = [] := by
    rw [filter_eq_nil_iff]
    intro v hv
    simpa using hiter v hv
  unfold finish
  rw [hn _ { s with resident := [] } hiter, ho]
  simp only [hf]
  refine ⟨trivial, trivial, s.summary, ?_⟩
  cases s.terminalError <;> rfl

theorem finished_drained (hs : Sound dag window s) (h : Going dag s) (hready : s.ready = [])
    (hres : s.resident = []) (order : HashOrder Nat) :
    ∃ result, (s.drained dag order).result = some result ∧
      Finished dag (s.drained dag order) result := by
  have hmem := mem_completed_iff hs h hready hres
  have hsplit := hs.ledger.split
  rw [hres, nil_append, h.closed, ← h.completed] at hsplit
  have hlen := length_completed (hsplit.nodup_iff.mp hs.ledger.nodup) hmem
  have hclosed : ∀ v ∈ s.started, v ∈ s.terminalNotified := by
    intro v hv
    rw [h.closed, ← h.completed]
    exact hsplit.mem_iff.mp hv
  have hran : ∀ v, v ∈ s.started ↔ v < dag.nodes.length ∧ ¬ dag.BlockedNode v :=
    fun v => hsplit.mem_iff.trans (hmem v)
  -- All have ended exactly when none is blocked.
  have hwell : dag.WellFormed ↔ s.completed.length = dag.nodes.length := by
    rw [wellFormed_iff]
    constructor
    · intro hfree
      have hempty : dag.blockedNodes = ∅ := by
        ext v
        simp only [blockedNodes, Set.mem_ofPred_eq, Set.mem_empty_iff_false, iff_false, not_and]
        exact hfree v
      rw [hempty, Set.ncard_empty] at hlen
      exact hlen
    · intro hall v hv
      have hfull : s.completed.Perm (range dag.nodes.length) := by
        refine subperm_of_subset (hsplit.nodup_iff.mp hs.ledger.nodup) ?_ |>.perm_of_length_le ?_
        · exact fun v hv => mem_range.mpr ((hmem v).mp hv).1
        · rw [length_range, hall]
      exact ((hmem v).mp (hfull.mem_iff.mpr (mem_range.mpr hv))).2
  unfold drained
  split
  next hend =>
    have hd : s.completed.length = dag.nodes.length := by
      rcases hend with hf | hd | hc
      · simp [h.failed] at hf
      · exact hd
      · simp [h.copyTransition] at hc
    obtain ⟨hstarted, _, summary, hresult⟩ := finish_settled order s h.failed hclosed
    rw [h.terminalError] at hresult
    refine ⟨_, hresult, ?_, fun _ => ⟨summary, rfl⟩, fun hnot => absurd (hwell.mpr hd) hnot⟩
    rw [hstarted]
    exact hran
  next hstuck =>
    have hnot : s.completed.length ≠ dag.nodes.length := fun hd => hstuck (.inr (.inl hd))
    obtain ⟨hstarted, _, summary, hresult⟩ := finish_settled order
      { s with terminalError := some (.stuck (dag.nodes.length - s.completed.length)) }
        h.failed hclosed
    refine ⟨_, hresult, ?_, fun hw => absurd (hwell.mp hw) hnot, fun _ => ?_⟩
    · rw [hstarted]
      exact hran
    · rw [show dag.nodes.length - s.completed.length = dag.blockedNodes.ncard by omega]

/-! ### Steady runs -/

/-- A steady run, on its way or at its end. -/
structure SteadyRun (dag : TransferDag) (window : Nat) (s : DagState) : Prop where
  sound : Sound dag (max window 1) s
  going : s.result = none → Going dag s
  finished : ∀ result, s.result = some result → Finished dag s result

/-- How far a steady run still has to go. -/
def stepsLeft (dag : TransferDag) (s : DagState) : Nat :=
  match s.result with
  | none => dag.nodes.length - s.completed.length + 1
  | some _ => 0

theorem Going.length_completed_lt (hs : Sound dag window s) (h : Going dag s) {id : Nat}
    (hid : id ∈ s.resident) : s.completed.length < dag.nodes.length := by
  have hsub : s.started.Subperm (range dag.nodes.length) := by
    refine subperm_of_subset hs.ledger.nodup fun v hv => ?_
    exact mem_range.mpr (hs.orderly.frontier.satisfied v (mem_append_right _ hv)).1
  have hlen := hs.ledger.split.length_eq
  have hle := hsub.length_le
  have hpos := length_pos_of_mem hid
  rw [length_append, h.closed, ← h.completed] at hlen
  rw [length_range] at hle
  omega

theorem steadyRun_turn {order : HashOrder Nat} {turn : Turn} {t : DagState} (hsteady : turn.Steady)
    (h : SteadyRun dag window s) (ht : s.turn dag window order turn = some t) :
    SteadyRun dag window t ∧ stepsLeft dag t < stepsLeft dag s := by
  have htsound := sound_turn order s turn t ht h.sound
  obtain ⟨hnone, u, hu, hcases⟩ := turn_cases ht
  obtain ⟨hcancel, id, outcome, hjoined, hrel⟩ := hsteady
  have hsame : s.observeCancel turn.cancelled = s := by
    rw [hcancel]
    exact if_neg (by simp)
  rw [hsame] at hu
  have husound : Sound dag (max window 1) u := hu ▸ sound_dispatchStep h.sound hnone
  have hugoing : Going dag u := hu ▸ going_dispatchStep (h.going hnone)
  have huresult : u.result = none := by rw [hu, dispatchStep_result, hnone]
  have hucompleted : u.completed = s.completed := by
    rw [hu]
    unfold dispatchStep
    split
    · obtain ⟨_, _, _, _, heq⟩ := fill_frame dag (max window 1) s.ready s
      rw [heq]
    · rfl
  have hleft : stepsLeft dag s = dag.nodes.length - s.completed.length + 1 := by
    rw [stepsLeft, hnone]
  rcases hcases with ⟨hempty, rfl⟩ | ⟨_, aborted, hjoin⟩
  · have hready : u.ready = [] := by
      rw [hu] at hempty ⊢
      exact ready_of_resident (h.going hnone) (by omega) hempty
    obtain ⟨result, hresult, hfin⟩ := finished_drained husound hugoing hready hempty order
    refine ⟨⟨htsound, fun hn => ?_, fun r hr => ?_⟩, ?_⟩
    · rw [hresult] at hn
      cases hn
    · rw [hresult] at hr
      cases hr
      exact hfin
    · rw [hleft, stepsLeft, hresult]
      exact Nat.succ_pos _
  · rw [hjoined, join] at hjoin
    split at hjoin
    next hid =>
      cases hjoin
      have hfsound := sound_forceAborted husound aborted
      have hfgoing : Going dag { u with forceAborted := aborted } := { hugoing with }
      obtain ⟨hg, hcompleted⟩ := going_settle hfsound hfgoing hid hrel
      obtain ⟨_, _, _, _, _, hresult⟩ := settle_frame dag
        { u with
          forceAborted := aborted
          resident := u.resident.erase id
          log := u.log ++ [.joined id outcome] } (hfsound.ledger.not_closed hid) outcome
      have htnone := hresult.trans huresult
      refine ⟨⟨htsound, fun _ => hg, fun r hr => ?_⟩, ?_⟩
      · rw [htnone] at hr
        cases hr
      · have hlt := hfgoing.length_completed_lt hfsound hid
        rw [stepsLeft, htnone, hcompleted, length_append, length_singleton]
        dsimp only at hlt ⊢
        rw [hucompleted] at hlt ⊢
        omega
    next => cases hjoin

theorem steadyRun_start {budget : TransferBudget}
    (hb : ∀ node ∈ dag.nodes, requestExceedsBudget node.resources budget = none) :
    SteadyRun dag window (start dag budget) ∧
      stepsLeft dag (start dag budget) ≤ dag.nodes.length + 1 := by
  have hs : Sound dag (max window 1) (.start dag budget) := sound_start budget
  have hf : (dag.nodes.findSome? fun node =>
      (requestExceedsBudget node.resources budget).map fun message => (node.id, message))
        = none := by
    rw [findSome?_eq_none_iff]
    intro node hnode
    rw [hb node hnode]
    rfl
  unfold start at hs ⊢
  rw [hf] at hs ⊢
  split at hs
  next he =>
    have hw : dag.WellFormed := by
      rw [wellFormed_iff, he]
      intro v hv
      cases hv
    rw [if_pos he]
    refine ⟨⟨hs, ?_, ?_⟩, Nat.zero_le _⟩
    · intro hn
      cases hn
    rintro result ⟨⟩
    refine ⟨fun v => ?_, fun _ => ⟨_, rfl⟩, fun hnot => absurd hw hnot⟩
    simp [he]
  next hne =>
    rw [if_neg hne]
    refine ⟨⟨hs, fun _ => ?_, fun result hr => by cases hr⟩, Nat.le_refl _⟩
    exact ⟨rfl, rfl, rfl, rfl, rfl, each_nil⟩

theorem turn_possible (order : HashOrder Nat) (hnone : s.result = none) (outcome : NodeOutcome) :
    ∃ id t, s.turn dag window order ⟨false, false, .finished id outcome⟩ = some t := by
  unfold turn
  rw [hnone]
  simp only [Option.isSome_none, Bool.false_eq_true, if_false]
  split
  · exact ⟨0, _, rfl⟩
  next hne =>
    obtain ⟨id, hid⟩ := exists_mem_of_ne_nil _ hne
    refine ⟨id, ?_⟩
    simp only [false_and, and_false, if_false]
    rw [join, if_pos hid]
    exact ⟨_, rfl⟩

/-- **Execution is complete.**  With a budget that no node exceeds, if every task ends
well and nothing else happens, then in whatever order the tasks are joined the run has
at most one turn more than there are nodes, it goes on until it returns, and it returns
`Ok` with every node run once exactly if there is no cycle and no dependency out of
range.  Otherwise it is stuck with the blocked nodes pending, and has run the others. -/
theorem executeDag_complete (dag : TransferDag) (budget : TransferBudget) (window : Nat)
    (order : HashOrder Nat) (turns : List Turn) (s : DagState)
    (hbudget : ∀ node ∈ dag.nodes, requestExceedsBudget node.resources budget = none)
    (hsteady : ∀ turn ∈ turns, turn.Steady)
    (h : DagState.run dag budget window order turns = some s) :
    turns.length ≤ dag.nodes.length + 1 ∧
    (s.result = none → ∀ outcome, outcome.releases = true →
      ∃ id t, s.turn dag window order ⟨false, false, .finished id outcome⟩ = some t) ∧
    ∀ result, s.result = some result →
      (((∃ summary, result = .ok summary) ∧ ∀ v < dag.nodes.length, (starts s.log).count v = 1)
        ↔ dag.WellFormed) ∧
      (¬ dag.WellFormed → result = .error (.stuck dag.blockedNodes.ncard)) ∧
      (∀ v < dag.nodes.length, ¬ dag.BlockedNode v → (starts s.log).count v = 1) ∧
      ∀ v, dag.BlockedNode v → v ∉ starts s.log := by
  obtain ⟨hstart, hsteps⟩ := @steadyRun_start dag window budget hbudget
  obtain ⟨hrun, hlen⟩ := Runs.run_decreasing
    (fun s turn t hturn ht hs => steadyRun_turn hturn hs ht) hsteady h hstart
  refine ⟨by omega, fun hnone outcome _ => turn_possible order hnone outcome, ?_⟩
  intro result hresult
  obtain ⟨hran, hok, hstuck⟩ := hrun.finished result hresult
  rw [hrun.sound.ledger.starts_eq]
  have honce : ∀ v < dag.nodes.length, ¬ dag.BlockedNode v → s.started.count v = 1 := by
    intro v hv hfree
    exact count_eq_one_of_mem hrun.sound.ledger.nodup ((hran v).mpr ⟨hv, hfree⟩)
  refine ⟨⟨?_, ?_⟩, hstuck, honce, fun v hb hmem => ((hran v).mp hmem).2 hb⟩
  · rintro ⟨⟨summary, rfl⟩, _⟩
    by_contra hnot
    cases hstuck hnot
  · intro hwell
    exact ⟨hok hwell, fun v hv => honce v hv (wellFormed_iff.mp hwell v hv)⟩

/-- Three nodes, the second behind the first and the third behind itself: the run is
stuck with one node pending. -/
theorem executeDag_complete_cycle :
    let dag := (((TransferDag.empty.addNode .planTransfer [] {}).1.addNode .uploadFile [0]
      {}).1.addNode .commitTemp [1, 2] {}).1
    let turns : List Turn :=
      [⟨false, false, .finished 0 .completed⟩, ⟨false, false, .finished 1 .fallback⟩,
       ⟨false, false, .finished 2 .completed⟩]
    ∃ s, run dag ⟨4, 8, 1, 8, 4, 4, 4, 2, 0⟩ 2 ⟨id, fun _ => .refl _⟩ turns = some s ∧
      s.result = some (.error (.stuck 1)) ∧ dag.blockedNodes.ncard = 1 := by
  intro dag turns
  have hrun : (run dag ⟨4, 8, 1, 8, 4, 4, 4, 2, 0⟩ 2 ⟨id, fun _ => .refl _⟩ turns).map
      (fun s => s.result) = some (some (.error (.stuck 1))) := by
    decide
  obtain ⟨s, hs, hresult⟩ := Option.map_eq_some_iff.mp hrun
  have hcomplete := executeDag_complete dag _ 2 _ turns s (by decide) (by
    intro turn hturn
    simp only [turns, mem_cons, not_mem_nil, or_false] at hturn
    rcases hturn with rfl | rfl | rfl
    · exact ⟨rfl, _, _, rfl, rfl⟩
    · exact ⟨rfl, _, _, rfl, rfl⟩
    · exact ⟨rfl, _, _, rfl, rfl⟩) hs
  have hcycle : ¬ dag.WellFormed := by
    intro hwell
    exact hwell.acyclic 2 (.single (show 2 ∈ dag.dependsOn 2 by decide))
  refine ⟨s, hs, hresult, ?_⟩
  have hstuck := (hcomplete.2.2 _ hresult).2.1 hcycle
  simpa using hstuck.symm

/-- A node that asks for more than the manager owns: the graph has no cycle and no
dependency out of range, and the run returns before it has started anything. -/
theorem executeDag_unschedulable :
    let dag := (TransferDag.empty.addNode .downloadFile [] { fileSlots := 5 }).1
    dag.WellFormed ∧ ∃ s message,
      run dag ⟨4, 8, 1, 8, 4, 4, 4, 2, 0⟩ 1 ⟨id, fun _ => .refl _⟩ [] = some s ∧
      s.started = [] ∧ s.result = some (.error (.unschedulable 0 message)) := by
  intro dag
  have hnone : ∀ v d, ¬ dag.DependsOn v d := by
    intro v d hd
    have hv : v < 1 := hd.lt
    obtain rfl : v = 0 := by omega
    cases hd
  refine ⟨⟨?_, fun v d hd => absurd hd (hnone v d)⟩, _, _, rfl, rfl, rfl⟩
  intro v hcycle
  obtain ⟨d, hd, _⟩ := Relation.TransGen.head'_iff.mp hcycle
  exact hnone v d hd

end AeroFtp.Dag
