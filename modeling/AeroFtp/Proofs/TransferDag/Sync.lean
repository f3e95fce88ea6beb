/-
What a sync run settles.

In every run of the driver the outcomes applied and the jobs still outstanding come to
one balance: each job stands for the transfers that will be settled by it.  With clone
workers that is the job's own transfer alone, on the primary session it is the whole
group.  So a group of several files is settled whole exactly if it is not handed to a
worker, and whether it can be is a question of what the provider advertises.
-/
import AeroFtp.TransferDag.Sync
import AeroFtp.Proofs.TransferDag.Bulk
import Mathlib.Data.List.Perm.Basic

namespace AeroFtp.Dag

open Sync List SyncDriver

variable {run : SyncRun} {groups : BulkGroups} {d t : SyncDriver}

/-! ### A bulk reports one outcome for each of its files -/

variable {transfers : List PlannedTransfer}

theorem refusedBulkMembers_length {authorize : PlannedTransfer → Option String}
    {refused : List (Option FileOutcome)}
    (h : refusedBulkMembers authorize transfers = some refused) :
    refused.length = transfers.length := by
  unfold refusedBulkMembers at h
  split at h
  · cases h
    rw [length_map]
  · cases h

theorem settleReply_length (authorize : PlannedTransfer → Option String)
    (reply : Except ProviderError (List BulkTransferOutcome)) (transfers : List PlannedTransfer) :
    (settleReply authorize reply transfers).length = transfers.length := by
  unfold settleReply
  split
  · split
    · cases href : refusedBulkMembers authorize transfers with
      | none => simp
      | some refused => exact refusedBulkMembers_length href
    · simp
  · rw [length_zipWith]
    split
    next hlen => rw [hlen, Nat.min_self]
    next => rw [uncertainItems, length_replicate, Nat.min_self]

theorem performSyncBulk_length (session : BulkSession) (remoteRoot : Path)
    (transfers : List PlannedTransfer) :
    (performSyncBulk session remoteRoot transfers).length = transfers.length := by
  rw [performSyncBulk]
  cases href : (List.range ((bulkDirs remoteRoot transfers).length + 2)).findSome? fun n =>
      refusedBulkMembers (session.authorize n) transfers with
  | none => exact settleReply_length _ _ _
  | some refused =>
    obtain ⟨n, -, hn⟩ := exists_of_findSome?_eq_some href
    exact refusedBulkMembers_length hn

theorem members_length (group : List Nat) (h : ∀ i ∈ group, i < transfers.length) :
    (group.filterMap (transfers[·]?)).length = group.length := by
  induction group with
  | nil => rfl
  | cons i group ih =>
    obtain ⟨hi, hg⟩ := forall_mem_cons.mp h
    rw [filterMap_cons_some (List.getElem?_eq_getElem hi), length_cons, length_cons,
      ih hg]

theorem bulkOutcomes_indices (group : List Nat) (session : BulkSession)
    (single : Nat → FileOutcome) (h : ∀ i ∈ group, i < run.transfers.length) :
    (bulkOutcomes run group session single).map Prod.fst = group := by
  have hlen : group.length ≤
      (performSyncBulk session run.remoteRoot (group.filterMap (run.transfers[·]?))).length := by
    rw [performSyncBulk_length, members_length group h]
  rw [bulkOutcomes, map_map]
  exact map_fst_zip hlen

/-! ### The head of a turn -/

namespace SyncDriver

/-- The jobs in the pool and in the queue. -/
def tasks (d : SyncDriver) : List TransferJob := d.normalJobs.map (·.2) ++ d.pendingNormals

/-- The jobs that are not settled. -/
def outstanding (d : SyncDriver) : List TransferJob := d.tasks ++ d.unsent

theorem spawnPending_spec (pending : List TransferJob) (workers : List Nat)
    (jobs : List (Nat × TransferJob)) :
    let r := spawnPending pending workers jobs
    r.2.2.map (·.2) ++ r.1 = jobs.map (·.2) ++ pending ∧
      r.2.1.length + r.2.2.length = workers.length + jobs.length ∧ (r.1 ≠ [] → r.2.1 = []) := by
  induction pending generalizing workers jobs with
  | nil => simp [spawnPending]
  | cons job pending ih =>
    cases workers with
    | nil => simp [spawnPending]
    | cons worker workers =>
      obtain ⟨ht, hl, hq⟩ := ih workers (jobs ++ [(worker, job)])
      refine ⟨ht.trans (by simp), hl.trans ?_, hq⟩
      simp only [length_append, length_cons, length_nil]
      omega

@[simp] theorem fill_applied : d.fill.applied = d.applied := rfl

@[simp] theorem fill_unsent : d.fill.unsent = d.unsent := rfl

@[simp] theorem fill_channelClosed : d.fill.channelClosed = d.channelClosed := rfl

@[simp] theorem fill_tasks : d.fill.tasks = d.tasks :=
  (spawnPending_spec d.pendingNormals d.workers d.normalJobs).1

theorem fill_leases :
    d.fill.workers.length + d.fill.normalJobs.length = d.workers.length + d.normalJobs.length :=
  (spawnPending_spec d.pendingNormals d.workers d.normalJobs).2.1

theorem fill_idle : d.fill.pendingNormals ≠ [] → d.fill.workers = [] :=
  (spawnPending_spec d.pendingNormals d.workers d.normalJobs).2.2

theorem fill_pendingNormals (h : d.pendingNormals = []) : d.fill.pendingNormals = [] := by
  simp [fill, h, spawnPending]

end SyncDriver

theorem SyncDriver.receive_cases (d : SyncDriver) (job : TransferJob) (session : BulkSession)
    (single : Nat → FileOutcome) (hin : ∀ group ∈ groups, ∀ i ∈ group, i < run.transfers.length) :
    (∃ worker workers, d.workers = worker :: workers ∧ receive run groups d job session single =
        { d with workers, normalJobs := d.normalJobs ++ [(worker, job)] }) ∨
    (d.normalJobs ≠ [] ∧ receive run groups d job session single =
        { d with pendingNormals := d.pendingNormals ++ [job] }) ∨
    (∃ outcomes, receive run groups d job session single =
        { d with applied := d.applied ++ outcomes } ∧
      (job.lane = .deltaExclusive ∧ outcomes.map Prod.fst = [job.transferIndex] ∨
        job.lane ≠ .deltaExclusive ∧ d.workers = [] ∧ d.normalJobs = [] ∧
          outcomes.map Prod.fst = (bulkByFirst groups job.transferIndex).getD
            [job.transferIndex])) := by
  unfold receive
  cases hl : job.lane with
  | deltaExclusive => exact .inr (.inr ⟨_, rfl, .inl ⟨rfl, rfl⟩⟩)
  | normalPool =>
    cases hw : d.workers with
    | cons worker workers => exact .inl ⟨worker, workers, rfl, rfl⟩
    | nil =>
      by_cases hj : d.normalJobs = []
      · rw [if_pos hj]
        right
        right
        cases hb : bulkByFirst groups job.transferIndex with
        | none => exact ⟨_, rfl, .inr ⟨by simp, rfl, hj, rfl⟩⟩
        | some group =>
          have hg : group ∈ groups :=
            mem_of_mem_filter (mem_reverse.mp (mem_of_find?_eq_some hb))
          exact ⟨_, rfl, .inr ⟨by simp, rfl, hj,
            bulkOutcomes_indices group session single (hin group hg)⟩⟩
      · rw [if_neg hj]
        exact .inr (.inl ⟨hj, rfl⟩)

/-! ### The balance of a run -/

/-- The transfers a job stands for: its own where a worker or the delta lane takes it, the
whole group where the primary session does. -/
def settledBy (groups : BulkGroups) (clones : Nat) (job : TransferJob) : List Nat :=
  if 0 < clones ∨ job.lane = .deltaExclusive then [job.transferIndex]
  else (bulkByFirst groups job.transferIndex).getD [job.transferIndex]

/-- What holds of the driver in a run with so many clones and without a panic: settled and
outstanding make the same total, and no worker is lost. -/
structure Accounts (groups : BulkGroups) (clones : Nat) (total : List Nat) (d : SyncDriver) :
    Prop where
  balance : (d.applied.map Prod.fst ++ d.outstanding.flatMap (settledBy groups clones)).Perm total
  leases : d.workers.length + d.normalJobs.length = clones
  queued : d.pendingNormals ≠ [] → 0 < clones
  sent : d.channelClosed = true → d.unsent = []

/-- What each event lowers. -/
def SyncDriver.toDo (d : SyncDriver) : Nat :=
  2 * d.unsent.length + d.tasks.length + if d.channelClosed then 0 else 1

theorem SyncDriver.fill_toDo : d.fill.toDo = d.toDo := by
  rw [toDo, fill_tasks]
  rfl

namespace Accounts

variable {clones : Nat} {total : List Nat}

theorem settle (job : TransferJob) (hd : Accounts groups clones total d)
    (hout : d.outstanding.Perm (job :: t.outstanding))
    (happ : t.applied.map Prod.fst = d.applied.map Prod.fst ++ settledBy groups clones job) :
    (t.applied.map Prod.fst ++ t.outstanding.flatMap (settledBy groups clones)).Perm total := by
  have hf := hout.flatMap_right (settledBy groups clones)
  rw [happ, append_assoc]
  exact (hf.symm.append_left _).trans hd.balance

theorem move (hd : Accounts groups clones total d) (hout : t.outstanding.Perm d.outstanding)
    (happ : t.applied = d.applied) :
    (t.applied.map Prod.fst ++ t.outstanding.flatMap (settledBy groups clones)).Perm total := by
  rw [happ]
  exact ((hout.flatMap_right _).append_left _).trans hd.balance

theorem fill (hd : Accounts groups clones total d) : Accounts groups clones total d.fill where
  balance := hd.move (by simp [outstanding]) rfl
  leases := fill_leases.trans hd.leases
  queued h := hd.queued fun hnil => h (fill_pendingNormals hnil)
  sent := hd.sent

theorem receive {job : TransferJob} {rest : List TransferJob} {session : BulkSession}
    {single : Nat → FileOutcome} (hd : Accounts groups clones total d)
    (hin : ∀ group ∈ groups, ∀ i ∈ group, i < run.transfers.length)
    (hu : d.unsent.Perm (job :: rest)) (hopen : d.channelClosed = false) :
    Accounts groups clones total (receive run groups { d with unsent := rest } job session single) ∧
      (receive run groups { d with unsent := rest } job session single).toDo < d.toDo := by
  have hlen : d.unsent.length = rest.length + 1 := by simpa using hu.length_eq
  have hout : d.outstanding.Perm (job :: (d.tasks ++ rest)) :=
    (hu.append_left _).trans perm_middle
  have hc : d.channelClosed = true → rest = [] := by simp [hopen]
  obtain ⟨worker, workers, hw, ht⟩ | ⟨hj, ht⟩ | ⟨outcomes, ht, hby⟩ :=
    receive_cases { d with unsent := rest } job session single hin
  · have hleases := hd.leases
    rw [show d.workers = worker :: workers from hw] at hleases
    rw [ht]
    refine ⟨⟨hd.move (List.Perm.trans ?_ hout.symm) rfl, ?_, hd.queued, hc⟩, ?_⟩
    · simp only [outstanding, tasks, map_append,
        append_assoc]
      exact perm_middle
    · simp only [length_append, length_cons, length_nil] at hleases ⊢
      omega
    · simp only [toDo, tasks, length_append, length_map,
        length_singleton]
      omega
  · have hpos : 0 < clones := by
      rw [← hd.leases]
      exact Nat.add_pos_right _ (length_pos_iff.mpr hj)
    rw [ht]
    refine ⟨⟨hd.move (List.Perm.trans ?_ hout.symm) rfl, hd.leases, fun _ => hpos, hc⟩, ?_⟩
    · simp only [outstanding, tasks, append_assoc]
      exact (perm_middle.append_left _).trans perm_middle
    · simp only [toDo, tasks, length_append,
        length_singleton]
      omega
  · have hs : outcomes.map Prod.fst = settledBy groups clones job := by
      unfold settledBy
      obtain ⟨hlane, hidx⟩ | ⟨hlane, hw, hj, hidx⟩ := hby
      · rw [if_pos (.inr hlane), hidx]
      · have hz : clones = 0 := by
          rw [← hd.leases, show d.workers = [] from hw, show d.normalJobs = [] from hj]
          rfl
        rw [if_neg (by simp [hz, hlane]), hidx]
    rw [ht]
    refine ⟨⟨hd.settle job hout ?_, hd.leases, hd.queued, hc⟩, ?_⟩
    · simp only [map_append, hs]
    · simp only [toDo, tasks]
      omega

variable {event : SyncEvent}

theorem select (hd : Accounts groups clones total d)
    (hin : ∀ group ∈ groups, ∀ i ∈ group, i < run.transfers.length) (hc : event.Calm)
    (h : d.select run groups event = some t) :
    Accounts groups clones total t ∧ t.toDo < d.toDo := by
  cases event with
  | panicked task => exact hc.elim
  | joined task outcome =>
    obtain ⟨⟨worker, job⟩, ht, rfl⟩ := Option.map_eq_some_iff.mp h
    obtain ⟨hlt, hget⟩ := List.getElem?_eq_some_iff.mp ht
    have hjobs : ((worker, job) :: d.normalJobs.eraseIdx task).Perm d.normalJobs :=
      hget ▸ getElem_cons_eraseIdx_perm hlt
    have hlen : (d.normalJobs.eraseIdx task).length + 1 = d.normalJobs.length := hjobs.length_eq
    have hpos : 0 < clones := by
      have := hd.leases
      omega
    refine ⟨⟨hd.settle job ?_ ?_, ?_, hd.queued, hd.sent⟩, ?_⟩
    · have := (hjobs.map (·.2)).append_right (d.pendingNormals ++ d.unsent)
      simpa [outstanding, tasks] using this.symm
    · simp [settledBy, hpos]
    · have := hd.leases
      simp only [length_append, length_singleton]
      omega
    · simp only [toDo, tasks, length_append, length_map]
      omega
  | received place session single =>
    simp only [SyncDriver.select] at h
    split at h
    · cases h
    next ho =>
      obtain ⟨job, hjob, rfl⟩ := Option.map_eq_some_iff.mp h
      obtain ⟨hlt, rfl⟩ := List.getElem?_eq_some_iff.mp hjob
      exact hd.receive hin (getElem_cons_eraseIdx_perm hlt).symm (by simpa using ho)
  | closed =>
    simp only [SyncDriver.select] at h
    split at h
    · cases h
    next ho =>
      cases h
      rw [not_or, not_not] at ho
      refine ⟨⟨hd.balance, hd.leases, hd.queued, fun _ => ho.2⟩, ?_⟩
      simp only [toDo, tasks, if_neg ho.1, if_true]
      omega

theorem turn (hd : Accounts groups clones total d)
    (hin : ∀ group ∈ groups, ∀ i ∈ group, i < run.transfers.length) (hc : event.Calm)
    (h : d.turn run groups event = some t) :
    Accounts groups clones total t ∧ (t.pendingNormals ≠ [] → t.workers = []) ∧
      t.toDo < d.toDo := by
  unfold SyncDriver.turn at h
  split at h
  · cases h
  · obtain ⟨m, hm, rfl⟩ := Option.map_eq_some_iff.mp h
    obtain ⟨hbal, hlt⟩ := hd.select hin hc hm
    exact ⟨hbal.fill, fill_idle, by rwa [fill_toDo]⟩

/-- A driver that is not done can go on: a task of the pool can end, and if there is none
the queue is empty and the channel open. -/
theorem go (hd : Accounts groups clones total d)
    (hi : d.pendingNormals ≠ [] → d.workers = []) (hdone : d.done = false) :
    ∃ event t, event.Calm ∧ d.turn run groups event = some t := by
  have hturn : ∀ event : SyncEvent, event.Calm → (d.select run groups event).isSome →
      ∃ event t, event.Calm ∧ d.turn run groups event = some t := by
    intro event hc hs
    obtain ⟨m, hm⟩ := Option.isSome_iff_exists.mp hs
    refine ⟨event, m.fill, hc, ?_⟩
    rw [SyncDriver.turn, if_neg (by simp [hdone]), hm]
    rfl
  by_cases hj : d.normalJobs = []
  · have hp : d.pendingNormals = [] := by
      by_contra hne
      have hl := hd.leases
      rw [hi hne, hj] at hl
      exact absurd (hd.queued hne) (by simp [← hl])
    have ho : d.channelClosed = false := by
      simpa [done, hj, hp] using hdone
    cases hu : d.unsent with
    | nil => exact hturn .closed trivial (by simp [SyncDriver.select, ho, hu])
    | cons job rest =>
      exact hturn (.received 0 ⟨fun _ _ => none, .ok []⟩ fun _ => .deleted) trivial
        (by simp [SyncDriver.select, ho, hu])
  · obtain ⟨task, rest, htask⟩ := exists_cons_of_ne_nil hj
    exact hturn (.joined 0 .deleted) trivial (by simp [SyncDriver.select, htask])

end Accounts

/-! ### What the jobs stand for -/

theorem eq_of_mem_of_mem (hnd : groups.flatten.Nodup) {g g' : List Nat} {i : Nat}
    (hg : g ∈ groups) (hg' : g' ∈ groups) (hi : i ∈ g) (hi' : i ∈ g') : g = g' := by
  induction groups with
  | nil => simp at hg
  | cons group groups ih =>
    rw [flatten_cons, nodup_append] at hnd
    obtain ⟨-, hr, hd⟩ := hnd
    have hapart : ∀ l ∈ groups, i ∈ group → i ∉ l := fun l hl hgroup hmem =>
      hd i hgroup i (mem_flatten_of_mem hl hmem) rfl
    rcases mem_cons.mp hg with rfl | hin <;> rcases mem_cons.mp hg' with rfl | hin'
    · rfl
    · exact absurd hi' (hapart g' hin' hi)
    · exact absurd hi (hapart g hin hi')
    · exact ih hr hin hin'

variable {rest : List Nat}

theorem bulkByFirst_head (hnd : groups.flatten.Nodup) {i : Nat}
    (hg : i :: rest ∈ groups) : (bulkByFirst groups i).getD [i] = i :: rest := by
  have hu : ∀ g ∈ groups, g.head? = some i → g = i :: rest := fun g hmem hh =>
    eq_of_mem_of_mem hnd hmem hg (mem_of_head? hh) (mem_cons_self ..)
  cases hf : bulkByFirst groups i with
  | some g =>
    have hmem : g ∈ groups :=
      mem_of_mem_filter (mem_reverse.mp (mem_of_find?_eq_some hf))
    exact hu g hmem (by simpa using List.find?_some hf)
  | none =>
    rw [bulkByFirst, List.find?_eq_none] at hf
    by_contra hne
    refine hf (i :: rest) ?_ (by simp)
    rw [mem_reverse, mem_filter]
    refine ⟨hg, ?_⟩
    cases rest with
    | nil => exact absurd rfl hne
    | cons j rest => simp

theorem settledBy_primary (hnd : groups.flatten.Nodup) (hne : ∀ g ∈ groups, g ≠ [])
    (gs : BulkGroups) (hgs : ∀ g ∈ gs, g ∈ groups) :
    (groupedJobs gs .normalPool).flatMap (settledBy groups 0) = gs.flatten := by
  induction gs with
  | nil => rfl
  | cons g gs ih =>
    obtain ⟨hg, hr⟩ := forall_mem_cons.mp hgs
    obtain ⟨i, rest, rfl⟩ := exists_cons_of_ne_nil (hne g hg)
    have hj : groupedJobs ((i :: rest) :: gs) .normalPool =
        ⟨i, .normalPool⟩ :: groupedJobs gs .normalPool := rfl
    rw [hj, flatMap_cons, ih hr]
    congr 1
    simpa [settledBy] using bulkByFirst_head hnd hg

theorem settledBy_first (lane : SyncTransferLane) (clones : Nat)
    (h : 0 < clones ∨ lane = .deltaExclusive) (gs : BulkGroups) :
    (groupedJobs gs lane).flatMap (settledBy groups clones) = gs.filterMap List.head? := by
  induction gs with
  | nil => rfl
  | cons g gs ih =>
    cases g with
    | nil => exact ih
    | cons i rest =>
      have hj : groupedJobs ((i :: rest) :: gs) lane = ⟨i, lane⟩ :: groupedJobs gs lane := rfl
      rw [hj, flatMap_cons, ih, settledBy, if_pos h]
      rfl

theorem heads_eq_flatten (hne : ∀ g ∈ groups, g ≠ []) (hone : ∀ g ∈ groups, ¬ 2 ≤ g.length) :
    groups.filterMap List.head? = groups.flatten := by
  induction groups with
  | nil => rfl
  | cons g groups ih =>
    obtain ⟨hg, hgs⟩ := forall_mem_cons.mp hne
    obtain ⟨hlen, hlens⟩ := forall_mem_cons.mp hone
    match g, hg, hlen with
    | [i], _, _ => exact congrArg (i :: ·) (ih hgs hlens)
    | _ :: _ :: _, _, hlen => exact absurd (by simp) hlen

theorem second_not_head (hnd : groups.flatten.Nodup) {i j : Nat}
    (hg : i :: j :: rest ∈ groups) : j ∉ groups.filterMap List.head? := by
  intro hmem
  obtain ⟨g, hg', hh⟩ := mem_filterMap.mp hmem
  have heq : g = i :: j :: rest := eq_of_mem_of_mem hnd hg' hg (mem_of_head? hh) (by simp)
  have hnodup := (pairwise_flatten.mp hnd).1 _ hg
  simp_all

/-- How often the outcome of the `i`-th transfer has been applied. -/
def SyncDriver.calls (d : SyncDriver) (i : Nat) : Nat := (d.applied.map Prod.fst).count i

namespace SyncRun

/-! ### Every run keeps the balance and comes to its end -/

/-- What is settled by all jobs of the run. -/
def total (run : SyncRun) : List Nat :=
  (groupedJobs run.groups (transferLane run.policy)).flatMap
    (settledBy run.groups run.prepared.2.length)

theorem groups_partition (run : SyncRun) :
    run.groups.flatten.Perm (List.range run.transfers.length) ∧ ∀ g ∈ run.groups, g ≠ [] := by
  have h := planGroupsByKey_partition run.host
    (syncEntries run.localRoot run.remoteRoot run.transfers)
    (syncBulkKey run.host run.transfers run.prepared.1 run.policy run.errorCorrection)
  rwa [show (syncEntries run.localRoot run.remoteRoot run.transfers).length
    = run.transfers.length by
    simp [syncEntries]] at h

theorem groups_nodup (run : SyncRun) : run.groups.flatten.Nodup :=
  run.groups_partition.1.nodup_iff.mpr nodup_range

theorem groups_inRange (run : SyncRun) : ∀ g ∈ run.groups, ∀ i ∈ g, i < run.transfers.length := by
  intro g hg i hi
  exact mem_range.mp (run.groups_partition.1.mem_iff.mp (mem_flatten_of_mem hg hi))

/-- The state between two turns. -/
def Kept (run : SyncRun) (d : SyncDriver) : Prop :=
  Accounts run.groups run.prepared.2.length run.total d ∧ (d.pendingNormals ≠ [] → d.workers = [])

theorem start_kept (run : SyncRun) : run.Kept run.start := by
  refine ⟨Accounts.fill ⟨?_, ?_, ?_, ?_⟩, fill_idle⟩
  · simp [outstanding, tasks, total]
  · simp
  · simp
  · simp

theorem kept_turn {event : SyncEvent} (hc : event.Calm) (h : d.turn run run.groups event = some t)
    (hd : run.Kept d) : run.Kept t ∧ t.toDo < d.toDo := by
  obtain ⟨hbal, hi, hlt⟩ := hd.1.turn run.groups_inRange hc h
  exact ⟨⟨hbal, hi⟩, hlt⟩

theorem start_toDo (run : SyncRun) : run.start.toDo ≤ 2 * run.groups.length + 1 := by
  rw [start, fill_toDo]
  have : (groupedJobs run.groups (transferLane run.policy)).length ≤ run.groups.length :=
    length_filterMap_le ..
  simp [toDo, tasks]
  omega

theorem Kept.applied_of_done (hd : run.Kept d) (hdone : d.done = true) :
    (d.applied.map Prod.fst).Perm run.total := by
  have hbal := hd.1.balance
  simp only [done, Bool.and_eq_true, List.isEmpty_iff] at hdone
  obtain ⟨⟨hc, hj⟩, hp⟩ := hdone
  rw [outstanding, tasks, hj, hp, hd.1.sent hc] at hbal
  simpa using hbal

/-- In every run without a panic every outcome is applied at most once, no run goes on
forever or stops before it is done, and when it is done every transfer of the plan has
been settled, once. -/
def SettlesOnce (run : SyncRun) : Prop :=
  ∀ events d, (∀ event ∈ events, event.Calm) → run.drive events = some d →
    events.length ≤ 2 * run.groups.length + 1 ∧
    (d.done = false → ∃ event t, event.Calm ∧ d.turn run run.groups event = some t) ∧
    (∀ i, d.calls i ≤ if i < run.transfers.length then 1 else 0) ∧
    (d.done = true → ∀ i, d.calls i = if i < run.transfers.length then 1 else 0)

theorem count_range (n i : Nat) : (List.range n).count i = if i < n then 1 else 0 := by
  simp

theorem settlesOnce_iff_total (run : SyncRun) :
    run.SettlesOnce ↔ run.total.Perm (List.range run.transfers.length) := by
  constructor
  · intro hrun
    obtain ⟨events, d, hcalm, hdrive, hk, hdone⟩ := Runs.exists_run_done
      (fun d => d.done = true) (fun d e t hcalm h hd => kept_turn hcalm h hd)
      (fun d hd hnot => hd.1.go hd.2 (by simpa using hnot)) run.start_kept
    obtain ⟨-, -, -, hcalls⟩ := hrun events d hcalm hdrive
    refine (hk.applied_of_done hdone).symm.trans (perm_iff_count.mpr fun i => ?_)
    rw [count_range]
    exact hcalls hdone i
  · intro ht events d hcalm hdrive
    obtain ⟨hk, hlen⟩ := Runs.run_decreasing
      (fun d e t hcalm h hd => kept_turn hcalm h hd) hcalm hdrive run.start_kept
    have hs := run.start_toDo
    refine ⟨by omega, fun hnot => hk.1.go hk.2 hnot, fun i => ?_, fun hdone i => ?_⟩
    · rw [← count_range, ← (hk.1.balance.trans ht).count_eq, count_append]
      exact Nat.le_add_right ..
    · rw [← count_range]
      exact ((hk.applied_of_done hdone).trans ht).count_eq i

/-! ### Which runs hand a group to a worker -/

/-- The run gets clone workers. -/
def Pooled (run : SyncRun) : Prop :=
  run.policy ≠ .delta ∧ isCloneBackedExecutor run.provider.executorKind = true ∧
    2 ≤ run.provider.ceiling ∧ ∀ n < run.provider.ceiling, run.provider.cloneForTransfer n = true

/-- The provider advertises the pool it is cloned into. -/
def PoolAdvertised (run : SyncRun) : Prop :=
  run.provider.advertised.fileParallel = .supported ∧
    run.provider.advertised.sessionPool = .supported

/-- The transfers `i` and `j` would go out in one bulk if there were no session pool. -/
def WouldShareBulk (run : SyncRun) (i j : Nat) : Prop :=
  BulkPair run.host (syncEntries run.localRoot run.remoteRoot run.transfers)
    (syncBulkKey run.host run.transfers { run.provider.advertised with sessionPool := .unsupported }
      run.policy run.errorCorrection) i j

theorem prepared_of_pooled (h : run.Pooled) :
    run.prepared = (composeRuntimeTransferCapabilities run.provider.advertised
      run.provider.executorKind true, List.range run.provider.ceiling) := by
  obtain ⟨hp, hk, hceiling, hclone⟩ := h
  have hall : (List.range run.provider.ceiling).all run.provider.cloneForTransfer = true :=
    all_eq_true.mpr fun n hn => hclone n (mem_range.mp hn)
  simp [prepared, prepareNormalFileWorkers, hp, hk, hall, Nat.not_lt.mpr hceiling]

theorem workers_of_not_pooled (h : ¬ run.Pooled) : run.prepared.2 = [] := by
  unfold prepared prepareNormalFileWorkers
  split
  · rfl
  next hk =>
    split
    · rfl
    next hc =>
      split
      next hall =>
        rw [not_or, not_not] at hk
        refine absurd ⟨hk.1, hk.2, Nat.not_lt.mp hc, fun n hn => ?_⟩ h
        exact all_eq_true.mp hall n (mem_range.mpr hn)
      · rfl

theorem syncBulkKey_eq_none {caps : TransferCapabilities} {entry : TransferEntry}
    (h : run.policy = .delta ∨ caps.sessionPool.isAvailable = true) :
    syncBulkKey run.host run.transfers caps run.policy run.errorCorrection entry = none := by
  unfold syncBulkKey
  cases run.transfers[entry.id]? with
  | none => rfl
  | some transfer =>
    have hr : run.policy = .delta ∨ caps.sessionPool.isAvailable = true ∨
        run.errorCorrection = true ∨ transfer.expectedSha256Hex.isSome = true ∨
        ¬ (validateRelativePath transfer.rel).isOk = true := h.imp_right .inl
    exact if_pos hr

theorem groups_single (h : run.policy = .delta ∨ run.prepared.1.sessionPool.isAvailable = true) :
    ∀ g ∈ run.groups, ¬ 2 ≤ g.length := by
  intro g hg htwo
  obtain ⟨i, j, a, b, key, -, -, -, hkey, -⟩ :=
    (planGroupsByKey_together_iff _ _ _).mp ⟨g, hg, htwo⟩
  rw [TransferEntry.boundedKey, syncBulkKey_eq_none h] at hkey
  cases hkey

/-- With workers and a pool that is not advertised the groups are the bulks there would be
without a pool. -/
theorem together_iff (hp : run.Pooled) (hadv : ¬ run.PoolAdvertised) :
    (∃ g ∈ run.groups, 2 ≤ g.length) ↔ ∃ i j, run.WouldShareBulk i j := by
  have hc : run.prepared.1 = { run.provider.advertised with
      fileParallel := .unsupported, sessionPool := .unsupported, maxFileSlots := some 1 } := by
    rw [prepared_of_pooled hp]
    simp only [composeRuntimeTransferCapabilities]
    rw [if_pos]
    simp only [Bool.and_true, Bool.not_eq_true', Bool.and_eq_false_iff,
      decide_eq_false_iff_not]
    tauto
  rw [groups, syncBulkGroups, planGroupsByKey_together_iff, hc]
  rfl

/-- What the jobs stand for is the plan, unless a group of several files is handed to a
worker. -/
theorem total_perm_iff (run : SyncRun) : run.total.Perm (List.range run.transfers.length) ↔
      (run.Pooled → run.PoolAdvertised ∨ ∀ i j, ¬ run.WouldShareBulk i j) := by
  obtain ⟨hperm, hne⟩ := run.groups_partition
  by_cases hpool : run.Pooled
  · have hclones : 0 < run.prepared.2.length := by
      rw [prepared_of_pooled hpool, length_range]
      have := hpool.2.2.1
      omega
    rw [total, settledBy_first _ _ (.inl hclones)]
    constructor
    · intro htotal _
      by_contra hnot
      rw [not_or, not_forall] at hnot
      obtain ⟨hadv, i, hi⟩ := hnot
      rw [not_forall] at hi
      obtain ⟨j, hij⟩ := hi
      obtain ⟨g, hg, htwo⟩ := (together_iff hpool hadv).mpr ⟨i, j, not_not.mp hij⟩
      match g, hg, htwo with
      | a :: b :: rest, hg, _ =>
        have hmem : b ∈ run.groups.flatten := mem_flatten_of_mem hg (by simp)
        exact second_not_head run.groups_nodup hg
          (htotal.mem_iff.mpr (hperm.mem_iff.mp hmem))
    · intro hcond
      have hs : ∀ g ∈ run.groups, ¬ 2 ≤ g.length := by
        by_cases hadv : run.PoolAdvertised
        · refine groups_single (.inr ?_)
          rw [prepared_of_pooled hpool]
          simp [composeRuntimeTransferCapabilities, hpool.2.1, hadv.1, hadv.2,
            Capability.isAvailable]
        · intro g hg htwo
          obtain ⟨i, j, hij⟩ := (together_iff hpool hadv).mp ⟨g, hg, htwo⟩
          exact (hcond hpool).resolve_left hadv i j hij
      rw [heads_eq_flatten hne hs]
      exact hperm
  · refine iff_of_true ?_ fun h => absurd h hpool
    by_cases hpolicy : run.policy = .delta
    · have hl : transferLane run.policy = .deltaExclusive := if_pos hpolicy
      rw [total, settledBy_first _ _ (.inr hl),
        heads_eq_flatten hne (groups_single (.inl hpolicy))]
      exact hperm
    · rw [total, workers_of_not_pooled hpool, length_nil, transferLane, if_neg hpolicy,
        settledBy_primary run.groups_nodup hne run.groups fun _ hg => hg]
      exact hperm

/-- **Every planned transfer is settled exactly once** in every run, exactly if no clone
workers are allocated beside a pool that is not advertised, or no two transfers of the plan
fit into one bulk. -/
theorem settlesOnce_iff (run : SyncRun) :
    run.SettlesOnce ↔
      (run.Pooled → run.PoolAdvertised ∨ ∀ i j, ¬ run.WouldShareBulk i j) :=
  run.settlesOnce_iff_total.trans run.total_perm_iff

/-- Two uploads to one folder, over a provider that clones two sessions and has a native
bulk, and does not advertise file parallelism. -/
def unadvertisedPool : SyncRun where
  host := ⟨some, fun p => some (lastPart p), fun p => (rsplitOnce p).map (·.1), id⟩
  provider :=
    ⟨{ bulkUpload := .supported, maxFileSlots := some 2 }, .httpClonePool, 2, fun _ => true⟩
  policy := .sizeOnly
  errorCorrection := false
  localRoot := ['/', 'l']
  remoteRoot := ['/', 'r']
  transfers := [⟨['a'], .upload, 1, .sizeOnly, none⟩, ⟨['b'], .upload, 1, .sizeOnly, none⟩]

/-- The second file of its bulk is never settled: a worker takes the first one alone. -/
theorem unadvertisedPool_loses :
    (∃ d, unadvertisedPool.drive [.received 0 ⟨fun _ _ => none, .ok []⟩ fun _ => .uploaded 1,
        .joined 0 (.uploaded 1), .closed] = some d ∧
      d.done = true ∧ d.applied = [(0, .uploaded 1)]) ∧
    ¬ unadvertisedPool.SettlesOnce := by
  have hdrive : unadvertisedPool.drive [.received 0 ⟨fun _ _ => none, .ok []⟩ fun _ => .uploaded 1,
      .joined 0 (.uploaded 1), .closed] =
      some ⟨[1, 0], [], [], true, [], [(0, .uploaded 1)]⟩ := by
    rfl
  refine ⟨⟨_, hdrive, rfl, rfl⟩, fun hrun => ?_⟩
  obtain ⟨-, -, -, hcalls⟩ := hrun _ _ (by simp [SyncEvent.Calm]) hdrive
  exact absurd (hcalls rfl 1) (by decide)

end SyncRun

end AeroFtp.Dag
