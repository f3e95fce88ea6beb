/-
The dry run shows what the run would do.

The two planners are run side by side.  After every entry they have seen the same paths,
resolved the same ones, and the rows of the report read as the transfers and the skips of
the plan; so the reports of whole runs do.  A plan transfers only paths it was given, in
one direction, and deletes only what the other side does not hold.
-/
import AeroFtp.TransferDag.SyncPlan

namespace AeroFtp.Dag

open Sync SyncCore List DryRun

variable {parse : String → Option Int} {authorize : Path → Except String Unit}
variable {opts : SyncOptions} {window : ModifyWindow} {verdict : Except String Unit}
variable {locals : List LocalEntry} {remotes : List RemoteEntry}

/-! ### The maps by path -/

theorem localByPath_isSome {path : Path} :
    (localByPath locals path).isSome = true ↔ path ∈ locals.map (·.relPath) := by
  rw [localByPath, List.find?_isSome, mem_map]
  simp only [mem_reverse, decide_eq_true_eq]

theorem remoteByPath_isSome {path : Path} :
    (remoteByPath remotes path).isSome = true ↔ path ∈ remotes.map (·.relPath) := by
  rw [remoteByPath, List.find?_isSome, mem_map]
  simp only [mem_reverse, decide_eq_true_eq]

/-! ### What a plan names -/

/-- A transfer of the plan, as its report names it. -/
def PlannedTransfer.row (t : PlannedTransfer) : Path × SyncOp × DeltaPolicy :=
  (t.rel, t.op, t.decisionPolicy)

/-- Uploads are of listed local paths, and the run to both sides notes each. -/
def UploadsListed (opts : SyncOptions) (locals : List LocalEntry) (pass : PlanPass) : Prop :=
  ∀ t ∈ pass.transfers, t.op = .upload →
    t.rel ∈ locals.map (·.relPath) ∧ opts.direction ≠ .download ∧
      (opts.direction = .both → t.rel ∈ pass.uploadResolvedForBoth)

/-- Downloads are of listed remote paths that no upload has resolved. -/
def DownloadsListed (opts : SyncOptions) (remotes : List RemoteEntry) (pass : PlanPass) : Prop :=
  ∀ t ∈ pass.transfers, t.op = .download →
    t.rel ∈ remotes.map (·.relPath) ∧ opts.direction ≠ .upload ∧
      (opts.direction = .both → t.rel ∉ pass.uploadResolvedForBoth)

theorem mem_snoc {t u : PlannedTransfer} {ts : List PlannedTransfer} (h : t ∈ ts ++ [u]) :
    t ∈ ts ∨ t = u := by
  rw [mem_append, mem_singleton] at h
  exact h

theorem planUpload_listed {entry : LocalEntry} (he : entry ∈ locals)
    (hdirection : opts.direction ≠ .download) {pass : PlanPass}
    (h : UploadsListed opts locals pass ∧ ∀ t ∈ pass.transfers, t.op = .upload) :
    UploadsListed opts locals (planUpload parse opts window remotes pass entry) ∧
      ∀ t ∈ (planUpload parse opts window remotes pass entry).transfers, t.op = .upload := by
  obtain ⟨hl, honly⟩ := h
  unfold planUpload
  by_cases hs : pass.seenLocal.contains entry.relPath = true
  · rw [if_pos hs]
    exact ⟨hl, honly⟩
  rw [if_neg hs]
  dsimp only
  split
  · refine ⟨?_, ?_⟩
    · intro t ht hop
      rcases mem_snoc ht with ht | rfl
      · obtain ⟨hmem, hdir, hr⟩ := hl t ht hop
        refine ⟨hmem, hdir, ?_⟩
        intro hb
        simp only [hb]
        exact mem_cons_of_mem _ (hr hb)
      · refine ⟨mem_map_of_mem he, hdirection, ?_⟩
        intro hb
        simp [hb]
    · intro t ht
      rcases mem_snoc ht with ht | rfl
      · exact honly t ht
      · rfl
  · exact ⟨hl, honly⟩

theorem planDownload_listed {entry : RemoteEntry} (he : entry ∈ remotes)
    (hdirection : opts.direction ≠ .upload) {pass : PlanPass}
    (h : UploadsListed opts locals pass ∧ DownloadsListed opts remotes pass) :
    UploadsListed opts locals (planDownload parse opts window locals pass entry) ∧
      DownloadsListed opts remotes (planDownload parse opts window locals pass entry) := by
  obtain ⟨hup, hdown⟩ := h
  unfold planDownload
  by_cases hs : pass.seenRemote.contains entry.relPath = true
  · rw [if_pos hs]
    exact ⟨hup, hdown⟩
  rw [if_neg hs]
  dsimp only
  split
  · rename_i hc
    refine ⟨?_, ?_⟩
    · intro t ht hop
      rcases mem_snoc ht with ht | rfl
      · exact hup t ht hop
      · cases hop
    · intro t ht hop
      rcases mem_snoc ht with ht | rfl
      · exact hdown t ht hop
      · refine ⟨mem_map_of_mem he, hdirection, ?_⟩
        -- A path the upload pass has resolved is not copied.
        intro hb hr
        have hh : (decide (opts.direction = .both) &&
            pass.uploadResolvedForBoth.contains entry.relPath) = true := by
          rw [Bool.and_eq_true, decide_eq_true_iff, contains_iff_mem]
          exact ⟨hb, hr⟩
        rw [hh] at hc
        cases hc
  · exact ⟨hup, hdown⟩

/-- The plan is read off two passes: uploads of local paths, then downloads of remote ones. -/
theorem planSyncDag_listed (parse : String → Option Int) (opts : SyncOptions)
    (window : ModifyWindow) (locals : List LocalEntry) (remotes : List RemoteEntry) :
    ∃ pass : PlanPass, (planSyncDag parse opts window locals remotes).transfers = pass.transfers ∧
      UploadsListed opts locals pass ∧ DownloadsListed opts remotes pass := by
  have hup : ∃ pass : PlanPass, pass = (if opts.direction = .upload ∨ opts.direction = .both then
        locals.foldl (planUpload parse opts window remotes) ⟨[], [], [], [], []⟩
      else ⟨[], [], [], [], []⟩) ∧
      UploadsListed opts locals pass ∧ ∀ t ∈ pass.transfers, t.op = .upload := by
    refine ⟨_, rfl, ?_⟩
    split
    · rename_i hdirection
      refine List.foldlRecOn (motive := fun pass => UploadsListed opts locals pass ∧
        ∀ t ∈ pass.transfers, t.op = .upload) locals _ ⟨by simp [UploadsListed], by simp⟩ ?_
      intro pass h entry he
      refine planUpload_listed he ?_ h
      intro hdown
      simp [hdown] at hdirection
    · exact ⟨by simp [UploadsListed], by simp⟩
  obtain ⟨pass, hp, hl, honly⟩ := hup
  have hdown : DownloadsListed opts remotes pass := by
    intro t ht hop
    rw [honly t ht] at hop
    cases hop
  unfold planSyncDag
  dsimp only
  rw [← hp]
  split
  · rename_i hdirection
    refine ⟨_, rfl, ?_⟩
    refine List.foldlRecOn (motive := fun pass => UploadsListed opts locals pass ∧
      DownloadsListed opts remotes pass) remotes _ ⟨hl, hdown⟩ ?_
    intro pass h entry he
    refine planDownload_listed he ?_ h
    intro hup
    simp [hup] at hdirection
  · exact ⟨pass, rfl, hl, hdown⟩

theorem transfer_listed {t : PlannedTransfer}
    (ht : t ∈ (planSyncDag parse opts window locals remotes).transfers) :
    t.rel ∈ locals.map (·.relPath) ∨ t.rel ∈ remotes.map (·.relPath) := by
  obtain ⟨pass, hp, hup, hd⟩ := planSyncDag_listed parse opts window locals remotes
  rw [hp] at ht
  cases hop : t.op with
  | upload => exact .inl (hup t ht hop).1
  | download => exact .inr (hd t ht hop).1

theorem mem_planDeletes {d : PlannedDelete} (hd : d ∈ planDeletes opts locals remotes) :
    (opts.direction = .upload ∧ d.rel ∈ remotes.map (·.relPath) ∧ d.rel ∉ locals.map (·.relPath)) ∨
    (opts.direction = .download ∧ d.rel ∈ locals.map (·.relPath) ∧
      d.rel ∉ remotes.map (·.relPath)) := by
  unfold planDeletes at hd
  split at hd
  · split at hd
    · rename_i hdirection
      obtain ⟨entry, he, rfl⟩ := mem_map.mp hd
      obtain ⟨hmem, ho⟩ := mem_filter.mp he
      refine .inl ⟨hdirection, mem_map_of_mem hmem, ?_⟩
      rw [← localByPath_isSome]
      simpa using ho
    · rename_i hdirection
      obtain ⟨entry, he, rfl⟩ := mem_map.mp hd
      obtain ⟨hmem, ho⟩ := mem_filter.mp he
      refine .inr ⟨hdirection, mem_map_of_mem hmem, ?_⟩
      rw [← remoteByPath_isSome]
      simpa using ho
    · cases hd
  · cases hd

/-- No path is transferred both ways, and none that is transferred is deleted. -/
def OneWay (transfers : List (Path × SyncOp × DeltaPolicy)) (deletes : List PlannedDelete) : Prop :=
  (∀ rel p q, (rel, .upload, p) ∈ transfers → (rel, .download, q) ∉ transfers) ∧
    ∀ rel op p, (rel, op, p) ∈ transfers → ∀ d ∈ deletes, d.rel ≠ rel

theorem planSyncDag_oneWay :
    OneWay ((planSyncDag parse opts window locals remotes).transfers.map (·.row))
      (planSyncDag parse opts window locals remotes).deletes := by
  obtain ⟨pass, hp, hup, hdown⟩ := planSyncDag_listed parse opts window locals remotes
  rw [hp]
  refine ⟨?_, ?_⟩
  · intro rel p q hupload hdownload
    obtain ⟨t, ht, hrow⟩ := mem_map.mp hupload
    obtain ⟨u, hu, hrow'⟩ := mem_map.mp hdownload
    simp only [PlannedTransfer.row, Prod.mk.injEq] at hrow hrow'
    obtain ⟨rfl, hop, -⟩ := hrow
    obtain ⟨hrel, hop', -⟩ := hrow'
    obtain ⟨-, hdir, hres⟩ := hup t ht hop
    obtain ⟨-, hdir', hunresolved⟩ := hdown u hu hop'
    cases hdirection : opts.direction with
    | upload => exact hdir' hdirection
    | download => exact hdir hdirection
    | both => exact hunresolved hdirection (hrel ▸ hres hdirection)
  · intro rel op p htransfer d hd hrel
    obtain ⟨t, ht, hrow⟩ := mem_map.mp htransfer
    simp only [PlannedTransfer.row, Prod.mk.injEq] at hrow
    obtain ⟨hrel', -, -⟩ := hrow
    rcases mem_planDeletes hd with ⟨hdirection, -, hnot⟩ | ⟨hdirection, -, hnot⟩
    · cases hop : t.op with
      | upload => exact hnot (hrel.trans hrel'.symm ▸ (hup t ht hop).1)
      | download => exact (hdown t ht hop).2.1 hdirection
    · cases hop : t.op with
      | upload => exact (hup t ht hop).2.1 hdirection
      | download => exact hnot (hrel.trans hrel'.symm ▸ (hdown t ht hop).1)

/-! ### The rows of a dry run -/

/-- The transfer a row stands for: it was not started as a skip. -/
def transferOf (row : SyncRow) : Option (Path × SyncOp × DeltaPolicy) :=
  if row.start.any (·.op = .skip) then none
  else
    match row.operation with
    | .upload => some (row.rel, .upload, row.decisionPolicy)
    | .download => some (row.rel, .download, row.decisionPolicy)
    | _ => none

/-- The skip a row stands for. -/
def skipOf (row : SyncRow) : Option PlannedSkip :=
  if row.start.any (·.op = .skip) then
    match row.operation, row.outcome with
    | .upload, .skipped reason => some ⟨row.rel, .upload, reason, row.decisionPolicy⟩
    | .download, .skipped reason => some ⟨row.rel, .download, reason, row.decisionPolicy⟩
    | _, _ => none
  else none

def deleteOf (row : SyncRow) : Option PlannedDelete :=
  match row.operation with
  | .deleteRemote => some ⟨row.rel, .deleteRemote⟩
  | .deleteLocal => some ⟨row.rel, .deleteLocal⟩
  | _ => none

/-- The dry run has come as far as the plan, and its rows read as the plan. -/
structure Shows (run : DryRun) (pass : PlanPass) (deletes : List PlannedDelete) : Prop where
  seenLocal : run.seenLocal = pass.seenLocal
  seenRemote : run.seenRemote = pass.seenRemote
  resolved : run.uploadResolvedForBoth = pass.uploadResolvedForBoth
  transfers : run.rows.filterMap transferOf = pass.transfers.map (·.row)
  skips : run.rows.filterMap skipOf = pass.skips
  deletes : run.rows.filterMap deleteOf = deletes

variable {run : DryRun} {pass : PlanPass} {deletes : List PlannedDelete}

theorem applySyncTreeOutcome_eq (run : DryRun) (rel : Path) (operation : SyncOperation)
    (performed : Option FileStart × Sync.FileOutcome) (policy : DeltaPolicy) :
    ∃ skipped errors, run.applySyncTreeOutcome rel operation performed policy =
      { run with
        rows := run.rows ++ [⟨performed.1, rel, operation, performed.2, policy⟩], skipped,
        errors } := by
  unfold applySyncTreeOutcome
  split
  · exact ⟨_, _, rfl⟩
  · exact ⟨_, _, rfl⟩

theorem performDry_start (authorize : Path → Except String Unit) {op : SyncOperation}
    (hop : op ≠ .skip) (rel : Path) (total : Nat) (policy : DeltaPolicy) :
    (performDry authorize op rel total policy).1.any (·.op = .skip) = false := by
  unfold performDry
  split
  · rfl
  · simpa using hop

theorem filterMap_singleton {α β : Type} (f : α → Option β) (a : α) :
    [a].filterMap f = (f a).toList := by
  cases h : f a <;> simp [h]

theorem Shows.row (h : Shows run pass deletes) {rel : Path} {operation : SyncOperation}
    {performed : Option FileStart × Sync.FileOutcome} {policy : DeltaPolicy} {pass' : PlanPass}
    {deletes' : List PlannedDelete}
    (hsets : pass'.seenLocal = pass.seenLocal ∧ pass'.seenRemote = pass.seenRemote ∧
      pass'.uploadResolvedForBoth = pass.uploadResolvedForBoth)
    (ht : pass'.transfers.map (·.row) = pass.transfers.map
      (·.row) ++ (transferOf ⟨performed.1, rel, operation, performed.2, policy⟩).toList)
    (hskips : pass'.skips = pass.skips
      ++ (skipOf ⟨performed.1, rel, operation, performed.2, policy⟩).toList)
    (hd : deletes' = deletes ++ (deleteOf ⟨performed.1, rel, operation, performed.2,
      policy⟩).toList) :
    Shows (run.applySyncTreeOutcome rel operation performed policy) pass' deletes' := by
  obtain ⟨skipped, errors, heq⟩ := applySyncTreeOutcome_eq run rel operation performed policy
  rw [heq]
  obtain ⟨hl, hremote, hres⟩ := hsets
  refine ⟨h.seenLocal.trans hl.symm, h.seenRemote.trans hremote.symm,
    h.resolved.trans hres.symm, ?_, ?_, ?_⟩
  · rw [filterMap_append, h.transfers, ht, filterMap_singleton]
  · rw [filterMap_append, h.skips, hskips, filterMap_singleton]
  · rw [filterMap_append, h.deletes, hd, filterMap_singleton]

/-- The report's name of a transfer's operation. -/
def SyncOp.operation : SyncOp → SyncOperation
  | .upload => .upload
  | .download => .download

section

variable (h : Shows run pass deletes)
include h

theorem Shows.copy (t : PlannedTransfer) (total : Nat) :
    Shows (run.applySyncTreeOutcome t.rel t.op.operation
        (performDry authorize t.op.operation t.rel total t.decisionPolicy) t.decisionPolicy)
      { pass with transfers := pass.transfers ++ [t] } deletes := by
  have hop : t.op.operation ≠ .skip := by cases t.op <;> decide
  have hs := performDry_start authorize hop t.rel total t.decisionPolicy
  refine h.row ⟨rfl, rfl, rfl⟩ ?_ ?_ ?_
  · rw [transferOf, hs]
    cases hop : t.op <;> simp [PlannedTransfer.row, SyncOp.operation, hop]
  · simp [skipOf, hs]
  · cases t.op <;> simp [deleteOf, SyncOp.operation]

theorem Shows.skip (skip : PlannedSkip) :
    Shows (run.skipFile skip.rel skip.applyOp.operation skip.reason skip.decisionPolicy)
      { pass with skips := pass.skips ++ [skip] } deletes := by
  refine h.row ⟨rfl, rfl, rfl⟩ ?_ ?_ ?_
  · simp [transferOf]
  · cases hop : skip.applyOp <;> simp [skipOf, SyncOp.operation, ← hop]
  · cases skip.applyOp <;> simp [deleteOf, SyncOp.operation]

/-! ### Side by side -/

theorem shows_upload (entry : LocalEntry) :
    Shows (uploadOne parse authorize opts window remotes run entry)
      (planUpload parse opts window remotes pass entry) deletes := by
  unfold uploadOne planUpload
  dsimp only
  rw [h.seenLocal]
  by_cases hs : pass.seenLocal.contains entry.relPath = true
  · rw [if_pos hs, if_pos hs]
    exact h
  rw [if_neg hs, if_neg hs]
  -- Both decide on the same entries.
  generalize decideUpload parse entry (remoteByPath remotes entry.relPath) opts.deltaPolicy
    opts.conflictMode window = decision
  obtain ⟨action, policy⟩ := decision
  cases action with
  | copy =>
    have hs : Shows (if opts.direction = .both then
          { run with
            seenLocal := entry.relPath :: pass.seenLocal
            uploadResolvedForBoth := entry.relPath :: run.uploadResolvedForBoth }
        else { run with seenLocal := entry.relPath :: pass.seenLocal })
        { pass with
          seenLocal := entry.relPath :: pass.seenLocal
          uploadResolvedForBoth :=
            if opts.direction = .both then entry.relPath :: pass.uploadResolvedForBoth
            else pass.uploadResolvedForBoth } deletes := by
      split
      · exact ⟨rfl, h.seenRemote, congrArg _ h.resolved, h.transfers, h.skips, h.deletes⟩
      · exact ⟨rfl, h.seenRemote, h.resolved, h.transfers, h.skips, h.deletes⟩
    exact hs.copy ⟨entry.relPath, .upload, entry.size, policy, none⟩ entry.size
  | skip reason =>
    have hs : Shows { run with seenLocal := entry.relPath :: pass.seenLocal }
        { pass with seenLocal := entry.relPath :: pass.seenLocal } deletes :=
      ⟨rfl, h.seenRemote, h.resolved, h.transfers, h.skips, h.deletes⟩
    exact hs.skip ⟨entry.relPath, .upload, reason, policy⟩

theorem shows_download (entry : RemoteEntry) :
    Shows (downloadOne parse authorize opts window locals run entry)
      (planDownload parse opts window locals pass entry) deletes := by
  unfold downloadOne planDownload
  dsimp only
  rw [h.seenRemote, h.resolved]
  by_cases hs : pass.seenRemote.contains entry.relPath = true
  · rw [if_pos hs, if_pos hs]
    exact h
  rw [if_neg hs, if_neg hs]
  generalize decideDownload parse entry (localByPath locals entry.relPath) opts.deltaPolicy
    opts.conflictMode window
    (decide (opts.direction = .both) && pass.uploadResolvedForBoth.contains entry.relPath)
      = decision
  obtain ⟨action, policy⟩ := decision
  have hs : Shows
      { run with
        seenRemote := entry.relPath :: pass.seenRemote
        uploadResolvedForBoth := pass.uploadResolvedForBoth }
      { pass with seenRemote := entry.relPath :: pass.seenRemote } deletes :=
    ⟨h.seenLocal, rfl, rfl, h.transfers, h.skips, h.deletes⟩
  cases action with
  | copy =>
    exact hs.copy ⟨entry.relPath, .download, entry.size, policy, remoteSha256Hex entry⟩ entry.size
  | skip reason => exact hs.skip ⟨entry.relPath, .download, reason, policy⟩

end

def DeleteOp.operation : DeleteOp → SyncOperation
  | .deleteRemote => .deleteRemote
  | .deleteLocal => .deleteLocal

theorem Shows.orphan (h : Shows run pass deletes) (d : PlannedDelete) (policy : DeltaPolicy) :
    Shows (run.applySyncTreeOutcome d.rel d.op.operation
        (performDry authorize d.op.operation d.rel 0 policy) policy) pass (deletes ++ [d]) := by
  have hop : d.op.operation ≠ .skip := by cases d.op <;> decide
  have hs := performDry_start authorize hop d.rel 0 policy
  refine h.row ⟨rfl, rfl, rfl⟩ ?_ ?_ ?_
  · rw [transferOf, hs]
    cases d.op <;> simp [DeleteOp.operation]
  · simp [skipOf, hs]
  · cases hop : d.op <;> simp [deleteOf, DeleteOp.operation, ← hop]

theorem shows_orphans {α : Type} {rel : α → Path} {held : α → Bool} (one : DryRun → α → DryRun)
    (op : DeleteOp) (policy : DeltaPolicy)
    (hone : ∀ run entry, one run entry = if held entry then run
      else run.applySyncTreeOutcome (rel entry) op.operation
        (performDry authorize op.operation (rel entry) 0 policy) policy)
    (h : Shows run pass deletes) (entries : List α) :
    Shows (entries.foldl one run) pass
      (deletes ++ (entries.filter (!held ·)).map fun entry => ⟨rel entry, op⟩) := by
  induction entries generalizing run deletes with
  | nil => simpa using h
  | cons entry rest ih =>
    rw [foldl_cons, hone]
    by_cases hh : held entry = true
    · simp only [hh, filter_cons]
      exact ih h
    · simpa [hh] using ih (h.orphan ⟨rel entry, op⟩ policy)

theorem shows_deletePass (h : Shows run pass []) :
    Shows (deletePass authorize opts verdict locals remotes run) pass
      (planDeletes (planOpts opts verdict) locals remotes) := by
  unfold deletePass planDeletes planOpts
  by_cases hd : opts.deleteOrphans = true
  · rw [if_pos hd, if_pos hd]
    cases verdict with
    | error reason => exact ⟨h.seenLocal, h.seenRemote, h.resolved, h.transfers, h.skips, h.deletes⟩
    | ok u =>
      simp only [hd]
      cases opts.direction with
      | upload =>
        have := shows_orphans (.deleteRemoteOne authorize opts locals) .deleteRemote
          opts.deltaPolicy (fun _ _ => rfl) h remotes
        simpa using this
      | download =>
        have := shows_orphans (.deleteLocalOne authorize opts remotes) .deleteLocal
          opts.deltaPolicy (fun _ _ => rfl) h locals
        simpa using this
      | both => exact h
  · rw [if_neg hd, if_neg hd, if_neg hd]
    exact h

theorem planUnderGuard_eq : planUnderGuard parse opts window verdict locals remotes =
    { planSyncDag parse opts window locals remotes with
      deletes := planDeletes (planOpts opts verdict) locals remotes } := by
  have ho : ∃ deleteOrphans, planOpts opts verdict = { opts with deleteOrphans } := by
    unfold planOpts
    split
    · cases verdict with
      | ok u => exact ⟨_, rfl⟩
      | error reason => exact ⟨_, rfl⟩
    · exact ⟨_, rfl⟩
  obtain ⟨deleteOrphans, ho⟩ := ho
  rw [planUnderGuard, ho]
  rfl

/-- The report of a whole dry run reads as the plan. -/
theorem syncTreeDryRun_shows (parse : String → Option Int) (authorize : Path → Except String Unit)
    (opts : SyncOptions) (window : ModifyWindow) (verdict : Except String Unit)
    (locals : List LocalEntry) (remotes : List RemoteEntry) : ∃ pass : PlanPass,
    (planUnderGuard parse opts window verdict locals remotes).transfers = pass.transfers ∧
      (planUnderGuard parse opts window verdict locals remotes).skips = pass.skips ∧
      Shows (syncTreeDryRun parse authorize opts window verdict locals remotes) pass
        (planUnderGuard parse opts window verdict locals remotes).deletes := by
  rw [planUnderGuard_eq]
  refine ⟨_, rfl, rfl, shows_deletePass ?_⟩
  have hup : Shows (.uploadPass parse authorize opts window locals remotes ⟨[], [], [], [], 0, []⟩)
      (if opts.direction = .upload ∨ opts.direction = .both then
        locals.foldl (planUpload parse opts window remotes) ⟨[], [], [], [], []⟩
      else ⟨[], [], [], [], []⟩) [] := by
    have hs : Shows ⟨[], [], [], [], 0, []⟩ ⟨[], [], [], [], []⟩ [] :=
      ⟨rfl, rfl, rfl, rfl, rfl, rfl⟩
    unfold uploadPass
    split
    · exact foldl_rel (r := fun run pass => Shows run pass []) hs
        fun entry _ run pass h => shows_upload h entry
    · exact hs
  unfold downloadPass
  split
  · exact foldl_rel (r := fun run pass => Shows run pass []) hup
      fun entry _ run pass h => shows_download h entry
  · exact hup

/-- **The dry run shows what the run would do.**  For all entries, options and verdicts of
the delete guard, the rows of the dry run read, in order, as the transfers, the skips and
the deletions of the plan; and in both no path goes both ways or is transferred and deleted. -/
theorem dryRun_shows_plan (parse : String → Option Int) (authorize : Path → Except String Unit)
    (opts : SyncOptions) (window : ModifyWindow) (verdict : Except String Unit)
    (locals : List LocalEntry) (remotes : List RemoteEntry) :
    let rows := (syncTreeDryRun parse authorize opts window verdict locals remotes).rows
    let plan := planUnderGuard parse opts window verdict locals remotes
    rows.filterMap transferOf = plan.transfers.map (·.row) ∧
      rows.filterMap skipOf = plan.skips ∧
      rows.filterMap deleteOf = plan.deletes ∧
      OneWay (rows.filterMap transferOf) (rows.filterMap deleteOf) ∧
      OneWay (plan.transfers.map (·.row)) plan.deletes := by
  intro rows plan
  obtain ⟨pass, htransfers, hskips, hshows⟩ :=
    syncTreeDryRun_shows parse authorize opts window verdict locals remotes
  have hrows : rows.filterMap transferOf = plan.transfers.map (·.row) := by
    rw [htransfers]
    exact hshows.transfers
  have hdeletes : rows.filterMap deleteOf = plan.deletes := hshows.deletes
  have honeWay : OneWay (plan.transfers.map (·.row)) plan.deletes := planSyncDag_oneWay
  refine ⟨hrows, hshows.skips.trans hskips.symm, hdeletes, ?_, honeWay⟩
  rw [hrows, hdeletes]
  exact honeWay

end AeroFtp.Dag
