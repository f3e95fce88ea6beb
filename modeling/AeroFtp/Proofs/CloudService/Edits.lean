/-
Whether a propagated delete can destroy an edit.

One-way Update deletes a file only as its last transfer left it.  The other modes decide by
the table, which sees that a row was synced before and not what has become of the copy that
is left: where that copy was edited since, the edit goes with it.  So in a two-way folder no
edit is lost exactly when no copy that is left alone has been edited.
-/
import AeroFtp.CloudService.Action
import AeroFtp.Proofs.Sync.Deletions

namespace AeroFtp.Cloud

open Sync

variable {nfc : Nfc} {now : DateTime} {locals remotes : Inventory} {options : CompareOptions}
  {idx : SyncIndex}
  {svc : CloudService} {config : CloudConfig} {policy : UpdatePolicy} {row : FileComparison}
    {pair : Pair}

variable (row) in
theorem resolveAction_of_blocked (h : row.nameMatchBlocked = true) :
    svc.resolveAction config row policy = .skip :=
  if_pos h

/-! ### Two-way folders -/

/-- One side has a file left that is not the one of the baseline, and `delete` would destroy
it. -/
inductive Edited (options : CompareOptions) (entry : SyncIndexEntry) :
    Option FileInfo → Option FileInfo → SyncAction → Prop
  | onLocal {l : FileInfo} (hfile : l.isDir = false)
      (h : localChangedSince l entry options.compareSize = true) :
      Edited options entry (some l) none .deleteLocal
  | onRemote {r : FileInfo} (hfile : r.isDir = false)
      (h : remoteChangedSince options r entry = true) :
      Edited options entry none (some r) .deleteRemote

/-- No row of the comparison is resolved to the delete of an edit. -/
def EditsKept (nfc : Nfc) (now : DateTime) (locals remotes : Inventory) (options : CompareOptions)
    (idx : SyncIndex) (svc : CloudService) (config : CloudConfig) (policy : UpdatePolicy) : Prop :=
  ∀ fuel report, classifyWithSummary nfc now locals remotes options (some idx) fuel = some report →
    ∀ row ∈ report.differences, ∀ entry delete, row.baselineKey.bind idx.files.lookup = some entry →
      Edited options entry row.localInfo row.remoteInfo delete →
        svc.resolveAction config row policy ≠ delete

/-- Of the pairs that are compared, those of blocked names apart, none has a copy left alone
that was edited. -/
def NoneEdited (nfc : Nfc) (now : DateTime) (locals remotes : Inventory) (options : CompareOptions)
    (idx : SyncIndex) : Prop :=
  ∀ fuel pairs, pairPaths nfc locals remotes fuel = some pairs →
    ∀ pair ∈ pairs, pair.blocked = false →
    passedOver now options pair (pair.localInfo locals) (pair.remoteInfo remotes) = false →
    ∀ entry delete, (baselineKey nfc locals remotes (some idx) pair (pair.localInfo locals)
        (pair.remoteInfo remotes)).bind idx.files.lookup = some entry →
      ¬Edited options entry (pair.localInfo locals) (pair.remoteInfo remotes) delete

variable {l r : Option FileInfo} {entry : SyncIndexEntry} {delete : SyncAction}

/-- In a two-way folder a copy left alone is deleted, edited or not. -/
theorem resolveAction_of_edited (hdir : config.syncDirection = .bidirectional)
    (hb : pair.blocked = false)
    (hkey : (baselineKey nfc locals remotes (some idx) pair l r).isSome = true)
    (h : Edited options entry l r delete) :
    svc.resolveAction config (comparison nfc locals remotes options (some idx) pair l r) policy
      = delete := by
  cases h with
  | @onLocal l hf _ =>
    simp [CloudService.resolveAction, comparison, hb, CloudConfig.oneWayUpdate, hdir,
      CloudService.syncAction, (pairStatus_oneSided _ hb).1, hkey, decideSyncAction, hf]
  | @onRemote r hf _ =>
    simp [CloudService.resolveAction, comparison, hb, CloudConfig.oneWayUpdate, hdir,
      CloudService.syncAction, (pairStatus_oneSided _ hb).2, hkey, decideSyncAction, hf]

theorem Edited.ne_skip (h : Edited options entry l r delete) : delete ≠ .skip := by
  cases h <;> simp

theorem Edited.status_ne (hb : pair.blocked = false) (h : Edited options entry l r delete) :
    pairStatus nfc locals remotes options (some idx) pair l r ≠ .identical := by
  cases h with
  | onLocal => simp [(pairStatus_oneSided _ hb).1]
  | onRemote => simp [(pairStatus_oneSided _ hb).2]

/-- **In a two-way folder no edit is destroyed exactly when there is none to destroy.** -/
theorem editsKept_iff (nfc : Nfc) (now : DateTime) (locals remotes : Inventory)
    (options : CompareOptions) (idx : SyncIndex) (svc : CloudService) (config : CloudConfig)
    (policy : UpdatePolicy) (hdir : config.syncDirection = .bidirectional) :
    EditsKept nfc now locals remotes options idx svc config policy ↔
      NoneEdited nfc now locals remotes options idx := by
  constructor
  · intro hkept fuel pairs h pair hpair hblocked hpassed entry delete hentry hedited
    obtain ⟨key, hkey, -⟩ := Option.bind_eq_some_iff.mp hentry
    refine hkept fuel _ (congrArg _ h) _
      (comparison_mem_differences hpair hpassed (hedited.status_ne hblocked)) entry
      delete hentry hedited ?_
    exact resolveAction_of_edited hdir hblocked (by rw [hkey]; rfl) hedited
  · intro hnone fuel report hreport row hrow entry delete hentry hedited hdelete
    obtain ⟨pairs, h, rfl⟩ := Option.map_eq_some_iff.mp hreport
    obtain ⟨pair, hpair, hexamine, -⟩ := mem_differences.mp hrow
    obtain ⟨hpassed, rfl⟩ := examine_eq_some.mp hexamine
    refine hnone fuel pairs h pair hpair ?_ hpassed entry delete hentry hedited
    -- a blocked row is skipped
    by_contra hblocked
    rw [resolveAction_of_blocked _ (Bool.eq_true_of_not_eq_false hblocked)] at hdelete
    exact hedited.ne_skip hdelete.symm

/-! ### An edit that is deleted -/

/-- A two-way folder that asks about conflicts, of an FTP server. -/
def twoWay : CloudConfig := ⟨"ftp", .askUser, .bidirectional, true, false⟩

/-- The service at the start of a cycle. -/
def CloudService.idle : CloudService := ⟨∅, ∅, [], ∅, [], [], [], none, fun _ => none⟩

/-- The file `a` as it was synced, with one byte. -/
def syncedFile : SyncIndex := ⟨AList.singleton ['a'] ⟨1, none, false, none⟩, ∅, []⟩

/-- The file `a`, edited: it has two bytes. -/
def editedFile : Inventory := AList.singleton ['a'] ⟨2, none, false, none, none⟩

/-- `a` is as it was synced, and deleted on the remote side: no edit goes with it. -/
theorem editsKept_iff_twoWay : twoWay.syncDirection = .bidirectional ∧
    EditsKept Nfc.ascii 0 (AList.singleton ['a'] plainFile) (AList.singleton ['b'] plainFile) .plain
      syncedFile .idle twoWay ⟨.ofLocal, false⟩ := by
  refine ⟨rfl, (editsKept_iff _ _ _ _ _ _ _ _ _ rfl).mpr ?_⟩
  intro fuel pairs h pair hpair _ _ entry delete hentry hedited
  have hpairs : pairPaths .ascii (AList.singleton ['a'] plainFile)
      (AList.singleton ['b'] plainFile) 2 =
      some [⟨some ['a'], none, ['a'], ['a'], false⟩, ⟨none, some ['b'], ['b'], ['b'], false⟩] := by
    decide
  cases Worklist.walk_det h hpairs
  rcases List.mem_cons.mp hpair with rfl | hpair
  · cases hentry
    cases hedited with
    | onLocal _ hchanged => exact absurd hchanged (by decide)
  · obtain rfl := List.mem_singleton.mp hpair
    cases hentry

/-- `a` was edited here and deleted on the remote side, where only `b` is: the edit is
deleted, and the user is not asked. -/
theorem editedFile_deleted :
    ¬EditsKept Nfc.ascii 0 editedFile (AList.singleton ['b'] plainFile) .plain syncedFile
      .idle twoWay ⟨.ofLocal, false⟩ := by
  intro hkept
  have hpairs : pairPaths .ascii editedFile (AList.singleton ['b'] plainFile) 2 =
      some [⟨some ['a'], none, ['a'], ['a'], false⟩,
        ⟨none, some ['b'], ['b'], ['b'], false⟩] := by decide
  have hedited : Edited .plain ⟨1, none, false, none⟩
      (some ⟨2, none, false, none, none⟩) none .deleteLocal :=
    .onLocal rfl rfl
  refine hkept 2 _ (congrArg _ hpairs) _ (comparison_mem_differences List.mem_cons_self (by decide)
    (by decide)) ⟨1, none, false, none⟩ .deleteLocal (by decide) hedited ?_
  exact resolveAction_of_edited rfl rfl (by decide) hedited

end AeroFtp.Cloud
