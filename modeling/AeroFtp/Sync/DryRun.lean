/-
The dry run of a sync, the part of `sync_tree_core` in `sync.rs` that never changes a file.

It goes over the local entries, then over the remote ones, then over the orphans, and
reports what it would do: a file that would be copied or deleted is started and then
skipped as a dry run, one that is left alone is skipped with its reason.  A row of the
report is a call of `on_file_start`, where there is one, with the call of
`apply_sync_tree_outcome` that follows it.  Whether local access allows a path,
`access::authorize`, is a parameter.
-/
import AeroFtp.Sync.Decide

namespace AeroFtp.Sync

open SyncCore Dag

/-- The operations of the report. -/
inductive SyncOperation where
  | upload
  | download
  | skip
  | deleteRemote
  | deleteLocal
  | deleteSkipped
  deriving DecidableEq, Repr

/-- The outcomes of a dry run. -/
inductive FileOutcome where
  | skipped (reason : String)
  | failed (error : String)
  deriving DecidableEq, Repr

/-- A call of `on_file_start`; the path is that of the row. -/
structure FileStart where
  total : Nat
  op : SyncOperation
  policy : DeltaPolicy
  deriving DecidableEq

structure SyncRow where
  start : Option FileStart
  rel : Path
  operation : SyncOperation
  outcome : FileOutcome
  decisionPolicy : DeltaPolicy
  deriving DecidableEq

structure SyncError where
  relPath : Path
  operation : SyncOperation
  message : String
  decisionPolicy : DeltaPolicy
  deriving DecidableEq

/-- The sets of the run, what it has reported, and the counters of the report. -/
structure DryRun where
  seenLocal : List Path
  seenRemote : List Path
  uploadResolvedForBoth : List Path
  rows : List SyncRow
  skipped : Nat
  errors : List SyncError

/-! ### One file -/

section DryRun

variable (parseRemoteMtime : String → Option Int) (authorize : Path → Except String Unit)

/-- A dry run of an operation on a file. -/
def performDry (op : SyncOperation) (rel : Path) (total : Nat) (policy : DeltaPolicy) :
    Option FileStart × FileOutcome :=
  match authorize rel with
  | .error error => (none, .failed error)
  | .ok _ => (some ⟨total, op, policy⟩, .skipped "dry-run")

def performUpload := performDry authorize .upload

def performDownload := performDry authorize .download

def performRemoteDelete (rel : Path) := performDry authorize .deleteRemote rel 0

def performLocalDelete (rel : Path) := performDry authorize .deleteLocal rel 0

namespace DryRun

def applySyncTreeOutcome (run : DryRun) (rel : Path) (operation : SyncOperation)
    (performed : Option FileStart × FileOutcome) (decisionPolicy : DeltaPolicy) : DryRun :=
  let rows := run.rows ++ [⟨performed.1, rel, operation, performed.2, decisionPolicy⟩]
  match performed.2 with
  | .skipped _ => { run with rows, skipped := run.skipped + 1 }
  | .failed error =>
    { run with rows, errors := run.errors ++ [⟨rel, operation, error, decisionPolicy⟩] }

/-- A file that is left alone is started as a skip. -/
def skipFile (run : DryRun) (rel : Path) (operation : SyncOperation) (reason : String)
    (policy : DeltaPolicy) : DryRun :=
  run.applySyncTreeOutcome rel operation (some ⟨0, .skip, policy⟩, .skipped reason) policy

/-! ### The passes -/

variable (opts : SyncOptions) (window : ModifyWindow)

def uploadOne (remotes : List RemoteEntry) (run : DryRun) (localEntry : LocalEntry) : DryRun :=
  let rel := localEntry.relPath
  if run.seenLocal.contains rel then run
  else
    let run := { run with seenLocal := rel :: run.seenLocal }
    let decision :=
      decideUpload parseRemoteMtime localEntry (remoteByPath remotes rel) opts.deltaPolicy
        opts.conflictMode window
    match decision.action with
    | .copy =>
      let run :=
        if opts.direction = .both then
          { run with uploadResolvedForBoth := rel :: run.uploadResolvedForBoth }
        else run
      run.applySyncTreeOutcome rel .upload
        (performUpload authorize rel localEntry.size decision.decisionPolicy)
          decision.decisionPolicy
    | .skip reason => run.skipFile rel .upload reason decision.decisionPolicy

variable (locals : List LocalEntry)

def downloadOne (run : DryRun) (remoteEntry : RemoteEntry) : DryRun :=
  let rel := remoteEntry.relPath
  if run.seenRemote.contains rel then run
  else
    let run := { run with seenRemote := rel :: run.seenRemote }
    let handledByUpload := opts.direction = .both && run.uploadResolvedForBoth.contains rel
    let decision :=
      decideDownload parseRemoteMtime remoteEntry (localByPath locals rel) opts.deltaPolicy
        opts.conflictMode window handledByUpload
    match decision.action with
    | .copy =>
      run.applySyncTreeOutcome rel .download
        (performDownload authorize rel remoteEntry.size decision.decisionPolicy)
          decision.decisionPolicy
    | .skip reason => run.skipFile rel .download reason decision.decisionPolicy

def deleteRemoteOne (run : DryRun) (remoteEntry : RemoteEntry) : DryRun :=
  let rel := remoteEntry.relPath
  if (localByPath locals rel).isSome then run
  else
    run.applySyncTreeOutcome rel .deleteRemote (performRemoteDelete authorize rel opts.deltaPolicy)
      opts.deltaPolicy

def deleteLocalOne (remotes : List RemoteEntry) (run : DryRun) (localEntry : LocalEntry) : DryRun :=
  let rel := localEntry.relPath
  if (remoteByPath remotes rel).isSome then run
  else
    run.applySyncTreeOutcome rel .deleteLocal (performLocalDelete authorize rel opts.deltaPolicy)
      opts.deltaPolicy

def uploadPass (remotes : List RemoteEntry) (run : DryRun) : DryRun :=
  if opts.direction = .upload ∨ opts.direction = .both then
    locals.foldl (uploadOne parseRemoteMtime authorize opts window remotes) run
  else run

def downloadPass (remotes : List RemoteEntry) (run : DryRun) : DryRun :=
  if opts.direction = .download ∨ opts.direction = .both then
    remotes.foldl (downloadOne parseRemoteMtime authorize opts window locals) run
  else run

def deletePass (verdict : Except String Unit) (locals : List LocalEntry)
    (remotes : List RemoteEntry) (run : DryRun) : DryRun :=
  if opts.deleteOrphans then
    match verdict with
    | .error reason =>
      { run with errors := run.errors ++ [⟨[], .deleteSkipped, reason, opts.deltaPolicy⟩] }
    | .ok _ =>
      match opts.direction with
      | .upload => remotes.foldl (deleteRemoteOne authorize opts locals) run
      | .download => locals.foldl (deleteLocalOne authorize opts remotes) run
      | .both => run
  else run

end DryRun

/-- The dry run of `sync_tree_core`, after the scans, under the verdict of the delete guard. -/
def syncTreeDryRun (opts : SyncOptions) (window : ModifyWindow) (verdict : Except String Unit)
    (locals : List LocalEntry) (remotes : List RemoteEntry) : DryRun :=
  let run := DryRun.uploadPass parseRemoteMtime authorize opts window locals remotes
    ⟨[], [], [], [], 0, []⟩
  let run := DryRun.downloadPass parseRemoteMtime authorize opts window locals remotes run
  DryRun.deletePass authorize opts verdict locals remotes run

end DryRun

end AeroFtp.Sync
