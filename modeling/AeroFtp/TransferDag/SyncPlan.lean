/-
The plan of a sync over the transfer graph, `plan_sync_dag` in `transfer_dag_sync.rs`.

The passes are those of the dry run, written again: the decisions are collected as
transfers and skips, and the orphans as deletions.  `planUnderGuard` is the part of
`execute_sync_dag` that plans without deletions when the delete guard refuses them.
-/
import AeroFtp.Sync.DryRun

namespace AeroFtp.Dag

open Sync SyncCore

structure PlannedSkip where
  rel : Path
  applyOp : SyncOp
  reason : String
  decisionPolicy : DeltaPolicy
  deriving DecidableEq

inductive DeleteOp where
  | deleteRemote
  | deleteLocal
  deriving DecidableEq, Repr

structure PlannedDelete where
  rel : Path
  op : DeleteOp
  deriving DecidableEq

structure SyncDagPlan where
  transfers : List PlannedTransfer
  skips : List PlannedSkip
  deletes : List PlannedDelete

/-- The sets of the two passes and what they have collected. -/
structure PlanPass where
  seenLocal : List Path
  seenRemote : List Path
  uploadResolvedForBoth : List Path
  transfers : List PlannedTransfer
  skips : List PlannedSkip

section Plan

variable (parseRemoteMtime : String → Option Int) (opts : SyncOptions) (window : ModifyWindow)

variable (locals : List LocalEntry) (remotes : List RemoteEntry) (verdict : Except String Unit)

def planUpload (pass : PlanPass) (localEntry : LocalEntry) : PlanPass :=
  if pass.seenLocal.contains localEntry.relPath then pass
  else
    let pass := { pass with seenLocal := localEntry.relPath :: pass.seenLocal }
    let remoteEntry := remoteByPath remotes localEntry.relPath
    let decision :=
      decideUpload parseRemoteMtime localEntry remoteEntry opts.deltaPolicy opts.conflictMode window
    match decision.action with
    | .copy =>
      let resolved :=
        if opts.direction = .both then localEntry.relPath :: pass.uploadResolvedForBoth
        else pass.uploadResolvedForBoth
      { pass with
        uploadResolvedForBoth := resolved
        transfers := pass.transfers ++
          [{ rel := localEntry.relPath, op := .upload, total := localEntry.size
             decisionPolicy := decision.decisionPolicy, expectedSha256Hex := none }] }
    | .skip reason =>
      { pass with
        skips := pass.skips ++ [⟨localEntry.relPath, .upload, reason, decision.decisionPolicy⟩] }

def planDownload (pass : PlanPass) (remoteEntry : RemoteEntry) : PlanPass :=
  if pass.seenRemote.contains remoteEntry.relPath then pass
  else
    let pass := { pass with seenRemote := remoteEntry.relPath :: pass.seenRemote }
    let handledByUpload :=
      opts.direction = .both && pass.uploadResolvedForBoth.contains remoteEntry.relPath
    let decision :=
      decideDownload parseRemoteMtime remoteEntry (localByPath locals remoteEntry.relPath)
        opts.deltaPolicy opts.conflictMode window handledByUpload
    match decision.action with
    | .copy =>
      { pass with
        transfers := pass.transfers ++
          [{ rel := remoteEntry.relPath, op := .download, total := remoteEntry.size
             decisionPolicy := decision.decisionPolicy
             expectedSha256Hex := remoteSha256Hex remoteEntry }] }
    | .skip reason =>
      { pass with
        skips := pass.skips ++ [⟨remoteEntry.relPath, .download, reason, decision.decisionPolicy⟩] }

/-- The orphans, by the direction of the run. -/
def planDeletes : List PlannedDelete :=
  if opts.deleteOrphans then
    match opts.direction with
    | .upload =>
      (remotes.filter fun entry => (localByPath locals entry.relPath).isNone).map
        (⟨·.relPath, .deleteRemote⟩)
    | .download =>
      (locals.filter fun entry => (remoteByPath remotes entry.relPath).isNone).map
        (⟨·.relPath, .deleteLocal⟩)
    | .both => []
  else []

def planSyncDag : SyncDagPlan :=
  let pass : PlanPass := ⟨[], [], [], [], []⟩
  let pass :=
    if opts.direction = .upload ∨ opts.direction = .both then
      locals.foldl (planUpload parseRemoteMtime opts window remotes) pass
    else pass
  let pass :=
    if opts.direction = .download ∨ opts.direction = .both then
      remotes.foldl (planDownload parseRemoteMtime opts window locals) pass
    else pass
  { transfers := pass.transfers, skips := pass.skips, deletes := planDeletes opts locals remotes }

/-- The options `execute_sync_dag` plans with, under the verdict of the delete guard. -/
def planOpts : SyncOptions :=
  if opts.deleteOrphans then
    match verdict with
    | .ok _ => opts
    | .error _ => { opts with deleteOrphans := false }
  else opts

def planUnderGuard (locals : List LocalEntry) (remotes : List RemoteEntry) : SyncDagPlan :=
  planSyncDag parseRemoteMtime (planOpts opts verdict) window locals remotes

end Plan

end AeroFtp.Dag
