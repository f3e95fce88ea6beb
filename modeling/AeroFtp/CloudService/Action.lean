/-
What a cycle of AeroCloud does with a row, `cloud_service.rs` and `sync.rs`.

A row with two copies that differ is a conflict or has a newer side; a row with one copy is
new, or its other copy was deleted, and the table of `decideSyncAction` tells these apart by
whether the row was synced before.  One-way Update goes another way: it deletes a file only
with a receipt of the transfer that put it there.

Which directory and which account a receipt is bound to is read from the system, and is the
scope of the service.  How FileLu's times were read once is the provider's own affair.
-/
import AeroFtp.Sync.Classify

namespace AeroFtp.Cloud

open Sync

inductive CompareDirection
  | localToRemote
  | remoteToLocal
  | bidirectional
  deriving DecidableEq

inductive SyncAction
  | upload
  | download
  | deleteLocal
  | deleteRemote
  | skip
  | askUser
  | keepBoth
  deriving DecidableEq

/-- `matches!(action, SyncAction::DeleteLocal | SyncAction::DeleteRemote)`. -/
def SyncAction.isDelete : SyncAction → Bool
  | deleteLocal | deleteRemote => true
  | _ => false

def decideSyncAction (status : SyncStatus) (direction : CompareDirection)
    (previouslySynced preserveRemoteDeletes : Bool) : SyncAction :=
  match status, direction with
  | .localOnly, .bidirectional => if previouslySynced then .deleteLocal else .upload
  | .remoteOnly, .bidirectional => if previouslySynced then .deleteRemote else .download
  | .identical, .bidirectional => .skip
  | .localNewer, .bidirectional => .upload
  | .remoteNewer, .bidirectional => .download
  | .conflict, .bidirectional => .askUser
  | .sizeMismatch, .bidirectional => .askUser
  -- send only: the local side wins, and deletes go over in mirror mode
  | .localNewer, .localToRemote => .upload
  | .localOnly, .localToRemote => .upload
  | .remoteNewer, .localToRemote => .skip
  | .remoteOnly, .localToRemote =>
    if !preserveRemoteDeletes && previouslySynced then .deleteRemote else .skip
  | .identical, .localToRemote => .skip
  | .conflict, .localToRemote => .upload
  | .sizeMismatch, .localToRemote => .upload
  -- receive only
  | .remoteNewer, .remoteToLocal => .download
  | .remoteOnly, .remoteToLocal => .download
  | .localNewer, .remoteToLocal => .skip
  | .localOnly, .remoteToLocal =>
    if !preserveRemoteDeletes && previouslySynced then .deleteLocal else .skip
  | .identical, .remoteToLocal => .skip
  | .conflict, .remoteToLocal => .download
  | .sizeMismatch, .remoteToLocal => .download

/-! ### The configuration and the state of a cycle -/

inductive ConflictStrategy
  | askUser
  | keepBoth
  | preferLocal
  | preferRemote
  | preferNewer
  deriving DecidableEq

structure CloudConfig where
  protocolType : String
  conflictStrategy : ConflictStrategy
  syncDirection : CompareDirection
  preserveRemoteDeletes : Bool
  updateOnly : Bool

/-- `config.update_only && config.sync_direction != CompareDirection::Bidirectional`. -/
def CloudConfig.oneWayUpdate (config : CloudConfig) : Bool :=
  config.updateOnly && config.syncDirection ≠ .bidirectional

/-- Proof of a transfer, under the local key: what it left on the side it went to. -/
structure CloudTransferReceipt where
  scope : String
  remoteKey : Path
  destinationSide : CompareDirection
  destination : SyncIndexEntry
  utcRemoteTime : Bool

/-- What a transfer left on the local file. -/
structure Landed where
  size : Option Nat
  modified : DateTime

structure CloudService where
  /-- What each transfer of the running cycle left. -/
  landed : HashMap Path Landed
  /-- When each upload of the cycle ended. -/
  uploadsEnded : HashMap Path DateTime
  /-- The paths of `withheld_updates`. -/
  withheldUpdates : List Path
  cloudReceipts : HashMap Path CloudTransferReceipt
  revokedReceipts : List Path
  /-- Files of the cycle that kept changing while they uploaded. -/
  unsettled : List Path
  /-- Files a previous cycle left unsettled. -/
  leftUnsettled : List Path
  /-- `effective_receipt_scope`, where there is one. -/
  receiptScope : Option String
  /-- `filelu::pre_utc_fix_reading`. -/
  preUtcFixReading : DateTime → Option DateTime

/-- What the scans of the cycle allow. -/
structure UpdatePolicy where
  window : ModifyWindow
  allowOrphanDeletes : Bool

/-- One-way Update: it never writes to the source. -/
def UpdatePolicy.action (policy : UpdatePolicy) (config : CloudConfig) (row : FileComparison) :
    SyncAction :=
  let upload := config.syncDirection = .localToRemote
  let source := if upload then row.localInfo else row.remoteInfo
  let destination := if upload then row.remoteInfo else row.localInfo
  let transfer := if upload then SyncAction.upload else .download
  match source, destination with
  | none, some _ =>
    if row.previouslySynced && !config.preserveRemoteDeletes && policy.allowOrphanDeletes
      && !row.isDir then
      if upload then .deleteRemote else .deleteLocal
    else .skip
  | some _, none => transfer
  | some source, some destination =>
    if source.isDir ≠ destination.isDir then .askUser
    else if source.isDir || row.status = .identical then .skip
    else
      match policy.window.order (source.modified.map timestamp)
        (destination.modified.map timestamp) with
      | some .lt => .skip
      | some _ => transfer
      | none => .askUser
  | none, none => .skip

namespace CloudService

variable (svc : CloudService) (config : CloudConfig)

/-! ### Receipts -/

variable (row : FileComparison) (receipt : CloudTransferReceipt)

/-- The receipt of this row's two paths, for the side the cycle goes to. -/
def cloudReceiptFor : Option CloudTransferReceipt :=
  let localPath := row.localRelativePath.getD row.relativePath
  let remotePath := row.remoteRelativePath.getD row.relativePath
  svc.receiptScope.bind fun scope =>
    let fits := fun receipt : CloudTransferReceipt =>
      receipt.remoteKey = remotePath && receipt.destinationSide = config.syncDirection
        && receipt.scope = scope
    ((svc.cloudReceipts.lookup localPath).filter fits).or
      (if row.localInfo.isNone then (row.baselineKey.bind svc.cloudReceipts.lookup).filter fits
        else none)

def isPreUtcFixFileluReceipt : Bool :=
  config.protocolType = "filelu" && !receipt.utcRemoteTime && receipt.destinationSide
    = .localToRemote

def preUtcFixFileluReceipt (modified : Option DateTime) : Bool :=
  isPreUtcFixFileluReceipt config receipt &&
    (modified.bind svc.preUtcFixReading).any (receipt.destination.modified = some ·)

/-- The destination is as the transfer left it. -/
def receiptMatches (size : Nat) (modified : Option DateTime) : Bool :=
  !receipt.destination.isDir && receipt.destination.modified.isSome &&
    receipt.destination.modified ≠ some unsettledBaseline && receipt.destination.size = size &&
    if isPreUtcFixFileluReceipt config receipt then
      svc.preUtcFixFileluReceipt config receipt modified
    else receipt.destination.modified = modified

/-- The file that only the destination has. -/
def orphan : Option FileInfo :=
  match config.syncDirection with
  | .localToRemote => if row.localInfo.isNone then row.remoteInfo else none
  | .remoteToLocal => if row.remoteInfo.isNone then row.localInfo else none
  | .bidirectional => none

/-- Why a file that only the destination has is kept. -/
def changedDestinationReason : Option String :=
  if !config.updateOnly || config.preserveRemoteDeletes || row.isDir then none
  else do
    let destination ← orphan config row
    let receipt ← svc.cloudReceiptFor config row
    if svc.receiptMatches config receipt destination.size destination.modified then none
    else
      some "Destination changed or cannot be verified against the last AeroCloud transfer; kept. Review both sides in AeroSync before deciding on deletion."

/-! ### The action -/

/-- The action of One-way Update. -/
def updateAction (policy : UpdatePolicy) : SyncAction :=
  if svc.leftUnsettled.contains row.relativePath then .askUser
  else if (svc.changedDestinationReason config row).isSome then .skip
  else if (orphan config row).isSome && !row.isDir && (svc.cloudReceiptFor config row).isNone
    then .skip
  else policy.action config row

/-- The action for two copies that both changed. -/
def conflictAction : SyncAction :=
  if (config.conflictStrategy = .preferNewer || config.conflictStrategy = .preferRemote) &&
      svc.leftUnsettled.contains row.relativePath then .askUser
  else
    match config.conflictStrategy with
    | .askUser => .askUser
    | .keepBoth => .keepBoth
    | .preferLocal => .upload
    | .preferRemote => .download
    | .preferNewer =>
      match row.localInfo.bind (·.modified), row.remoteInfo.bind (·.modified) with
      | some l, some r => if l > r then .upload else if r > l then .download else .askUser
      | _, _ => .askUser

/-- The action of the other modes. -/
def syncAction : SyncAction :=
  let action :=
    if row.status = .conflict || row.status = .sizeMismatch then svc.conflictAction config row
    else decideSyncAction row.status config.syncDirection row.previouslySynced
      config.preserveRemoteDeletes
  -- AeroCloud removes files, not directories
  if row.isDir && action.isDelete then .skip else action

def resolveAction (policy : UpdatePolicy) : SyncAction :=
  if row.nameMatchBlocked then .skip
  else if config.oneWayUpdate then svc.updateAction config row policy
  else svc.syncAction config row

end CloudService

end AeroFtp.Cloud
