/-
Which history of earlier syncs a comparison or a resume is given, from `sync.rs` and
`compare_local_directories` of `lib.rs`.

An index and a journal are each one file, named by a hash of the two paths.  Of their
records only the paths and the profile are spelt out; the rest is a parameter, with what
a save or a load does to it.  A save that fails leaves the file there was, and a load
that fails gives no history.
-/
import AeroFtp.Sync.Paths

namespace AeroFtp.Sync

/-- A `SyncIndex` or a `SyncJournal`. -/
structure SyncHistory (ρ : Type) where
  localPath : Path
  remotePath : Path
  profileId : Option Path
  rest : ρ
  deriving DecidableEq

/-- The text that is hashed. -/
def combined (localPath remotePath : Path) : Path := localPath ++ '|' :: remotePath

def indexFilename (stablePathHash : Path → Path) (localPath remotePath : Path) : Path :=
  stablePathHash (combined localPath remotePath) ++ ".json".toList

def journalFilename (stablePathHash : Path → Path) (localPath remotePath : Path) : Path :=
  "journal_".toList ++ stablePathHash (combined localPath remotePath) ++ ".json".toList

def historyServes : Option Path → Option Path → Bool
  | some recorded, some active => recorded == active
  | _, _ => true

/-- A folder of histories of one kind: the names of its files, what they hold, and what
a load makes of the rest of a record. -/
structure HistoryDir (ρ : Type) where
  filename : Path → Path → Path
  files : Path → Option (SyncHistory ρ)
  reread : ρ → ρ

namespace HistoryDir

variable {ρ : Type} (dir : HistoryDir ρ)

def load (localPath remotePath : Path) : Option (SyncHistory ρ) :=
  (dir.files (dir.filename localPath remotePath)).map fun history =>
    { history with rest := dir.reread history.rest }

def loadForProfile (localPath remotePath : Path) (profileId : Option Path) :
    Option (SyncHistory ρ) :=
  (dir.load localPath remotePath).filter fun history => historyServes history.profileId profileId

def save (history : SyncHistory ρ) : HistoryDir ρ :=
  { dir with
    files := Function.update dir.files (dir.filename history.localPath history.remotePath)
      (some history) }

end HistoryDir

/-- The two folders, with the moment a journal is stamped with on a save. -/
structure Histories (ι κ : Type) where
  syncIndexDir : HistoryDir ι
  syncJournalDir : HistoryDir κ
  updatedAt : κ → κ

namespace Histories

variable {ι κ : Type} (s : Histories ι κ)

/-- No file in either folder.  `migrate` is `migrate_sync_index`. -/
def empty (stablePathHash : Path → Path) (migrate : ι → ι) (updatedAt : κ → κ) : Histories ι κ where
  syncIndexDir := ⟨indexFilename stablePathHash, fun _ => none, migrate⟩
  syncJournalDir := ⟨journalFilename stablePathHash, fun _ => none, id⟩
  updatedAt := updatedAt

def loadSyncIndex : Path → Path → Option (SyncHistory ι) := s.syncIndexDir.load

def loadSyncIndexForProfile : Path → Path → Option Path → Option (SyncHistory ι) :=
  s.syncIndexDir.loadForProfile

def loadSyncJournalForProfile : Path → Path → Option Path → Option (SyncHistory κ) :=
  s.syncJournalDir.loadForProfile

def saveSyncIndex (index : SyncHistory ι) : Histories ι κ :=
  { s with syncIndexDir := s.syncIndexDir.save index }

def saveSyncJournal (journal : SyncHistory κ) : Histories ι κ :=
  { s with
    syncJournalDir := s.syncJournalDir.save { journal with rest := s.updatedAt journal.rest } }

/-- The index `compare_local_directories` classifies its two folders with. -/
def compareLocalDirectoriesIndex (leftPath rightPath : Path) : Option (SyncHistory ι) :=
  s.loadSyncIndex leftPath rightPath

/-- One save of an interleaving; a load changes nothing. -/
def save : SyncHistory ι ⊕ SyncHistory κ → Histories ι κ
  | .inl index => s.saveSyncIndex index
  | .inr journal => s.saveSyncJournal journal

end Histories

end AeroFtp.Sync
