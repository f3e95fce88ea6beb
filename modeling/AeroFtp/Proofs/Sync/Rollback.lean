/-
What a rollback leaves.

A turn of the loop replaces a local file that does not match by whatever the remote has, and
one that matches too when its upload fails.  What holds of a file behind its own turn holds at
the end if the turns behind it spare it: they do if no two paths lead to one file, and may
where two do.
-/
import AeroFtp.Sync.Rollback

namespace AeroFtp.Sync

open List

/-- A transfer that reports success copied the whole content. -/
structure Transfers.Copies (transfers : Transfers) : Prop where
  upload : ∀ path content remote, (transfers.upload path content remote).1 = .ok () →
    (transfers.upload path content remote).2 = some content
  download : ∀ path remote file, (transfers.download path remote file).1 = .ok () →
    ∃ content modified, remote = some content ∧
      (transfers.download path remote file).2 = .file content modified

theorem eq_file_of_matches {file : LocalFile} {entry : FileSnapshotEntry}
    (h : localFileMatchesSnapshot file entry = .ok true) :
    ∃ modified, file = .file file.content modified ∧ file.content.length = entry.size := by
  cases file with
  | file content modified =>
    refine ⟨modified, rfl, ?_⟩
    by_contra hs
    simp only [localFileMatchesSnapshot] at h
    rw [if_pos (show content.length ≠ entry.size from hs)] at h
    cases h
  | missing | other | unreadable => cases h

/-! ### One file -/

/-- What a turn of the loop meets: a file of the snapshot, and what is at its two places. -/
structure Visit where
  path : Path
  entry : FileSnapshotEntry
  file : LocalFile
  remote : Option (List UInt8)

namespace Restorer

variable (via : Restorer) (v : Visit)

/-- What becomes of it. -/
def turnOf : LocalFile × Option (List UInt8) × Except String Counted :=
  via.restoreFile v.path v.entry v.file v.remote

/-- The local file matches and its upload succeeds. -/
def Uploads : Prop :=
  localFileMatchesSnapshot v.file v.entry = .ok true ∧
    (via.transfers.upload v.path v.file.content v.remote).1 = .ok ()

/-- The remote file behind the upload, if there is one. -/
def behindUpload : Option (List UInt8) :=
  match localFileMatchesSnapshot v.file v.entry with
  | .ok true => (via.transfers.upload v.path v.file.content v.remote).2
  | _ => v.remote

/-- The download is reached: the command does not stop before it, and no upload succeeds. -/
structure Downloads : Prop where
  valid : validateRelativePath v.path = .ok ()
  readable : ∃ matched, localFileMatchesSnapshot v.file v.entry = .ok matched
  connected : via.backend ≠ .provider false
  notUploaded : ¬via.Uploads v
  archived : v.file.exists && via.versioning.isEnabled → via.transfers.archive v.path = .ok ()

/-- What the download reports and leaves. -/
def downloaded : Except String Unit × LocalFile :=
  via.transfers.download v.path (via.behindUpload v) v.file

/-- What the turn of a file can be: it stops, uploads or downloads. -/
inductive Turn : LocalFile × Option (List UInt8) × Except String Counted → Prop
  | stops {left err} (h : ¬via.Downloads v) : Turn (v.file, left, .error err)
  | uploads (h : via.Uploads v) : Turn (v.file, via.behindUpload v, .ok .toRemote)
  | downloads {c} (h : via.Downloads v)
    (hdone : (∀ message, c ≠ .skipped message) → (via.downloaded v).1 = .ok ()) :
    Turn ((via.downloaded v).2, via.behindUpload v, .ok c)

variable {via v}

theorem turn_downloadOver {matched : Bool} {behind : Option (List UInt8)}
    (hv : validateRelativePath v.path = .ok ())
    (hm : localFileMatchesSnapshot v.file v.entry = .ok matched) (hnot : ¬via.Uploads v)
    (hbehind : via.behindUpload v = behind) :
    let down := via.downloadOver v.path v.file behind
    via.Turn v (down.1, behind, down.2) := by
  intro down
  subst hbehind
  simp only [down, downloadOver]
  split
  · rename_i err ha
    refine .stops fun h => ?_
    split_ifs at ha with he
    rw [h.archived he] at ha
    cases ha
  · rename_i ha
    split_ifs with hb
    · exact .stops fun h => h.connected hb
    · have hdown : via.Downloads v :=
        ⟨hv, ⟨matched, hm⟩, hb, hnot, fun he => by rwa [if_pos he] at ha⟩
      cases hd : via.downloaded v with
      | mk outcome left =>
        have hturn {c : Counted} (h : (∀ message, c ≠ .skipped message) → outcome = .ok ()) :
            via.Turn v (left, via.behindUpload v, .ok c) := by
          have := Turn.downloads (c := c) hdown
          rw [hd] at this
          exact this h
        rw [downloaded] at hd
        rw [hd]
        cases outcome with
        | ok => exact hturn fun _ => rfl
        | error err => exact hturn fun h => absurd rfl (h _)

variable (via v)

theorem turn_turnOf : via.Turn v (via.turnOf v) := by
  rw [turnOf, restoreFile]
  cases hv : validateRelativePath v.path with
  | error err => exact .stops fun h => by simpa [hv] using h.valid
  | ok valid =>
    cases hm : localFileMatchesSnapshot v.file v.entry with
    | error err => exact .stops fun h => by simpa [hm] using h.readable
    | ok matched =>
      cases matched with
      | false =>
        have hnot : ¬via.Uploads v := fun h => nomatch hm.symm.trans h.1
        exact turn_downloadOver hv hm hnot (by simp only [behindUpload, hm])
      | true =>
        split_ifs with hb
        · exact .stops fun h => h.connected hb
        rcases hup : via.transfers.upload v.path v.file.content v.remote with ⟨outcome, left⟩
        have hbehind : via.behindUpload v = left := by simp only [behindUpload, hm, hup]
        cases outcome with
        | ok => exact hbehind ▸ .uploads ⟨hm, by rw [hup]⟩
        | error err =>
          exact turn_downloadOver hv hm (fun h => by simpa [hup] using h.2) hbehind

variable {via v}

theorem behindUpload_of_uploads (hcopies : via.transfers.Copies) (h : via.Uploads v) :
    via.behindUpload v = some v.file.content := by
  simp only [behindUpload, h.1]
  exact hcopies.upload _ _ _ h.2

/-- A turn that is counted as restored leaves one content on both sides, the one behind the
upload. -/
theorem turnOf_restored (hcopies : via.transfers.Copies) {c : Counted}
    (h : (via.turnOf v).2.2 = .ok c) (hc : ∀ message, c ≠ .skipped message) :
    ∃ content modified, via.behindUpload v = some content ∧
      (via.turnOf v).1 = .file content modified ∧ (via.turnOf v).2.1 = some content := by
  have ht := via.turn_turnOf v
  generalize via.turnOf v = turn at ht h ⊢
  cases ht with
  | stops => cases h
  | uploads hup =>
    obtain ⟨modified, hf, -⟩ := eq_file_of_matches hup.1
    have hb := behindUpload_of_uploads hcopies hup
    exact ⟨v.file.content, modified, hb, hf, hb⟩
  | downloads _ hdone =>
    cases h
    obtain ⟨content, modified, hb, hleft⟩ := hcopies.download _ _ _ (hdone hc)
    exact ⟨content, modified, hb, hleft, hb⟩

/-- The remote file is there and has the recorded size. -/
def Recorded (v : Visit) (remote : Option (List UInt8)) : Prop :=
  ∃ content, remote = some content ∧ content.length = v.entry.size

/-- The remote file has the recorded size: as it is where the local file does not match, and as
a failed upload leaves it where it does. -/
def Restores (via : Restorer) (v : Visit) : Prop :=
  ¬via.Uploads v → Recorded v (via.behindUpload v)

theorem restores_iff (hcopies : via.transfers.Copies) :
    via.Restores v ↔ Recorded v (via.behindUpload v) := by
  refine ⟨fun h => ?_, fun h _ => h⟩
  by_cases hup : via.Uploads v
  · obtain ⟨-, -, hsize⟩ := eq_file_of_matches hup.1
    exact ⟨v.file.content, behindUpload_of_uploads hcopies hup, hsize⟩
  · exact h hup

/-- Where the download is reached, it leaves the content of the local file, be it that it
succeeds or that it fails. -/
def Spares (via : Restorer) (v : Visit) : Prop :=
  via.Downloads v → ∃ modified, (via.downloaded v).2 = .file v.file.content modified

theorem turnOf_kept_iff {date : Except String Int} (hf : v.file = .file v.file.content date) :
    (∃ modified, (via.turnOf v).1 = .file v.file.content modified) ↔ via.Spares v := by
  have ht := via.turn_turnOf v
  generalize via.turnOf v = turn at ht ⊢
  cases ht with
  | stops h => exact ⟨fun _ hdown => absurd hdown h, fun _ => ⟨date, hf⟩⟩
  | uploads h => exact ⟨fun _ hdown => absurd h hdown.notUploaded, fun _ => ⟨date, hf⟩⟩
  | downloads h => exact ⟨fun hkept _ => hkept, fun hspares => hspares h⟩

end Restorer

/-! ### The loop -/

namespace Trees

variable {L R : Type} {via : Restorer} {file other : SnapshotFile}
  {files left : List SnapshotFile}

/-- The two paths lead to different files, on both sides. -/
def Apart (trees : Trees L R) (file other : SnapshotFile) : Prop :=
  trees.localFile file.1 ≠ trees.localFile other.1 ∧
    trees.remoteFile file.1 ≠ trees.remoteFile other.1

/-- What is at the two places of a file. -/
def sides (trees : Trees L R) (file : SnapshotFile) : LocalFile × Option (List UInt8) :=
  (trees.locals (trees.localFile file.1), trees.remotes (trees.remoteFile file.1))

def visit (trees : Trees L R) (file : SnapshotFile) : Visit :=
  ⟨file.1, file.2, (trees.sides file).1, (trees.sides file).2⟩

variable [DecidableEq L] [DecidableEq R] {trees now : Trees L R}

theorem local_afterTurn : ((trees.afterTurn via other).sides file).1 =
    if trees.localFile file.1 = trees.localFile other.1 then (trees.turn via other).1
    else (trees.sides file).1 := by
  simp [sides, afterTurn, Function.update_apply]

theorem remote_afterTurn : ((trees.afterTurn via other).sides file).2 =
    if trees.remoteFile file.1 = trees.remoteFile other.1 then (trees.turn via other).2.1
    else (trees.sides file).2 := by
  simp [sides, afterTurn, Function.update_apply]

/-- The loop comes from the turns of `files` in `trees` to the turns of `left` in `now`. -/
inductive Comes (via : Restorer) : List SnapshotFile → Trees L R →
    List SnapshotFile → Trees L R → Prop
  | here {fs ts} : Comes via fs ts fs ts
  | next {f fs ts fs' ts' c} (hturn : (turn via ts f).2.2 = .ok c)
    (hrest : Comes via fs (afterTurn via ts f) fs' ts') : Comes via (f :: fs) ts fs' ts'

theorem Comes.paths (h : Comes via files trees left now) :
    left <:+ files ∧ now.localFile = trees.localFile ∧ now.remoteFile = trees.remoteFile := by
  induction h with
  | here => exact ⟨suffix_rfl, rfl, rfl⟩
  | next _ _ ih => exact ⟨ih.1.trans (suffix_cons _ _), ih.2⟩

theorem Comes.restoreFiles_eq (h : Comes via files trees left now)
    (result : RestoreSnapshotResult) :
    ∃ result', restoreFiles via files trees result = restoreFiles via left now result' := by
  induction h generalizing result with
  | here => exact ⟨result, rfl⟩
  | next hturn _ ih =>
    rw [restoreFiles, hturn]
    exact ih _

/-- What holds behind the turn of a file, and is kept by the turns that come after it, holds at
the end. -/
theorem restoreFiles_of_turns {Q : Trees L R → Prop} (hown : Q (trees.afterTurn via file))
    (hstep : ∀ other left now, Comes via (file :: files) trees (other :: left) now →
      other ∈ files → Q now → Q (now.afterTurn via other)) (result : RestoreSnapshotResult) :
    Q (restoreFiles via (file :: files) trees result).1 := by
  induction files generalizing file trees result with
  | nil =>
    rw [restoreFiles]
    split
    · exact hown
    · exact hown
  | cons next files ih =>
    rw [restoreFiles]
    split
    · exact hown
    · rename_i c hturn
      refine ih (hstep next files _ (.next hturn .here) mem_cons_self hown) ?_ _
      exact fun other left now hcomes hmem =>
        hstep other left now (.next hturn hcomes) (.tail _ hmem)

theorem failed_of_clean {result result' : RestoreSnapshotResult}
    (h : (restoreFiles via files trees result).2 = .ok result') (hclean : result'.failed = []) :
    result.failed = [] := by
  induction files generalizing trees result with
  | nil =>
    cases h
    exact hclean
  | cons file files ih =>
    rw [restoreFiles] at h
    split at h
    · cases h
    · rename_i c _
      have hcount := ih h
      cases c with
      | toRemote | fromRemote => exact hcount
      | skipped message => simp [RestoreSnapshotResult.count] at hcount

/-- In a run without failures each turn that comes is counted as restored. -/
theorem Comes.clean (h : Comes via files trees (file :: left) now)
    {result result' : RestoreSnapshotResult}
    (hrun : (restoreFiles via files trees result).2 = .ok result') (hclean : result'.failed = []) :
    ∃ c, (now.turn via file).2.2 = .ok c ∧ ∀ message, c ≠ .skipped message := by
  obtain ⟨before, hbefore⟩ := h.restoreFiles_eq result
  rw [hbefore, restoreFiles] at hrun
  split at hrun
  · cases hrun
  · rename_i c hturn
    refine ⟨c, hturn, ?_⟩
    rintro message rfl
    have hcount := failed_of_clean hrun hclean
    simp [RestoreSnapshotResult.count] at hcount

theorem exists_comes {result result' : RestoreSnapshotResult}
    (hrun : (restoreFiles via files trees result).2 = .ok result') (hfile : file ∈ files) :
    ∃ left now, Comes via files trees (file :: left) now := by
  induction files generalizing trees result with
  | nil => cases hfile
  | cons other files ih =>
    rcases mem_cons.mp hfile with rfl | hfile
    · exact ⟨files, trees, .here⟩
    · rw [restoreFiles] at hrun
      split at hrun
      · cases hrun
      · rename_i c hturn
        obtain ⟨left, now, hcomes⟩ := ih hrun hfile
        exact ⟨left, now, .next hturn hcomes⟩

theorem Comes.of_singleton (h : Comes via [file] trees (other :: left) now) :
    other = file ∧ left = [] ∧ now = trees := by
  cases h with
  | here => exact ⟨rfl, rfl, rfl⟩
  | next _ hrest => nomatch hrest

section Apart

variable (h : Comes via files trees (file :: left) now) (hapart : files.Pairwise trees.Apart)
include h hapart

theorem Comes.apart {left' : List SnapshotFile} {now' : Trees L R}
    (h' : Comes via (file :: left) now (other :: left') now') (hother : other ∈ left) :
    now'.Apart other file := by
  obtain ⟨hsuffix, hlocal, hremote⟩ := h.paths
  obtain ⟨-, hlocal', hremote'⟩ := h'.paths
  obtain ⟨hne, hne'⟩ := (pairwise_cons.mp (hapart.sublist hsuffix.sublist)).1 other hother
  rw [Apart, hlocal', hremote', hlocal, hremote]
  exact ⟨hne.symm, hne'.symm⟩

theorem Comes.sides_restoreFiles (result : RestoreSnapshotResult) :
    (restoreFiles via files trees result).1.sides file = (now.afterTurn via file).sides file := by
  obtain ⟨before, hbefore⟩ := h.restoreFiles_eq result
  rw [hbefore]
  refine restoreFiles_of_turns (Q := fun t => t.sides file = (now.afterTurn via file).sides file)
    rfl (fun other left' now' hcomes' hmem hsame => ?_) before
  obtain ⟨hne, hne'⟩ := h.apart hapart hcomes' hmem
  rw [← hsame]
  refine Prod.ext ?_ ?_
  · rw [local_afterTurn, if_neg hne.symm]
  · rw [remote_afterTurn, if_neg hne'.symm]

end Apart

/-! ### A rollback that reports no failure -/

/-- Both sides have one content, of the recorded size. -/
def Restored (trees : Trees L R) (file : SnapshotFile) : Prop :=
  ∃ content modified, trees.sides file = (.file content modified, some content) ∧
    content.length = file.2.size

/-- The turn of `other` leaves the content of `file`: where the local file is the same, `other`
is uploaded or the remote has that content; where the remote file is, its upload leaves it. -/
def Leaves (via : Restorer) (trees : Trees L R) (other file : SnapshotFile) : Prop :=
  (trees.localFile file.1 = trees.localFile other.1 →
    via.Uploads (trees.visit other) ∨
      via.behindUpload (trees.visit other) = some (trees.visit other).file.content) ∧
  (trees.remoteFile file.1 = trees.remoteFile other.1 →
    via.behindUpload (trees.visit other) = (trees.visit other).remote)

/-- Each turn that comes finds the recorded size on the remote, or uploads, and the turns
after it leave its file. -/
def RestoresEach (via : Restorer) (files : List SnapshotFile) (trees : Trees L R) : Prop :=
  ∀ file left now, Comes via files trees (file :: left) now →
    via.Restores (now.visit file) ∧
    ∀ other left' now', Comes via (file :: left) now (other :: left') now' → other ∈ left →
      Leaves via now' other file

section Clean

variable (hcopies : via.transfers.Copies) {c : Counted} (hturn : (trees.turn via other).2.2 = .ok c)
  (hc : ∀ message, c ≠ .skipped message)
include hcopies hturn hc

theorem restored_afterTurn_self : (trees.afterTurn via other).Restored other ↔
    via.Restores (trees.visit other) := by
  obtain ⟨content, modified, hbehind, hlocal, hremote⟩ :=
    Restorer.turnOf_restored (v := trees.visit other) hcopies hturn hc
  have hsides : (trees.afterTurn via other).sides other = (.file content modified, some content) :=
    Prod.ext (by rw [local_afterTurn, if_pos rfl]; exact hlocal)
      (by rw [remote_afterTurn, if_pos rfl]; exact hremote)
  rw [Restorer.restores_iff hcopies, Restored, hsides]
  constructor
  · rintro ⟨_, _, h, hsize⟩
    cases h
    exact ⟨content, hbehind, hsize⟩
  · rintro ⟨_, h, hsize⟩
    cases hbehind.symm.trans h
    exact ⟨content, modified, rfl, hsize⟩

theorem Restored.afterTurn (h : trees.Restored file) (hleaves : Leaves via trees other file) :
    (trees.afterTurn via other).Restored file := by
  obtain ⟨content, date, hsides, hsize⟩ := h
  obtain ⟨content', modified, hbehind, hlocal, hremote⟩ :=
    Restorer.turnOf_restored (v := trees.visit other) hcopies hturn hc
  have hl : ∃ modified, ((trees.afterTurn via other).sides file).1 = .file content modified := by
    rw [local_afterTurn]
    split_ifs with hsame
    · have hfile : (trees.visit other).file = .file content date :=
        (congrArg trees.locals hsame).symm.trans (congrArg Prod.fst hsides)
      have hcontent : via.behindUpload (trees.visit other) = some content := by
        rcases hleaves.1 hsame with hup | hsame
        · rw [Restorer.behindUpload_of_uploads hcopies hup, hfile, LocalFile.content]
        · rw [hsame, hfile, LocalFile.content]
      obtain rfl : content' = content := Option.some.inj (hbehind.symm.trans hcontent)
      exact ⟨modified, hlocal⟩
    · exact ⟨date, congrArg Prod.fst hsides⟩
  have hr : ((trees.afterTurn via other).sides file).2 = some content := by
    rw [remote_afterTurn]
    split_ifs with hsame
    · have hfile : (trees.sides other).2 = some content :=
        (congrArg trees.remotes hsame).symm.trans (congrArg Prod.snd hsides)
      exact hremote.trans (hbehind.symm.trans ((hleaves.2 hsame).trans hfile))
    · exact congrArg Prod.snd hsides
  obtain ⟨modified, hl⟩ := hl
  exact ⟨content, modified, Prod.ext hl hr, hsize⟩

end Clean

section Run

variable (hcopies : via.transfers.Copies) {result result' : RestoreSnapshotResult}
  (hrun : (restoreFiles via files trees result).2 = .ok result') (hclean : result'.failed = [])
include hcopies hrun hclean

theorem restored_of_restoresEach (heach : RestoresEach via files trees) (hfile : file ∈ files) :
    (restoreFiles via files trees result).1.Restored file := by
  obtain ⟨left, now, hcomes⟩ := exists_comes hrun hfile
  obtain ⟨hown, hlater⟩ := heach file left now hcomes
  obtain ⟨c, hturn, hc⟩ := hcomes.clean hrun hclean
  obtain ⟨before, hbefore⟩ := hcomes.restoreFiles_eq result
  rw [hbefore] at hrun ⊢
  refine restoreFiles_of_turns (Q := fun t => t.Restored file)
    ((restored_afterTurn_self hcopies hturn hc).mpr hown) ?_ before
  intro other left' now' hcomes' hmem hrestored
  obtain ⟨c', hturn', hc'⟩ := hcomes'.clean hrun hclean
  exact hrestored.afterTurn hcopies hturn' hc' (hlater other left' now' hcomes' hmem)

theorem restoresEach_of_restored (hapart : files.Pairwise trees.Apart)
    (h : ∀ file ∈ files, (restoreFiles via files trees result).1.Restored file) :
    RestoresEach via files trees := by
  intro file left now hcomes
  refine ⟨?_, fun other left' now' hcomes' hmem => ?_⟩
  · obtain ⟨c, hturn, hc⟩ := hcomes.clean hrun hclean
    have hrestored := h file (hcomes.paths.1.subset mem_cons_self)
    rw [Restored, hcomes.sides_restoreFiles hapart] at hrestored
    exact (restored_afterTurn_self hcopies hturn hc).mp hrestored
  · obtain ⟨hne, hne'⟩ := hcomes.apart hapart hcomes' hmem
    exact ⟨fun h => absurd h.symm hne, fun h => absurd h.symm hne'⟩

end Run

/-- **A rollback that reports no failure has restored the snapshot if each turn finds the
recorded size on the remote, or uploads, and the later turns leave its file**; where no two
paths lead to one file, only then. -/
theorem rollback_clean_iff (backend : Backend) {transfers : Transfers} (hcopies : transfers.Copies)
    (snapshot : SyncSnapshot) (localPath remotePath : Path) (versioningStrategy : Option String)
    (trees final : Trees L R) (result : RestoreSnapshotResult)
    (hrun : restoreSyncSnapshotCmd backend transfers snapshot localPath remotePath
      versioningStrategy trees = (final, .ok result)) (hclean : result.failed = []) :
    let via : Restorer := ⟨backend, transfers, parseVersioningStrategy versioningStrategy⟩
    (RestoresEach via snapshot.files trees → ∀ file ∈ snapshot.files, final.Restored file) ∧
    (snapshot.files.Pairwise trees.Apart →
      ((∀ file ∈ snapshot.files, final.Restored file) ↔
        RestoresEach via snapshot.files trees)) := by
  intro via
  unfold restoreSyncSnapshotCmd at hrun
  split_ifs at hrun
  · have hok : (restoreFiles via snapshot.files trees {}).2 = .ok result := congrArg Prod.snd hrun
    obtain rfl : (restoreFiles via snapshot.files trees {}).1 = final := congrArg Prod.fst hrun
    have henough (heach : RestoresEach via snapshot.files trees) file (hfile : file ∈ _) :=
      restored_of_restoresEach hcopies hok hclean heach hfile
    exact ⟨henough, fun hapart => ⟨restoresEach_of_restored hcopies hok hclean hapart, henough⟩⟩
  · cases hrun

/-- Transfers that always succeed where there is something to copy. -/
def sound : Transfers where
  upload := fun _ content _ => (.ok (), some content)
  download := fun _ remote file =>
    remote.elim (.error "not found", file) fun content => (.ok (), .file content (.ok 0))
  archive := fun _ => .ok ()

theorem sound_copies : sound.Copies where
  upload := fun _ _ _ _ => rfl
  download := by
    rintro path (_ | remote) file h
    · cases h
    · exact ⟨remote, .ok 0, rfl, rfl⟩

/-- A snapshot of one file, of three bytes. -/
def threeBytes : SyncSnapshot := ⟨[], [], [(['a'], ⟨3, none⟩)]⟩

/-- Two trees with one file at every place. -/
def everywhere (file : LocalFile) (remote : Option (List UInt8)) : Trees Path Path :=
  ⟨id, id, fun _ => file, fun _ => remote⟩

/-- The remote still has the recorded version. -/
theorem rollback_clean_iff_missing :
    (restoreSyncSnapshotCmd .ftp sound threeBytes [] [] none
      (everywhere .missing (some [1, 2, 3]))).1.Restored (['a'], ⟨3, none⟩) := by
  refine (rollback_clean_iff .ftp sound_copies threeBytes [] [] none
    (everywhere .missing (some [1, 2, 3])) _ { restoredFromRemote := 1 } rfl rfl).1 ?_ _
    (mem_singleton.mpr rfl)
  intro file left now hcomes
  obtain ⟨rfl, rfl, rfl⟩ := hcomes.of_singleton
  exact ⟨fun _ => ⟨[1, 2, 3], rfl, rfl⟩, fun _ _ _ _ h => nomatch h⟩

/-- Neither side has three bytes; the file is counted as restored. -/
theorem rollback_counts_other :
    let done := restoreSyncSnapshotCmd .ftp sound threeBytes [] [] none
      (everywhere .missing (some [1]))
    done.2 = .ok { restoredFromRemote := 1 } ∧
      done.1.sides (['a'], ⟨3, none⟩) = (.file [1] (.ok 0), some [1]) :=
  ⟨rfl, rfl⟩

/-! ### A local file that matches -/

/-- Each turn on a local file that matched when its own turn came, this one included, spares
it. -/
def SparesEach (via : Restorer) (files : List SnapshotFile) (trees : Trees L R) : Prop :=
  ∀ file left now, Comes via files trees (file :: left) now →
    localFileMatchesSnapshot (now.sides file).1 file.2 = .ok true →
    ∀ other left' now', Comes via (file :: left) now (other :: left') now' →
      now'.localFile file.1 = now'.localFile other.1 →
      via.Spares (now'.visit other)

/-- Each local file that matches when its turn comes has the same content in `final`. -/
def KeepsEach (via : Restorer) (files : List SnapshotFile) (trees final : Trees L R) : Prop :=
  ∀ file left now, Comes via files trees (file :: left) now →
    localFileMatchesSnapshot (now.sides file).1 file.2 = .ok true →
    ∃ modified, (final.sides file).1 = .file (now.sides file).1.content modified

theorem kept_afterTurn {content : List UInt8}
    (h : ∃ date, (trees.sides file).1 = .file content date)
    (hspares : trees.localFile file.1 = trees.localFile other.1 → via.Spares (trees.visit other)) :
    ∃ date, ((trees.afterTurn via other).sides file).1 = .file content date := by
  rw [local_afterTurn]
  split_ifs with hsame
  · obtain ⟨date, hdate⟩ := h
    have hother : (trees.visit other).file = .file content date :=
      (congrArg trees.locals hsame).symm.trans hdate
    have hkept := hspares hsame
    rw [← Restorer.turnOf_kept_iff (by rw [hother]; rfl), hother] at hkept
    exact hkept
  · exact h

variable (result : RestoreSnapshotResult)

theorem keepsEach_of_sparesEach (heach : SparesEach via files trees) :
    KeepsEach via files trees (restoreFiles via files trees result).1 := by
  intro file left now hcomes hmatches
  have hspares := heach file left now hcomes hmatches
  obtain ⟨before, hbefore⟩ := hcomes.restoreFiles_eq result
  obtain ⟨date, hdate, -⟩ := eq_file_of_matches hmatches
  rw [hbefore]
  refine restoreFiles_of_turns
    (Q := fun t => ∃ date, (t.sides file).1 = .file (now.sides file).1.content date)
    (kept_afterTurn ⟨date, hdate⟩ fun _ => hspares file left now .here rfl) ?_ before
  exact fun other left' now' hcomes' _ hkept =>
    kept_afterTurn hkept (hspares other left' now' hcomes')

theorem sparesEach_of_keepsEach (hapart : files.Pairwise trees.Apart)
    (h : KeepsEach via files trees (restoreFiles via files trees result).1) :
    SparesEach via files trees := by
  intro file left now hcomes hmatches other left' now' hcomes' hsame
  obtain ⟨date, hdate, -⟩ := eq_file_of_matches hmatches
  have hkept := h file left now hcomes hmatches
  rw [hcomes.sides_restoreFiles hapart, local_afterTurn, if_pos rfl] at hkept
  cases hcomes' with
  | here => exact (Restorer.turnOf_kept_iff hdate).mp hkept
  | next hturn hrest =>
    have hmem : other ∈ left := hrest.paths.1.subset mem_cons_self
    exact absurd hsame.symm (hcomes.apart hapart (.next hturn hrest) hmem).1

variable {result}

/-- The turns the command comes to: none, where the snapshot is of another pair. -/
def cmdTurns (snapshot : SyncSnapshot) (localPath remotePath : Path) : List SnapshotFile :=
  if snapshotMatchesPair snapshot localPath remotePath then snapshot.files else []

/-- **A local file that matches when its turn comes is left with its content if each turn on it
spares it**; where no two paths lead to one file, only then. -/
theorem rollback_spares_iff (backend : Backend) (transfers : Transfers) (snapshot : SyncSnapshot)
    (localPath remotePath : Path) (versioningStrategy : Option String) (trees : Trees L R) :
    let via : Restorer := ⟨backend, transfers, parseVersioningStrategy versioningStrategy⟩
    let files := cmdTurns snapshot localPath remotePath
    let final := (restoreSyncSnapshotCmd backend transfers snapshot localPath remotePath
      versioningStrategy trees).1
    (SparesEach via files trees → KeepsEach via files trees final) ∧
    (snapshot.files.Pairwise trees.Apart →
      (KeepsEach via files trees final ↔ SparesEach via files trees)) := by
  intro via files final
  have hfinal : final = (restoreFiles via files trees {}).1 := by
    simp only [final, files, restoreSyncSnapshotCmd, cmdTurns]
    split_ifs
    · rfl
    · rfl
  have hsublist : files.Sublist snapshot.files := by
    simp only [files, cmdTurns]
    split_ifs
    · exact .refl _
    · exact nil_sublist _
  rw [hfinal]
  refine ⟨keepsEach_of_sparesEach {}, fun hapart => ⟨?_, keepsEach_of_sparesEach {}⟩⟩
  exact sparesEach_of_keepsEach {} (hapart.sublist hsublist)

/-- The upload succeeds. -/
theorem rollback_spares_iff_uploaded :
    ∃ modified, ((restoreSyncSnapshotCmd .ftp sound threeBytes [] [] none
      (everywhere (.file [1, 2, 3] (.ok 0)) none)).1.sides (['a'], ⟨3, none⟩)).1
        = .file [1, 2, 3] modified := by
  refine (rollback_spares_iff .ftp sound threeBytes [] [] none
    (everywhere (.file [1, 2, 3] (.ok 0)) none)).1 ?_ _ [] _ .here rfl
  intro file left now hcomes _ other left' now' hcomes' _ hdown
  obtain ⟨rfl, rfl, rfl⟩ := hcomes.of_singleton
  obtain ⟨rfl, rfl, rfl⟩ := hcomes'.of_singleton
  exact absurd ⟨rfl, rfl⟩ hdown.notUploaded

/-- Uploads fail. -/
def downOnly : Transfers := { sound with upload := fun _ _ remote => (.error "timed out", remote) }

/-- The upload of a file that matches fails, and the remote's other content replaces it. -/
theorem rollback_destroys :
    localFileMatchesSnapshot (.file [1, 2, 3] (.ok 0)) ⟨3, none⟩ = .ok true ∧
    ((restoreSyncSnapshotCmd .ftp downOnly threeBytes [] [] (some "disabled")
      (everywhere (.file [1, 2, 3] (.ok 0)) (some [9]))).1.sides (['a'], ⟨3, none⟩)).1
        = .file [9] (.ok 0) :=
  ⟨rfl, rfl⟩

end Trees

end AeroFtp.Sync
