/-
A replica removes only what it has written.

Deletions go by the map of applied hashes.  A key enters it when its file has been written, or
when it is none under the replica folder, which is never removed; it is kept with no hash where
a later version could not be applied.  So whatever the map holds was written in the same run.
-/
import AeroFtp.Lib.Folds
import AeroFtp.Lib.History
import AeroFtp.Lib.Runs
import AeroFtp.Proofs.PeerL0.ReplicaFiles
import AeroFtp.Proofs.Sync.Paths

namespace AeroFtp.PeerL0

open AssocList Sync Texts FileTree Folds Runs History List Replica

variable {prims : Primitives} {driveKey : DriveKey}
variable {key : Key} {target : Path} {log : List ReplicaAction}

/-! ### Keys -/

/-- A key in canonical spelling: plain components joined by single slashes. -/
def Canonical (key : Key) : Prop :=
  ∀ part ∈ splitSlash key, part ≠ [] ∧ part ≠ ['.'] ∧ part ≠ ['.', '.']

instance (key : Key) : Decidable (Canonical key) := List.decidableBAll _ _

theorem safeReplicaPath_eq (h : safeReplicaPath key = some target) : target = key := by
  unfold safeReplicaPath at h
  split at h
  · cases h
  · split at h
    · exact (Option.some.inj h).symm
    · cases h

theorem filterMap_innerComponent {parts : List Path}
    (h : ∀ part ∈ parts, part ≠ [] ∧ part ≠ ['.'] ∧ part ≠ ['.', '.']) :
    parts.filterMap innerComponent = parts.map Component.normal := by
  rw [← filterMap_eq_map]
  apply filterMap_congr
  intro part hp
  obtain ⟨hnil, hdot, hdots⟩ := h part hp
  simp [innerComponent, hnil, hdot, hdots]

theorem Canonical.components_eq (h : Canonical key) :
    components key = (splitSlash key).map Component.normal := by
  obtain ⟨first, rest, tail, hsplit, hkey, -⟩ := path_eq_first key
  have hf := h first (by rw [hsplit]; exact mem_cons_self ..)
  have hh : key.head? ≠ some '/' := by
    intro hc
    have hslash : '/' ∉ first := slash_notMem_splitSlash key first
      (by rw [hsplit]; exact mem_cons_self ..)
    cases first with
    | nil => exact hf.1 rfl
    | cons c first =>
      rw [hkey, cons_append, head?_cons, Option.some.injEq] at hc
      exact hslash (by rw [hc]; exact mem_cons_self ..)
  have hdot : (splitSlash key).head? ≠ some ['.'] := by
    rw [hsplit]
    intro hc
    exact hf.2.1 (Option.some.inj hc)
  rw [components, if_neg hh, if_neg hdot, filterMap_innerComponent h]

theorem Canonical.ne_nil (h : Canonical key) : key ≠ [] := by
  intro hkey
  subst hkey
  exact (h [] (by decide)).1 rfl

theorem Canonical.safe (h : Canonical key) : safeReplicaPath key = some key := by
  rw [safeReplicaPath, if_neg h.ne_nil, if_pos]
  rw [h.components_eq, all_map, all_eq_true]
  intro part _
  rfl

theorem Canonical.place_eq (h : Canonical key) : place key = splitSlash key := by
  rw [place, h.components_eq, filterMap_map]
  exact filterMap_some

theorem Canonical.place_inj {key' : Key} (h : Canonical key) (h' : Canonical key')
    (heq : place key = place key') : key = key' := by
  rw [h.place_eq, h'.place_eq] at heq
  exact splitSlash_injective heq

/-- The manifests of a publisher: distinct keys in canonical spelling. -/
structure Named (files : List ListedFile) : Prop where
  nodup : (files.map (·.1.key)).Nodup
  canonical : ∀ listed ∈ files, Canonical listed.1.key

/-! ### One turn of each loop -/

theorem verifiedPlaintext_some {file : ManifestFile} {blob : Option Bytes} {pt : Bytes}
    (h : verifiedPlaintext prims driveKey file blob = some pt) :
    prims.blake3 pt = file.plaintextBlake3 := by
  unfold verifiedPlaintext at h
  split at h
  · cases h
  split at h
  · cases h
  split at h
  · cases h
  · split at h
    · rename_i hc
      cases h
      exact hc.1
    · cases h

/-- All that a turn over the files of a version can be. -/
inductive ApplyMove (prims : Primitives) (prevFiles : DriveState) (s : Applying)
    (file : ManifestFile) : Applying → Prop where
  | reject (h : safeReplicaPath file.key = none) :
      ApplyMove prims prevFiles s file { s with applied := file.key :: s.applied }
  | keep (h : prevFiles.lookup file.key = some file.plaintextBlake3) :
      ApplyMove prims prevFiles s file { s with applied := file.key :: s.applied }
  | fail (disk : Disk) (hdisk : disk.fileAt = s.disk.fileAt)
      (hext : Tree.Extends (place file.key) s.disk disk) :
      ApplyMove prims prevFiles s file { s with disk := disk }
  | write (target : Path) (disk : Disk) (pt : Bytes) (h : safeReplicaPath file.key = some target)
      (hdisk : disk.fileAt = fun other => if other = place target then some pt else
        s.disk.fileAt other)
      (hpt : prims.blake3 pt = file.plaintextBlake3)
        (hext : Tree.Extends (place file.key) s.disk disk) :
      ApplyMove prims prevFiles s file
        { disk := disk, applied := file.key :: s.applied,
          log := s.log ++ [.wrote file.key target pt] }

theorem applyFile_move (prims : Primitives) (driveKey : DriveKey) (prevFiles : DriveState)
    (s : Applying) (listed : ListedFile) :
    ApplyMove prims prevFiles s listed.1 (applyFile prims driveKey prevFiles s listed) := by
  unfold applyFile
  dsimp only
  split
  · rename_i hs
    exact .reject hs
  · rename_i target hs
    split
    · rename_i hn
      refine .keep ?_
      simp only [needsWrite, Bool.not_not, Bool.and_eq_true, beq_iff_eq] at hn
      exact hn.2
    · split
      · exact .fail s.disk rfl (.refl _ _)
      · rename_i pt hpt
        split
        · rename_i disk e hw
          exact .fail disk (fileAt_writeReplicaFile_error hw)
            (safeReplicaPath_eq hs ▸ extends_writeReplicaFile hw)
        · rename_i disk hw
          exact .write target disk pt hs (fileAt_writeReplicaFile hw) (verifiedPlaintext_some hpt)
            (safeReplicaPath_eq hs ▸ extends_writeReplicaFile hw)

variable {prevFiles : DriveState}

theorem applyFile_of_write {s : Applying} {listed : ListedFile} {pt : Bytes}
    {disk : Disk} (hs : safeReplicaPath listed.1.key = some target)
    (hpt : verifiedPlaintext prims driveKey listed.1 listed.2.blob = some pt)
    (hw : writeReplicaFile s.disk target pt listed.2.fault = (disk, .ok ())) :
    (applyFile prims driveKey prevFiles s listed).applied = listed.1.key :: s.applied := by
  simp only [applyFile, hs, hpt, hw]
  split <;> rfl

/-- The first pass goes as the loop over a version does with nothing applied before, except that
it leaves out what is not under the replica folder. -/
structure FirstPass.Mirrors (done : List ListedFile) (s : FirstPass) (m : Applying) : Prop where
  disk : m.disk = s.disk
  log : m.log = s.log
  applied : ∀ key ∈ s.prevFiles, key ∈ m.applied
  safe : ∀ key ∈ m.applied, key ∈ s.prevFiles ∨ safeReplicaPath key = none
  listed : ∀ key hash, s.prevFiles.lookup key = some hash →
    ∃ listed ∈ done, listed.1.key = key ∧ listed.1.plaintextBlake3 = hash
  keys : s.firstPassKeys = (done.map (·.1.key)).filter fun key => (safeReplicaPath key).isSome

theorem firstPassFile_mirrors {done : List ListedFile} {s : FirstPass} {m : Applying}
    (listed : ListedFile) (h : s.Mirrors done m) :
    (firstPassFile prims driveKey s listed).Mirrors (done ++ [listed])
      (applyFile prims driveKey ∅ m listed) := by
  obtain ⟨file, answer⟩ := listed
  have hlist (key hash) (hlook : s.prevFiles.lookup key = some hash) :
      ∃ listed ∈ done ++ [(file, answer)], listed.1.key = key ∧
        listed.1.plaintextBlake3 = hash := by
    obtain ⟨listed, hmem, hkey⟩ := h.listed key hash hlook
    exact ⟨listed, mem_append_left _ hmem, hkey⟩
  have hn (onDisk : Bool) : needsWrite ∅ file.key file.plaintextBlake3 onDisk = true := by
    simp [needsWrite]
  cases hs : safeReplicaPath file.key with
  | none =>
    simp only [firstPassFile, applyFile, hs]
    refine ⟨h.disk, h.log, fun key hkey => mem_cons_of_mem _ (h.applied key hkey), ?_, hlist, ?_⟩
    · exact forall_mem_cons.mpr ⟨.inr hs, h.safe⟩
    · simp [h.keys, hs]
  | some target =>
    have hkeys : s.firstPassKeys ++ [file.key]
        = ((done ++ [(file, answer)]).map (·.1.key)).filter fun key =>
          (safeReplicaPath key).isSome := by
      simp [h.keys, hs]
    simp only [firstPassFile, applyFile, hs, hn, h.disk, Bool.not_true,
      Bool.false_eq_true, if_false]
    split
    · exact ⟨h.disk, h.log, h.applied, h.safe, hlist, hkeys⟩
    split
    · exact ⟨rfl, h.log, h.applied, h.safe, hlist, hkeys⟩
    · refine ⟨rfl, by rw [h.log], ?_, ?_, ?_, hkeys⟩
      · intro key hkey
        exact mem_cons.mpr (((AList.mem_insert _).mp hkey).imp id (h.applied key))
      · refine forall_mem_cons.mpr ⟨.inl ((AList.mem_insert _).mpr (.inl rfl)), fun key hkey => ?_⟩
        exact (h.safe key hkey).imp (fun hkey => (AList.mem_insert _).mpr (.inr hkey)) id
      · intro key hash hlook
        by_cases hkey : key = file.key
        · subst hkey
          rw [AList.lookup_insert] at hlook
          exact ⟨(file, answer), by simp, rfl, Option.some.inj hlook⟩
        · rw [AList.lookup_insert_ne hkey] at hlook
          exact hlist key hash hlook

/-- A replica that has not met a manifest. -/
def Replica.blank (disk : Disk) : Replica := ⟨disk, ∅, [], 0, false, false, [], []⟩

theorem firstPass_mirrors (prims : Primitives) (driveKey : DriveKey) (disk : Disk)
    (files : List ListedFile) :
    (files.foldl (firstPassFile prims driveKey) ⟨disk, ∅, [], []⟩).Mirrors files
      ((blank disk).applying prims driveKey files) := by
  refine foldl_invariant (P := fun done s => FirstPass.Mirrors done s
    ((blank disk).applying prims driveKey done)) ?_ ⟨rfl, rfl, by simp, nofun, by simp, rfl⟩
  intro done listed s _ hs
  rw [applying, foldl_append]
  exact firstPassFile_mirrors listed hs

theorem removeKey_of_remove {fault : Key → Bool} {s : Removing} {disk : Disk}
    (hs : safeReplicaPath key = some target)
    (hr : removeReplicaFile s.disk target (fault key) = (disk, .ok ())) :
    (removeKey fault s key).undeleted = s.undeleted := by
  simp only [removeKey, hs, hr]

/-- All that a deletion can be. -/
inductive RemoveMove (s : Removing) (key : Key) : Removing → Prop where
  | skip (h : safeReplicaPath key = none) : RemoveMove s key s
  | refuse (target : Path) (h : safeReplicaPath key = some target) :
      RemoveMove s key
        { s with undeleted := s.undeleted ++ [key], log := s.log ++ [.removing target] }
  | remove (target : Path) (disk : Disk) (h : safeReplicaPath key = some target)
      (hdisk : disk.fileAt = fun other => if other = place target then none else
        s.disk.fileAt other)
      (hext : Tree.Extends (place key) s.disk disk) :
      RemoveMove s key { s with disk := disk, log := s.log ++ [.removing target] }

theorem removeKey_move (fault : Key → Bool) (s : Removing) (key : Key) :
    RemoveMove s key (removeKey fault s key) := by
  unfold removeKey
  split
  · rename_i hs
    exact .skip hs
  · rename_i target hs
    split
    · rename_i disk hr
      exact .remove target disk hs (fileAt_removeReplicaFile hr)
        (safeReplicaPath_eq hs ▸ extends_removeReplicaFile hr)
    · rename_i disk e hr
      rw [removeReplicaFile_error hr]
      exact .refuse target hs

/-! ### What is removed was written -/

/-- The key is none under the replica folder, or this run has written its file. -/
def Owned (log : List ReplicaAction) (key : Key) : Prop :=
  safeReplicaPath key = none ∨ ∃ target data, safeReplicaPath key = some target ∧
    .wrote key target data ∈ log

theorem Owned.append (h : Owned log key) (more : List ReplicaAction) : Owned (log ++ more) key := by
  rcases h with h | ⟨target, data, hs, hmem⟩
  · exact .inl h
  · exact .inr ⟨target, data, hs, mem_append_left _ hmem⟩

theorem Owned.wrote {data : Bytes}
    (h : safeReplicaPath key = some target) : Owned (log ++ [.wrote key target data]) key :=
  .inr ⟨target, data, h, by simp⟩

/-- Every path handed to `remove_replica_file` is that of a key written before at that path. -/
def Rightful (log : List ReplicaAction) : Prop :=
  Each (fun before action => ∀ target, action = .removing target →
    ∃ key data, safeReplicaPath key = some target ∧ .wrote key target data ∈ before) log

theorem Rightful.snoc {action : ReplicaAction} (h : Rightful log)
    (ha : ∀ target, action ≠ .removing target) : Rightful (log ++ [action]) :=
  each_snoc.mpr ⟨h, fun target ht => absurd ht (ha target)⟩

theorem Rightful.removing (h : Rightful log) (ho : Owned log key)
    (hs : safeReplicaPath key = some target) : Rightful (log ++ [.removing target]) := by
  refine each_snoc.mpr ⟨h, ?_⟩
  intro target' htarget'
  cases htarget'
  rcases ho with hn | ⟨target', data, hs', hmem⟩
  · rw [hs] at hn
    cases hn
  · rw [hs] at hs'
    cases hs'
    exact ⟨key, data, hs, hmem⟩

/-- The loop over the files removes nothing, and what it applies is owned. -/
structure Applying.Rightly (prevFiles : DriveState) (s : Applying) : Prop where
  log : Rightful s.log
  prev : ∀ key ∈ prevFiles, Owned s.log key
  applied : ∀ key ∈ s.applied, Owned s.log key

theorem Applying.Rightly.applyFiles {files : List ListedFile} {s : Applying}
    (h : s.Rightly prevFiles) :
    (files.foldl (applyFile prims driveKey prevFiles) s).Rightly prevFiles := by
  refine foldl_preserves (P := Applying.Rightly prevFiles) ?_ h
  intro listed _ s hs
  have hmove := applyFile_move prims driveKey prevFiles s listed
  generalize applyFile prims driveKey prevFiles s listed = s' at hmove
  cases hmove with
  | reject hsafe => exact ⟨hs.log, hs.prev, forall_mem_cons.mpr ⟨.inl hsafe, hs.applied⟩⟩
  | keep hl =>
    have hmem : listed.1.key ∈ prevFiles := AList.lookup_isSome.mp (by rw [hl]; rfl)
    exact ⟨hs.log, hs.prev, forall_mem_cons.mpr ⟨hs.prev _ hmem, hs.applied⟩⟩
  | fail disk hd hext => exact ⟨hs.log, hs.prev, hs.applied⟩
  | write target disk pt hsafe hd hpt hext =>
    refine ⟨hs.log.snoc (fun _ hc => by cases hc), fun key hkey => (hs.prev key hkey).append _, ?_⟩
    exact forall_mem_cons.mpr ⟨.wrote hsafe, fun key hkey => (hs.applied key hkey).append _⟩

theorem rightful_removeKeys (fault : Key → Bool) {s : Removing} {gone : List Key}
    (hlog : Rightful s.log) (ho : ∀ key ∈ gone, Owned s.log key) :
    Rightful (gone.foldl (removeKey fault) s).log ∧
      s.log <+: (gone.foldl (removeKey fault) s).log := by
  refine foldl_preserves (P := fun m : Removing => Rightful m.log ∧ s.log <+: m.log) ?_
    ⟨hlog, prefix_refl _⟩
  intro key hkey m hm
  obtain ⟨hlog, hf⟩ := hm
  have hkey : Owned m.log key := by
    obtain ⟨more, hmore⟩ := hf
    rw [← hmore]
    exact (ho key hkey).append more
  have hmove := removeKey_move fault m key
  generalize removeKey fault m key = m' at hmove
  cases hmove with
  | skip hs => exact ⟨hlog, hf⟩
  | refuse target hs => exact ⟨hlog.removing hkey hs, hf.trans (prefix_append _ _)⟩
  | remove target disk hs hd hext =>
    exact ⟨hlog.removing hkey hs, hf.trans (prefix_append _ _)⟩

theorem mem_settleVersion {state prev : DriveState} {applied : List Key} (pending : List Key) :
    key ∈ (settleVersion state prev applied pending).1 ↔
      key ∈ state ∧ (key ∈ applied ∨ key ∈ prev) := by
  rw [settleVersion, AssocList.mem_mapValues, AssocList.mem_retain]
  simp [AList.mem_keys]

/-- The log is rightful and the map holds only owned keys. -/
structure Replica.Rightly (s : Replica) : Prop where
  log : Rightful s.log
  owned : ∀ key ∈ s.prevFiles, Owned s.log key

variable {s : Replica}

theorem Replica.Rightly.announced (h : s.Rightly) (status : ReplicaStatus) (announced : Bool) :
    Replica.Rightly { s with liveAnnounced := announced, log := s.log ++ [.announced status] } where
  log := h.log.snoc (fun _ hc => by cases hc)
  owned key hkey := (h.owned key hkey).append _

theorem Replica.Rightly.applyVersion (h : s.Rightly) (wake : Wake) (newVer : Nat)
    (files : List ListedFile) : (s.applyVersion prims driveKey wake newVer files).Rightly := by
  have happ : (s.applying prims driveKey files).Rightly s.prevFiles :=
    .applyFiles ⟨h.log, h.owned, by simp⟩
  have hg : ∀ key ∈ s.gone wake files, Owned (s.applying prims driveKey files).log key :=
    fun key hkey =>
    happ.prev key (AList.mem_keys.mpr (wake.order.mem_iter.mp (mem_of_mem_filter hkey)))
  obtain ⟨hlog, more, hm⟩ := rightful_removeKeys wake.removeFault
    (s := ⟨(s.applying prims driveKey files).disk, [], (s.applying prims driveKey files).log⟩)
      happ.log hg
  refine ⟨hlog, ?_⟩
  intro key hkey
  have ho : Owned (s.applying prims driveKey files).log key := by
    rcases ((mem_settleVersion s.pending).mp hkey).2 with hkey | hkey
    · exact happ.applied key hkey
    · exact happ.prev key hkey
  have := ho.append more
  rw [hm] at this
  exact this

/-! ### Turns of the watch loop -/

theorem turn_preserves {P : Replica → Prop} {s' : Replica} {event : Option Wake}
    (hann : ∀ s status announced, P s →
      P { s with liveAnnounced := announced, log := s.log ++ [.announced status] })
    (happly : ∀ wake, event = some wake → ∀ version files, wake.manifest = some (version, files) →
      ∀ s newVer, P s → P (s.applyVersion prims driveKey wake newVer files))
    (h : s.turn prims driveKey event = some s') (hs : P s) : P s' := by
  have htop : P s.top := by
    unfold top
    split
    · exact hs
    · exact hann s _ _ hs
  cases event with
  | none =>
    cases h
    exact htop
  | some wake =>
    rw [turn] at h
    split at h
    · cases h
    · cases h
      unfold Replica.pass
      dsimp only
      split
      · exact hann _ _ _ htop
      · rename_i version files hm
        split
        · exact happly wake rfl version files hm _ _ (hann _ _ _ htop)
        · exact hann _ _ _ htop

theorem start_rightly (disk : Disk) (version : Option Nat) (files : List ListedFile) :
    (start prims driveKey disk version files).Rightly := by
  have hm := firstPass_mirrors prims driveKey disk files
  have happ : ((blank disk).applying prims driveKey files).Rightly ∅ :=
    .applyFiles ⟨each_nil, by simp, nofun⟩
  have hlog : _ = (start prims driveKey disk version files).log := hm.log
  constructor
  · rw [← hlog]
    exact happ.log
  · rw [← hlog]
    exact fun key hkey => happ.applied key (hm.applied key hkey)

theorem run_rightly {s' : Replica} {events : List (Option Wake)}
    (hrun : run (turn prims driveKey) s events = some s') (h : s.Rightly) : s'.Rightly :=
  run_invariant (fun _ _ _ hstep hs =>
    turn_preserves (fun _ status announced h => h.announced status announced)
    (fun wake _ _ files _ _ newVer h => h.applyVersion wake newVer files) hstep hs) hrun h

end AeroFtp.PeerL0
