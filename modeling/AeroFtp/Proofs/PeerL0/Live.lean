/-
A replica is live only when it is.

What the replica knows of a key is spread over the map of applied hashes, the pending keys and
the keys applied in a pass.  The invariant says what each of them stands for on disk: a key with
a hash is a file this run has written with that hash, a written key is in the map or its file is
gone, and a key of the manifest is in the map or pending.  Live is announced when nothing is
pending and no key is without a hash.
-/
import AeroFtp.Proofs.PeerL0.Publish
import AeroFtp.Proofs.PeerL0.Replicate

namespace AeroFtp.PeerL0

open AssocList Sync Texts FileTree Folds Runs History List Replica

variable {prims : Primitives} {driveKey : DriveKey}
variable {log : List ReplicaAction} {key : Key} {files : List ListedFile} {listed : ListedFile}
  {s : Replica}

/-- This run has written the file of the key with this hash, and it is as it was written. -/
def Good (prims : Primitives) (disk : Disk) (log : List ReplicaAction) (key : Key) (hash : Digest) :
    Prop :=
  ∃ data, .wrote key key data ∈ log ∧ prims.blake3 data = hash ∧ disk.fileAt (place key) = some data

variable {disk disk' : Disk} {hash : Digest}

theorem Good.frame {log' : List ReplicaAction} (h : Good prims disk log key hash)
    (hd : disk'.fileAt (place key) = disk.fileAt (place key))
    (hlog : ∀ data, .wrote key key data ∈ log → .wrote key key data ∈ log') :
    Good prims disk' log' key hash := by
  obtain ⟨data, hmem, hh, hf⟩ := h
  exact ⟨data, hlog data hmem, hh, hd.trans hf⟩

theorem Good.write {other : Key} {data : Bytes} (h : Good prims disk log key hash)
    (hkey : Canonical key) (ho : Canonical other) (hne : key ≠ other)
    (hd : disk'.fileAt = fun p => if p = place other then some data else disk.fileAt p)
    (action : ReplicaAction) : Good prims disk' (log ++ [action]) key hash := by
  refine h.frame ?_ (fun _ => mem_append_left _)
  rw [hd]
  exact if_neg fun hc => hne (hkey.place_inj ho hc)

/-- Every file written is that of a canonical key, and it is accounted for by `P` or gone. -/
def Known (P : Key → Prop) (disk : Disk) (log : List ReplicaAction) : Prop :=
  ∀ key target data, .wrote key target data ∈ log →
    Canonical key ∧ target = key ∧ (P key ∨ disk.fileAt (place key) = none)

theorem Known.frame {P Q : Key → Prop} (h : Known P disk log)
    (hPQ : ∀ key, P key → Q key) (hd : ∀ p, disk.fileAt p = none → disk'.fileAt p = none) :
    Known Q disk' log := by
  intro key target data hmem
  obtain ⟨hc, ht, hkey⟩ := h key target data hmem
  refine ⟨hc, ht, ?_⟩
  rcases hkey with hkey | hkey
  · exact .inl (hPQ key hkey)
  · exact .inr (hd _ hkey)

theorem Known.write {P Q : Key → Prop} {data : Bytes}
    (h : Known P disk log) (hPQ : ∀ key, P key → Q key) (hkey : Canonical key) (hQ : Q key)
    (hd : disk'.fileAt = fun p => if p = place key then some data else disk.fileAt p) :
    Known Q disk' (log ++ [.wrote key key data]) := by
  intro other target data' hmem
  rcases mem_append.mp hmem with hmem | hmem
  · obtain ⟨hcanonical, ht, ho⟩ := h other target data' hmem
    refine ⟨hcanonical, ht, ?_⟩
    rcases ho with ho | ho
    · exact .inl (hPQ other ho)
    · by_cases heq : other = key
      · exact .inl (heq ▸ hQ)
      · refine .inr ?_
        rw [hd]
        exact (if_neg fun hc => heq (hcanonical.place_inj hkey hc)).trans ho
  · cases mem_singleton.mp hmem
    exact ⟨hkey, rfl, .inl hQ⟩

variable {done : List ListedFile}

theorem next_key (h : Named files) (hd : done ++ [listed] <+: files) :
    listed ∈ files ∧ listed.1.key ∉ done.map (·.1.key) := by
  refine ⟨hd.subset (by simp), notMem_of_next h.nodup ?_⟩
  simpa using hd.map (·.1.key)

/-! ### The files of a version -/

/-- The loop over the files of a version: what it has met and applied is good, what it has not
met is as the map says. -/
structure Applying.Sound (prims : Primitives) (prevFiles : DriveState) (done : List ListedFile)
    (s : Applying) : Prop where
  kept : ∀ key hash, prevFiles.lookup key = some hash → hash ≠ [] → key ∉ done.map (·.1.key) →
    Good prims s.disk s.log key hash
  good : ∀ listed ∈ done, listed.1.key ∈ s.applied → listed.1.plaintextBlake3 ≠ [] →
    Good prims s.disk s.log listed.1.key listed.1.plaintextBlake3
  fromDone : ∀ key ∈ s.applied, key ∈ done.map (·.1.key)
  known : Known (fun key => key ∈ prevFiles ∨ key ∈ s.applied) s.disk s.log

theorem applyFile_sound {prevFiles : DriveState} (hnamed : Named files)
    (hprev : ∀ key ∈ prevFiles, Canonical key) {s s' : Applying}
    (hdone : done ++ [listed] <+: files) (hmove : ApplyMove prims prevFiles s listed.1 s')
    (hs : s.Sound prims prevFiles done) : s'.Sound prims prevFiles (done ++ [listed]) := by
  obtain ⟨hmem, hnew⟩ := next_key hnamed hdone
  have hcanonical := hnamed.canonical listed hmem
  have hsplit : ∀ key, key ∉ (done ++ [listed]).map (·.1.key) → key ∉ done.map (·.1.key) ∧
      key ≠ listed.1.key := by
    intro key hkey
    simpa using hkey
  have hold : ∀ file ∈ done, file.1.key ≠ listed.1.key := by
    intro file hfile hc
    exact hnew (hc ▸ mem_map_of_mem (f := fun l : ListedFile => l.1.key) hfile)
  have hfrom : ∀ key ∈ s.applied, key ∈ (done ++ [listed]).map (·.1.key) := by
    intro key hkey
    rw [map_append]
    exact mem_append_left _ (hs.fromDone key hkey)
  -- nothing on disk changes, and the key counts as applied
  have hcount : ∀ s'' : Applying, s'' = { s with applied := listed.1.key :: s.applied } →
      (listed.1.plaintextBlake3 ≠ [] →
        Good prims s.disk s.log listed.1.key listed.1.plaintextBlake3) →
      s''.Sound prims prevFiles (done ++ [listed]) := by
    intro s'' hs'' hg
    subst hs''
    refine ⟨fun key hash hl hne hkey => hs.kept key hash hl hne (hsplit key hkey).1, ?_, ?_, ?_⟩
    · intro file hfile happ hne
      rcases mem_append.mp hfile with hfile | hfile
      · have : file.1.key ∈ s.applied := (mem_cons.mp happ).resolve_left (hold file hfile)
        exact hs.good file hfile this hne
      · obtain rfl := mem_singleton.mp hfile
        exact hg hne
    · exact forall_mem_cons.mpr ⟨by simp, hfrom⟩
    · exact hs.known.frame (fun key h => h.imp_right (mem_cons_of_mem _)) (fun _ h => h)
  cases hmove with
  | reject hsafe =>
    rw [hcanonical.safe] at hsafe
    cases hsafe
  | keep hl => exact hcount _ rfl (fun hne => hs.kept _ _ hl hne hnew)
  | fail disk hdisk hext =>
    refine ⟨?_, ?_, hfrom, hs.known.frame (fun _ h => h) (fun p hp => by rw [hdisk]; exact hp)⟩
    · intro key hash hl hne hkey
      exact (hs.kept key hash hl hne (hsplit key hkey).1).frame (by rw [hdisk]) (fun _ hmem => hmem)
    · intro file hfile happ hne
      rcases mem_append.mp hfile with hfile | hfile
      · exact (hs.good file hfile happ hne).frame (by rw [hdisk]) (fun _ hmem => hmem)
      · obtain rfl := mem_singleton.mp hfile
        exact absurd (hs.fromDone _ happ) hnew
  | write target disk pt hsafe hdisk hpt hext =>
    obtain rfl := safeReplicaPath_eq hsafe
    refine ⟨?_, ?_, forall_mem_cons.mpr ⟨by simp, hfrom⟩, ?_⟩
    · intro key hash hl hne hkey
      have hcan := hprev key (AList.lookup_isSome.mp (by rw [hl]; rfl))
      exact (hs.kept key hash hl hne (hsplit key hkey).1).write hcan hcanonical
        (hsplit key hkey).2 hdisk _
    · intro file hfile happ hne
      rcases mem_append.mp hfile with hfile | hfile
      · have hcan := hnamed.canonical file (hdone.subset (mem_append_left _ hfile))
        have : file.1.key ∈ s.applied := (mem_cons.mp happ).resolve_left (hold file hfile)
        exact (hs.good file hfile this hne).write hcan hcanonical (hold file hfile) hdisk _
      · obtain rfl := mem_singleton.mp hfile
        exact ⟨pt, by simp, hpt, by simp [hdisk]⟩
    · exact hs.known.write (fun key h => h.imp_right (mem_cons_of_mem _)) hcanonical
        (.inr (mem_cons_self ..)) hdisk

/-! ### The deletions -/

/-- The loop over the deletions: only the files of the keys it has met are touched, and each of
those is gone or its key is kept. -/
structure Removing.Sound (disk : Disk) (log : List ReplicaAction) (done : List Key) (s : Removing) :
    Prop where
  apart : ∀ key, Canonical key → key ∉ done → s.disk.fileAt (place key) = disk.fileAt (place key)
  gone : ∀ key ∈ done, key ∈ s.undeleted ∨ s.disk.fileAt (place key) = none
  absent : ∀ p, disk.fileAt p = none → s.disk.fileAt p = none
  fromDone : ∀ key ∈ s.undeleted, key ∈ done
  wrote : ∀ key target data, .wrote key target data ∈ s.log ↔ .wrote key target data ∈ log

theorem removeKey_sound {disk : Disk} {done : List Key} {s s' : Removing}
    (hcanonical : Canonical key) (hm : RemoveMove s key s') (hs : s.Sound disk log done) :
    s'.Sound disk log (done ++ [key]) := by
  cases hm with
  | skip hsafe =>
    rw [hcanonical.safe] at hsafe
    cases hsafe
  | refuse target hsafe =>
    refine ⟨?_, ?_, hs.absent, ?_, ?_⟩
    · intro other ho hnot
      exact hs.apart other ho (fun hc => hnot (mem_append_left _ hc))
    · intro other ho
      rcases mem_append.mp ho with ho | ho
      · exact (hs.gone other ho).imp_left (mem_append_left _)
      · exact .inl (mem_append_right _ ho)
    · intro other ho
      rcases mem_append.mp ho with ho | ho
      · exact mem_append_left _ (hs.fromDone other ho)
      · exact mem_append_right _ ho
    · intro other target' data
      simp [hs.wrote other target' data]
  | remove target disk' hsafe hd hext =>
    obtain rfl := safeReplicaPath_eq hsafe
    have habs : ∀ p, s.disk.fileAt p = none → disk'.fileAt p = none := by
      intro p hp
      rw [hd]
      simp [hp]
    refine ⟨?_, ?_, fun p hp => habs p (hs.absent p hp), ?_, ?_⟩
    · intro other ho hnot
      have hne : place other ≠ place target := by
        intro hc
        exact hnot (mem_append_right _ (by simp [ho.place_inj hcanonical hc]))
      rw [hd]
      exact (if_neg hne).trans (hs.apart other ho (fun hc => hnot (mem_append_left _ hc)))
    · intro other ho
      rcases mem_append.mp ho with ho | ho
      · exact (hs.gone other ho).imp_right (habs _)
      · obtain rfl := mem_singleton.mp ho
        exact .inr (by simp [hd])
    · intro other ho
      exact mem_append_left _ (hs.fromDone other ho)
    · intro other target' data
      simp [hs.wrote other target' data]

theorem removing_start_sound (disk : Disk) (log : List ReplicaAction) :
    Removing.Sound disk log [] ⟨disk, [], log⟩ :=
  ⟨fun _ _ _ => rfl, by simp, fun _ h => h, by simp, fun _ _ _ => Iff.rfl⟩

theorem removeKeys_sound {gone : List Key} (hg : ∀ key ∈ gone, Canonical key) (fault : Key → Bool)
    (disk : Disk) (log : List ReplicaAction) :
    (gone.foldl (removeKey fault) ⟨disk, [], log⟩).Sound disk log gone := by
  refine foldl_invariant (P := Removing.Sound disk log) ?_ (removing_start_sound disk log)
  intro done key s hd hs
  exact removeKey_sound (hg key (hd.subset (by simp))) (removeKey_move fault s key) hs

/-! ### Settling a version -/

theorem mem_stateOf : key ∈ stateOf files ↔ key ∈ files.map (·.1.key) := by
  rw [stateOf, mem_foldl_insert]
  simp

theorem lookup_stateOf (hn : Named files) (h : listed ∈ files) :
    (stateOf files).lookup listed.1.key = some listed.1.plaintextBlake3 := by
  apply lookup_foldl_insert
  · exact mem_map_of_mem (f := fun l : ListedFile => l.1.key) h
  · intro other ho hkey
    rw [inj_on_of_nodup_map hn.nodup ho h hkey]

theorem mem_gone {wake : Wake} : key ∈ s.gone wake files ↔
    key ∈ s.prevFiles ∧ key ∉ files.map (·.1.key) := by
  rw [← mem_stateOf]
  simp [gone, wake.order.mem_iter, AList.mem_keys]

variable {state : DriveState} {prev : DriveState}

theorem lookup_settleVersion {applied : List Key} (pending : List Key)
    (h : (settleVersion state prev applied pending).1.lookup key = some hash) (hne : hash ≠ []) :
    key ∈ applied ∧ state.lookup key = some hash := by
  rw [settleVersion, lookup_mapValues] at h
  obtain ⟨hash', hl, hh⟩ := h
  by_cases happ : applied.contains key = true
  · rw [if_pos happ] at hh
    subst hh
    exact ⟨by simpa using happ, (lookup_retain.mp hl).1⟩
  · rw [if_neg happ] at hh
    exact absurd hh.symm hne

theorem mem_pending_settleVersion {applied pending : List Key}
    (hs : key ∈ state) (ha : key ∉ applied) (hp : key ∉ prev) :
    key ∈ (settleVersion state prev applied pending).2 := by
  apply mem_append_right
  simpa using ⟨hs, ha, hp⟩

/-! ### The whole replica -/

structure Replica.Sound (prims : Primitives) (s : Replica) : Prop where
  canonical : ∀ key ∈ s.prevFiles, Canonical key
  good : ∀ key hash, s.prevFiles.lookup key = some hash → hash ≠ [] →
    Good prims s.disk s.log key hash
  known : Known (· ∈ s.prevFiles) s.disk s.log
  listed : ∀ file ∈ s.manifest, file.key ∈ s.prevFiles ∨ file.key ∈ s.pending
  fromManifest : ∀ key hash, s.prevFiles.lookup key = some hash → hash ≠ [] →
    ∃ file ∈ s.manifest, file.key = key ∧ file.plaintextBlake3 = hash
  distinct : (s.manifest.map (·.key)).Nodup
  flag : s.unapplied = stillUnapplied s.prevFiles s.pending

theorem mem_firstPassPending {keys : List Key} :
    key ∈ firstPassPending state keys ↔ key ∈ keys ∧ key ∉ state := by
  simp [firstPassPending, AList.mem_keys]

theorem Named.nodup_manifest (h : Named files) : ((files.map (·.1)).map (·.key)).Nodup := by
  simpa [Function.comp_def] using h.nodup

theorem Replica.Sound.announced (h : s.Sound prims) {more : List ReplicaAction}
    (hmore : ∀ action ∈ more, ∃ status, action = .announced status) (announced : Bool) :
    Replica.Sound prims { s with liveAnnounced := announced, log := s.log ++ more } where
  canonical := h.canonical
  good key hash hl hne := (h.good key hash hl hne).frame rfl (fun _ => mem_append_left _)
  known := by
    intro key target data hmem
    rcases mem_append.mp hmem with hmem | hmem
    · exact h.known key target data hmem
    · obtain ⟨status, hs⟩ := hmore _ hmem
      cases hs
  listed := h.listed
  fromManifest := h.fromManifest
  distinct := h.distinct
  flag := h.flag

theorem Replica.Sound.applying_start (h : s.Sound prims) :
    Applying.Sound prims s.prevFiles [] ⟨s.disk, [], s.log⟩ := by
  refine ⟨?_, by simp, by simp, ?_⟩
  · intro key hash hl hne _
    exact h.good key hash hl hne
  · exact h.known.frame (fun _ hkey => .inl hkey) (fun _ hp => hp)

theorem Replica.Sound.applying (h : s.Sound prims) (hn : Named files) :
    (s.applying prims driveKey files).Sound prims s.prevFiles files := by
  refine foldl_invariant (P := Applying.Sound prims s.prevFiles) ?_ h.applying_start
  intro done listed m hd hm
  exact applyFile_sound hn h.canonical hd (applyFile_move prims driveKey s.prevFiles m listed) hm

theorem Replica.Sound.gone_canonical (h : s.Sound prims) {wake : Wake} :
    ∀ key ∈ s.gone wake files, Canonical key := fun key hkey => h.canonical key (mem_gone.mp hkey).1

theorem blank_sound (prims : Primitives) (disk : Disk) : (blank disk).Sound prims :=
  ⟨by simp [blank], by simp [blank], nofun, nofun, by simp [blank], nodup_nil, rfl⟩

theorem start_sound (hnamed : Named files) (disk : Disk) (version : Option Nat) :
    (start prims driveKey disk version files).Sound prims := by
  have hm := firstPass_mirrors prims driveKey disk files
  have ha : ((blank disk).applying prims driveKey files).Sound prims _ files :=
    (blank_sound prims disk).applying hnamed
  unfold start
  generalize files.foldl (firstPassFile prims driveKey) _ = first at hm ⊢
  refine ⟨?_, ?_, ?_, ?_, ?_, hnamed.nodup_manifest, rfl⟩
  · intro key hmem
    obtain ⟨hash, hlook⟩ := Option.isSome_iff_exists.mp (AList.lookup_isSome.mpr hmem)
    obtain ⟨listed, hlist, rfl, -⟩ := hm.listed key hash hlook
    exact hnamed.canonical listed hlist
  · intro key hash hlook hne
    obtain ⟨listed, hlist, rfl, rfl⟩ := hm.listed key hash hlook
    have hmem : listed.1.key ∈ first.prevFiles := AList.lookup_isSome.mp (by rw [hlook]; rfl)
    have hg := ha.good listed hlist (hm.applied _ hmem) hne
    rwa [hm.disk, hm.log] at hg
  · have hknown := ha.known
    rw [hm.disk, hm.log] at hknown
    intro key target data hmem
    obtain ⟨hc, ht, hkey⟩ := hknown key target data hmem
    refine ⟨hc, ht, hkey.imp_left fun hkey => ?_⟩
    refine (hm.safe key (hkey.resolve_left (AList.notMem_empty key))).resolve_right fun hnone => ?_
    rw [hc.safe] at hnone
    cases hnone
  · intro file hf
    obtain ⟨listed, hlist, rfl⟩ := mem_map.mp hf
    by_cases hmem : listed.1.key ∈ first.prevFiles
    · exact .inl hmem
    · refine .inr (mem_firstPassPending.mpr ⟨?_, hmem⟩)
      rw [hm.keys, mem_filter, (hnamed.canonical listed hlist).safe]
      exact ⟨mem_map_of_mem (f := fun l : ListedFile => l.1.key) hlist, rfl⟩
  · intro key hash hlook _
    obtain ⟨listed, hlist, hkey⟩ := hm.listed key hash hlook
    exact ⟨listed.1, mem_map_of_mem hlist, hkey⟩

theorem mem_newState {wake : Wake} : key ∈ s.newState prims driveKey wake files ↔
      key ∈ files.map (·.1.key) ∨ key ∈ (s.removing prims driveKey wake files).undeleted := by
  rw [newState, mem_foldl_insert (k := fun key => key) (v := fun _ => []), mem_stateOf,
    map_id']

theorem mem_applyVersion {wake : Wake} (newVer : Nat) :
    key ∈ (s.applyVersion prims driveKey wake newVer files).prevFiles ↔
      key ∈ s.newState prims driveKey wake files ∧
        (key ∈ (s.applying prims driveKey files).applied ∨ key ∈ s.prevFiles) :=
  mem_settleVersion s.pending

/-- **Applying a version keeps what the map says of the disk**, whatever fails. -/
theorem Replica.Sound.applyVersion (h : s.Sound prims) (wake : Wake) (newVer : Nat)
    (hnamed : Named files) : (s.applyVersion prims driveKey wake newVer files).Sound prims := by
  have ha : (s.applying prims driveKey files).Sound prims s.prevFiles files := h.applying hnamed
  have hr : (s.removing prims driveKey wake files).Sound (s.applying prims driveKey files).disk
      (s.applying prims driveKey files).log (s.gone wake files) :=
        removeKeys_sound h.gone_canonical _ _ _
  -- a key with a hash was applied in this pass, and the hash is the manifest's
  have hfrom : ∀ key hash, (s.applyVersion prims driveKey wake newVer files).prevFiles.lookup key
      = some hash →
      hash ≠ [] → ∃ listed ∈ files, listed.1.key = key ∧ listed.1.plaintextBlake3 = hash ∧
        listed.1.key ∈ (s.applying prims driveKey files).applied := by
    intro key hash hlook hne
    obtain ⟨happ, hnew⟩ := lookup_settleVersion s.pending hlook hne
    obtain ⟨listed, hlist, rfl⟩ := mem_map.mp (ha.fromDone key happ)
    refine ⟨listed, hlist, rfl, ?_, happ⟩
    have hkept : listed.1.key ∉ (s.removing prims driveKey wake files).undeleted := fun hc =>
      (mem_gone.mp (hr.fromDone _ hc)).2 (mem_map_of_mem (f := fun l : ListedFile => l.1.key) hlist)
    rw [newState, lookup_foldl_insert_of_notMem (k := fun key => key) (v := fun _ => [])
      (by rwa [map_id']), lookup_stateOf hnamed hlist] at hnew
    exact Option.some.inj hnew
  refine ⟨?_, ?_, ?_, ?_, ?_, ?_, rfl⟩
  · intro key hkey
    rcases mem_newState.mp ((mem_applyVersion newVer).mp hkey).1 with hkey | hkey
    · obtain ⟨listed, hlist, rfl⟩ := mem_map.mp hkey
      exact hnamed.canonical listed hlist
    · exact h.gone_canonical key (hr.fromDone key hkey)
  · intro key hash hlook hne
    obtain ⟨listed, hlist, rfl, rfl, happ⟩ := hfrom key hash hlook hne
    refine (ha.good listed hlist happ hne).frame ?_ ?_
    · apply hr.apart _ (hnamed.canonical listed hlist)
      exact fun hc => (mem_gone.mp hc).2 (mem_map_of_mem (f := fun l : ListedFile => l.1.key) hlist)
    · exact fun data => (hr.wrote _ _ data).mpr
  · intro key target data hmem
    obtain ⟨hcanonical, ht, hkey⟩ := ha.known key target data ((hr.wrote key target data).mp hmem)
    refine ⟨hcanonical, ht, ?_⟩
    rcases hkey with (hkey | hkey) | hkey
    · by_cases hlist : key ∈ files.map (·.1.key)
      · exact .inl ((mem_applyVersion newVer).mpr ⟨mem_newState.mpr (.inl hlist), .inr hkey⟩)
      · rcases hr.gone key (mem_gone.mpr ⟨hkey, hlist⟩) with hu | habs
        · exact .inl ((mem_applyVersion newVer).mpr ⟨mem_newState.mpr (.inr hu), .inr hkey⟩)
        · exact .inr habs
    · exact .inl ((mem_applyVersion newVer).mpr ⟨mem_newState.mpr (.inl (ha.fromDone key hkey)),
        .inl hkey⟩)
    · exact .inr (hr.absent _ hkey)
  · intro file hfile
    obtain ⟨listed, hlist, rfl⟩ := mem_map.mp hfile
    have hin : listed.1.key ∈ s.newState prims driveKey wake files :=
      mem_newState.mpr (.inl (mem_map_of_mem (f := fun l : ListedFile => l.1.key) hlist))
    by_cases hkey : listed.1.key ∈ (s.applying prims driveKey files).applied ∨
      listed.1.key ∈ s.prevFiles
    · exact .inl ((mem_applyVersion newVer).mpr ⟨hin, hkey⟩)
    · rw [not_or] at hkey
      exact .inr (mem_pending_settleVersion hin hkey.1 hkey.2)
  · intro key hash hlook hne
    obtain ⟨listed, hlist, hkey, hh, -⟩ := hfrom key hash hlook hne
    exact ⟨listed.1, mem_map_of_mem hlist, hkey, hh⟩
  · exact hnamed.nodup_manifest

/-! ### Live -/

theorem not_stillUnapplied {pending : List Key} :
    stillUnapplied state pending = false ↔ pending = [] ∧ ∀ key hash, state.lookup key = some hash →
      hash ≠ [] := by
  simp only [stillUnapplied, Bool.or_eq_false_iff, Bool.not_eq_false', List.isEmpty_iff,
    List.any_eq_false]
  refine and_congr_right fun _ => ?_
  constructor
  · intro h key hash hl
    exact h ⟨key, hash⟩ (AList.mem_lookup_iff.mp hl)
  · intro h entry he
    exact h entry.1 entry.2 (AList.mem_lookup_iff.mpr he)

/-- The disk holds the manifest processed last, file by file as this run has written it, and
nothing that this run has written besides. -/
structure Replica.Converged (prims : Primitives) (s : Replica) : Prop where
  holds : ∀ file ∈ s.manifest, ∃ target data, safeReplicaPath file.key = some target ∧
    .wrote file.key target data ∈ s.log ∧ prims.blake3 data = file.plaintextBlake3 ∧
    s.disk.fileAt (place target) = some data
  gone : ∀ key target data, .wrote key target data ∈ s.log → key ∉ s.manifest.map (·.key) →
    s.disk.fileAt (place target) = none

theorem unapplied_of_announces (h : s.announces = some .live) : s.unapplied = false := by
  unfold announces at h
  by_contra hun
  simp [hun] at h

theorem Replica.Sound.converged (h : s.Sound prims) (hun : s.unapplied = false) :
    s.Converged prims := by
  obtain ⟨hp, hh⟩ := not_stillUnapplied.mp (h.flag ▸ hun)
  refine ⟨?_, ?_⟩
  · intro file hf
    have hmem : file.key ∈ s.prevFiles := by
      rcases h.listed file hf with hmem | hmem
      · exact hmem
      · rw [hp] at hmem
        cases hmem
    obtain ⟨hash, hl⟩ := Option.isSome_iff_exists.mp (AList.lookup_isSome.mpr hmem)
    have hne := hh file.key hash hl
    obtain ⟨other, ho, hkey, rfl⟩ := h.fromManifest file.key hash hl hne
    obtain rfl := inj_on_of_nodup_map h.distinct ho hf hkey
    obtain ⟨data, hw, hdata, hdisk⟩ := h.good _ _ hl hne
    exact ⟨other.key, data, (h.canonical _ hmem).safe, hw, hdata, hdisk⟩
  · intro key target data hw hnot
    obtain ⟨-, rfl, hkey⟩ := h.known key target data hw
    rcases hkey with hmem | habs
    · obtain ⟨hash, hl⟩ := Option.isSome_iff_exists.mp (AList.lookup_isSome.mpr hmem)
      obtain ⟨file, hf, rfl, -⟩ := h.fromManifest _ hash hl (hh _ hash hl)
      exact absurd (mem_map_of_mem hf) hnot
    · exact habs

/-- **A replica removes only what it has written, and announces live only when the disk holds the
manifest.** -/
theorem replica_rightful_live (disk : Disk) (version : Option Nat) (files : List ListedFile)
    (events : List (Option Wake)) {s : Replica} (hrun : run (Replica.turn prims driveKey)
      (Replica.start prims driveKey disk version files) events = some s) :
    Rightful s.log ∧
      (Named files →
        (∀ event ∈ events, ∀ wake, event = some wake →
          ∀ version files, wake.manifest = some (version, files) → Named files) →
        s.announces = some .live → s.Converged prims) := by
  refine ⟨(run_rightly hrun (start_rightly disk version files)).log, ?_⟩
  intro hnamed hevents hlive
  refine Replica.Sound.converged ?_ (unapplied_of_announces hlive)
  refine run_invariant_of ?_ hevents hrun (start_sound hnamed disk version)
  intro s event s' hevent hstep hs
  exact turn_preserves (fun _ status announced h => h.announced (by simp) announced)
    (fun wake hwake version files hmanifest _ newVer h =>
      h.applyVersion wake newVer (hevent wake hwake version files hmanifest)) hstep hs

/-- A file whose blob is there, in the clear. -/
def clearListed (key : Key) (data : Bytes) : ListedFile :=
  (⟨key, data.length, clearPrimitives.blake3 data⟩,
    ⟨some (List.replicate 12 0 ++ data), false, .none⟩)

def emptyFolder : Disk := fun p => if p = [] then some (.folder false) else none

/-- A replica of `a` is woken up by a version that has `b/c` instead. -/
theorem replica_rightful_live_replaced :
    ∃ s, run (Replica.turn clearPrimitives (Vector.replicate 32 0))
        (Replica.start clearPrimitives (Vector.replicate 32 0) emptyFolder (some 1)
          [clearListed "a".toList [1]])
        [some ⟨false, some (some 2, [clearListed "b/c".toList [2]]), .inserted, fun _ => false⟩]
          = some s ∧
      s.announces = some .live ∧ Rightful s.log ∧ s.Converged clearPrimitives := by
  have hrun : (run (turn clearPrimitives (Vector.replicate 32 0))
      (start clearPrimitives (Vector.replicate 32 0) emptyFolder (some 1)
        [clearListed "a".toList [1]])
      [some ⟨false, some (some 2, [clearListed "b/c".toList [2]]), .inserted, fun _ => false⟩]).map
        announces
      = some (some .live) := by
    decide +kernel
  obtain ⟨s, hs, hlive⟩ := Option.map_eq_some_iff.mp hrun
  obtain ⟨hright, hconverged⟩ := replica_rightful_live _ _ _ _ hs
  refine ⟨s, hs, hlive, hright, hconverged ?_ ?_ hlive⟩
  · exact ⟨by simp, by simpa [clearListed] using (by decide : Canonical "a".toList)⟩
  · intro event hevent wake hwake version files hmanifest
    obtain rfl := mem_singleton.mp hevent
    cases hwake
    cases hmanifest
    exact ⟨by simp, by simpa [clearListed] using (by decide : Canonical "b/c".toList)⟩

end AeroFtp.PeerL0
