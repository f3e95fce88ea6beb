/-
Which changes of the published folder a replica can follow.

A pass writes before it deletes, and deletes files but no folders.  Where a file of the old tree
stands on the way to one of the new tree, the write is refused, the old file is then removed, and
the next pass writes it.  Where a folder of the old tree stands in the place of a file of the
new one, it stays for good, and no rename replaces it.
-/
import AeroFtp.Proofs.PeerL0.Live
import AeroFtp.Proofs.PeerL0.Versions

namespace AeroFtp.PeerL0

open AssocList Sync Texts FileTree Folds Runs History List Replica

variable {prims : Primitives} {driveKey : DriveKey} {nonce : Key → Nonce}
variable {file : Key × Bytes} {s : Replica}

/-- A tree of regular files: no path is another, or a folder on the way to another. -/
structure PublishedTree where
  files : List (Key × Bytes)
  canonical : ∀ file ∈ files, Canonical file.1
  apart : files.Pairwise fun f g => ¬ place f.1 <+: place g.1 ∧ ¬ place g.1 <+: place f.1

/-- What is assumed of the cipher and of the hash. -/
structure Primitives.CollisionFree (prims : Primitives) : Prop where
  decrypt_encrypt : ∀ driveKey nonce plaintext,
    prims.decrypt driveKey nonce (prims.encrypt driveKey nonce plaintext) = some plaintext
  blake3_inj : ∀ a b, prims.blake3 a = prims.blake3 b → a = b
  blake3_ne_nil : ∀ a, prims.blake3 a ≠ []

section Listed

variable (prims driveKey nonce)

/-- A file of a tree in its manifest, with its blob, and nothing fails. -/
def listedFile (file : Key × Bytes) : ListedFile :=
  (⟨file.1, file.2.length, prims.blake3 file.2⟩,
    ⟨some (encryptBlob prims driveKey (nonce file.1) file.2), false, .none⟩)

def PublishedTree.listed (tree : PublishedTree) : List ListedFile :=
  tree.files.map (listedFile prims driveKey nonce)

/-- A pass in which the manifest of a tree is read and nothing fails. -/
def treeWake (tree : PublishedTree) (version : Nat) (order : HashOrder Key) (retrying : Bool) :
    Wake :=
  ⟨retrying, some (some version, tree.listed prims driveKey nonce), order, fun _ => false⟩

/-- A replica that has applied the first tree to an empty folder meets the second as a later
version, and retries it `n` times; each pass meets its keys in its own order. -/
def followRun (first second : PublishedTree) (version later : Nat) (order : Nat → HashOrder Key)
    (n : Nat) : Option Replica :=
  run (Replica.turn prims driveKey)
    (Replica.start prims driveKey emptyFolder (some version) (first.listed prims driveKey nonce))
    (some (treeWake prims driveKey nonce second later (order 0) false) ::
      (List.range n).map fun i =>
        some (treeWake prims driveKey nonce second later (order (i + 1)) true))

end Listed

def PublishedTree.places (tree : PublishedTree) : List (List Path) :=
  tree.files.map fun file => place file.1

variable {tree : PublishedTree}

theorem mem_places (h : file ∈ tree.files) : place file.1 ∈ tree.places :=
  mem_map_of_mem (f := fun file : Key × Bytes => place file.1) h

theorem PublishedTree.eq_of_leads {f g : Key × Bytes} (hf : f ∈ tree.files) (hg : g ∈ tree.files)
    (h : place f.1 <+: place g.1) : f = g := by
  by_contra hne
  have : Std.Symm fun f g : Key × Bytes => ¬ place f.1 <+: place g.1 ∧ ¬ place g.1 <+: place f.1 :=
    ⟨fun _ _ hfg => ⟨hfg.2, hfg.1⟩⟩
  exact (tree.apart.forall hf hg hne).1 h

theorem PublishedTree.place_eq_of_leads (tree : PublishedTree) (hf : file ∈ tree.files)
    {p : List Path} (hp : p ∈ tree.places) (h : place file.1 <+: p) : place file.1 = p := by
  obtain ⟨other, ho, rfl⟩ := mem_map.mp hp
  rw [PublishedTree.eq_of_leads hf ho h]

variable (prims driveKey nonce) in
theorem places_listed (tree : PublishedTree) :
    ∀ listed ∈ tree.listed prims driveKey nonce, place listed.1.key ∈ tree.places := by
  intro listed hl
  obtain ⟨file, hf, rfl⟩ := mem_map.mp hl
  exact mem_places hf

theorem PublishedTree.named (tree : PublishedTree) : Named (tree.listed prims driveKey nonce) := by
  refine ⟨?_, ?_⟩
  · rw [PublishedTree.listed, map_map]
    refine pairwise_map.mpr (tree.apart.imp ?_)
    intro f g hfg hkey
    refine hfg.1 ?_
    have hkey : f.1 = g.1 := hkey
    rw [hkey]
  · intro listed hl
    obtain ⟨file, hfile, rfl⟩ := mem_map.mp hl
    exact tree.canonical file hfile

theorem mem_listed_key {key : Key} :
    key ∈ (tree.listed prims driveKey nonce).map (·.1.key) ↔ ∃ file ∈ tree.files, file.1 = key := by
  simp [PublishedTree.listed, listedFile]

theorem verifiedPlaintext_listed (hp : prims.CollisionFree) (file : Key × Bytes) :
    verifiedPlaintext prims driveKey (listedFile prims driveKey nonce file).1
      (listedFile prims driveKey nonce file).2.blob = some file.2 := by
  have hdec : decryptBlob prims driveKey (nonce file.1).toList
      (prims.encrypt driveKey (nonce file.1) file.2) = some file.2 := by
    rw [decryptBlob, dif_pos (by simp)]
    exact hp.decrypt_encrypt driveKey (nonce file.1) file.2
  have hlen : ¬ (encryptBlob prims driveKey (nonce file.1) file.2).length < 12 := by
    simp [encryptBlob]
  have ht : (encryptBlob prims driveKey (nonce file.1) file.2).take 12 = (nonce file.1).toList := by
    rw [encryptBlob, take_left' (by simp)]
  have hdrop : (encryptBlob prims driveKey (nonce file.1) file.2).drop 12 = prims.encrypt driveKey
      (nonce file.1) file.2 := by
    rw [encryptBlob, drop_left' (by simp)]
  simp only [verifiedPlaintext, listedFile, if_neg hlen, ht, hdrop, hdec, and_self, if_true]

/-! ### The disk of a replica that began with nothing -/

/-- The disk is clean, its folders lead to places of the two trees, and its files are those
written. -/
structure Tidy (places : List (List Path)) (disk : Disk) (log : List ReplicaAction) : Prop where
  clean : disk.Clean
  folders : ∀ q, disk.isFolder q = true → q = [] ∨ ∃ p ∈ places, q <+: p ∧ q ≠ p
  traced : ∀ p, disk.fileAt p ≠ none → ∃ key data, .wrote key key data ∈ log ∧ p = place key

variable {places : List (List Path)} {disk disk' : Disk} {log log' : List ReplicaAction} {key : Key}

/-- Folders are added on the way to a place, and what is a file was one before or has been
written there. -/
theorem Tidy.extend (h : Tidy places disk log) (hkey : place key ∈ places)
    (hext : Tree.Extends (place key) disk disk') (hlog : log ⊆ log')
    (hf : ∀ p, disk'.fileAt p ≠ none → disk.fileAt p ≠ none ∨ ∃ data, .wrote key key data ∈ log' ∧
      p = place key) : Tidy places disk' log' := by
  refine ⟨hext.clean h.clean, ?_, ?_⟩
  · intro q hq
    rcases hext.folders q hq with hq | hq
    · exact h.folders q hq
    · exact .inr ⟨place key, hkey, hq⟩
  · intro p hp
    rcases hf p hp with hp | ⟨data, hmem, hp⟩
    · obtain ⟨key', data', hmem, hp'⟩ := h.traced p hp
      exact ⟨key', data', hlog hmem, hp'⟩
    · exact ⟨key, data, hmem, hp⟩

theorem Tidy.more (h : Tidy places disk log) (more : List ReplicaAction) :
    Tidy places disk (log ++ more) := by
  refine ⟨h.clean, h.folders, ?_⟩
  intro p hp
  obtain ⟨key, data, hmem, hkey⟩ := h.traced p hp
  exact ⟨key, data, mem_append_left _ hmem, hkey⟩

theorem tidy_emptyFolder (places : List (List Path)) : Tidy places emptyFolder [] := by
  have hf : ∀ p, emptyFolder.fileAt p = none := by
    intro p
    by_cases hp : p = [] <;> simp [Tree.fileAt, emptyFolder]
  refine ⟨⟨rfl, ?_, ?_⟩, ?_, fun p hp => absurd (hf p) hp⟩
  · intro p
    by_cases hp : p = [] <;> simp [emptyFolder, hp]
  · intro p name hp
    simp [emptyFolder] at hp
  · intro q hq
    by_cases hq' : q = []
    · exact .inl hq'
    · simp [Tree.isFolder, emptyFolder, hq'] at hq

/-- A file of a tree can be written where no file is on its way and the old places lead no
further than it. -/
theorem Tidy.write_succeeds (h : Tidy places disk log) (hcan : Canonical file.1)
    (hway : ∀ q, disk.fileAt q ≠ none → q <+: place file.1 → q = place file.1)
    (hplaces : ∀ p ∈ places, place file.1 <+: p → place file.1 = p) :
    ∃ disk', writeReplicaFile disk file.1 file.2 .none = (disk', .ok ()) := by
  have hne : place file.1 ≠ [] := by
    rw [hcan.place_eq]
    exact splitSlash_ne_nil _
  apply writeReplicaFile_clean h.clean hne
  · intro q hq hneq
    by_contra hfile
    exact hneq (hway q hfile hq)
  · by_contra hfolder
    rcases h.folders _ (by simpa using hfolder) with hc | ⟨p, hp, hl, hc⟩
    · exact hne hc
    · exact hc (hplaces p hp hl)

/-- Where all that was written and is there is of a tree, no file is on the way to one of it. -/
theorem Tidy.clear_way (h : Tidy places disk log) (hf : file ∈ tree.files)
    (hk : ∀ key data, .wrote key key data ∈ log → disk.fileAt (place key) ≠ none →
      ∃ other ∈ tree.files, other.1 = key) :
    ∀ q, disk.fileAt q ≠ none → q <+: place file.1 → q = place file.1 := by
  intro q hq hl
  obtain ⟨key, data, hw, rfl⟩ := h.traced q hq
  obtain ⟨other, ho, rfl⟩ := hk key data hw hq
  rw [PublishedTree.eq_of_leads ho hf hl]

/-! ### A pass keeps the disk tidy -/

section Pass

variable {files : List ListedFile} (hplaces : ∀ listed ∈ files, place listed.1.key ∈ places)

theorem Tidy.applyFile {prevFiles : DriveState} {s s' : Applying} {file : ManifestFile}
    (hplace : place file.key ∈ places) (hm : ApplyMove prims prevFiles s file s')
    (h : Tidy places s.disk s.log) : Tidy places s'.disk s'.log := by
  cases hm with
  | reject hs => exact h
  | keep hl => exact h
  | fail disk hd hext => exact h.extend hplace hext (List.Subset.refl _) fun p hp => .inl (hd ▸ hp)
  | write target disk pt hs hd hpt hext =>
    obtain rfl := safeReplicaPath_eq hs
    refine h.extend hplace hext (subset_append_left _ _) fun p hp => ?_
    by_cases hpk : p = place file.key
    · exact .inr ⟨pt, by simp, hpk⟩
    · simp only [hd, if_neg hpk] at hp
      exact .inl hp

include hplaces in
theorem Tidy.applying (h : Tidy places s.disk s.log) :
    Tidy places (s.applying prims driveKey files).disk (s.applying prims driveKey files).log := by
  refine foldl_preserves (P := fun m : Applying => Tidy places m.disk m.log) ?_ h
  intro listed hl m hm
  exact hm.applyFile (hplaces listed hl) (applyFile_move prims driveKey s.prevFiles m _)

theorem Tidy.removeKey {s s' : Removing} (hplace : place key ∈ places) (hm : RemoveMove s key s')
    (h : Tidy places s.disk s.log) : Tidy places s'.disk s'.log := by
  cases hm with
  | skip hs => exact h
  | refuse target hs => exact h.more _
  | remove target disk hs hd hext =>
    refine h.extend hplace hext (subset_append_left _ _) fun p hp => .inl ?_
    rw [hd] at hp
    by_cases hpk : p = place target
    · exact absurd (if_pos hpk) hp
    · exact fun hn => hp ((if_neg hpk).trans hn)

include hplaces in
theorem Tidy.applyVersion (h : Tidy places s.disk s.log)
    (hprev : ∀ key ∈ s.prevFiles, place key ∈ places) (wake : Wake) (newVer : Nat) :
    Tidy places (s.applyVersion prims driveKey wake newVer files).disk
      (s.applyVersion prims driveKey wake newVer files).log := by
  refine foldl_preserves (P := fun m : Removing => Tidy places m.disk m.log) ?_
    (.applying hplaces h)
  intro key hkey m hm
  exact hm.removeKey (hprev key (mem_gone.mp hkey).1) (removeKey_move wake.removeFault m key)

/-! ### What a pass with a tree achieves -/

include hplaces in
theorem undeleted_eq_nil (hnamed : Named files) (hs : s.Sound prims)
    (ht : Tidy places s.disk s.log) (hprev : ∀ key ∈ s.prevFiles, place key ∈ places)
    {wake : Wake} (hw : ∀ key, wake.removeFault key = false)
    (hg : ∀ key ∈ s.gone wake files, ∃ hash, s.prevFiles.lookup key = some hash ∧ hash ≠ []) :
    (s.removing prims driveKey wake files).undeleted = [] := by
  have ha : (s.applying prims driveKey files).Sound prims s.prevFiles files := hs.applying hnamed
  have hnd : (s.gone wake files).Nodup := (wake.order.nodup_iter s.prevFiles.keys_nodup).filter _
  have hall := foldl_invariant (f := removeKey wake.removeFault) (l := s.gone wake files)
    (P := fun done m => m.Sound (s.applying prims driveKey files).disk
      (s.applying prims driveKey files).log done ∧ Tidy places m.disk m.log ∧ m.undeleted = []) ?_
    ⟨removing_start_sound _ _, .applying hplaces ht, rfl⟩
  · exact hall.2.2
  intro done key m hd hm
  obtain ⟨hsound, ht, hu⟩ := hm
  have hkey : key ∈ s.gone wake files := hd.subset (by simp)
  have hc := hs.gone_canonical key hkey
  have hmove := removeKey_move wake.removeFault m key
  refine ⟨removeKey_sound hc hmove hsound, ht.removeKey (hprev key (mem_gone.mp hkey).1) hmove, ?_⟩
  obtain ⟨hash, hl, hne⟩ := hg key hkey
  obtain ⟨data, -, -, hf⟩ := ha.kept key hash hl hne (mem_gone.mp hkey).2
  rw [← hsound.apart key hc (notMem_of_next hnd hd)] at hf
  obtain ⟨disk', hr⟩ := removeReplicaFile_clean ht.clean hf
  rw [removeKey_of_remove hc.safe (by rw [hw]; exact hr), hu]

theorem unapplied_applyVersion (hnamed : Named files)
    (hh : ∀ listed ∈ files, listed.1.plaintextBlake3 ≠ []) {wake : Wake} (newVer : Nat)
    (hu : (s.removing prims driveKey wake files).undeleted = [])
    (happ : ∀ listed ∈ files, listed.1.key ∈ (s.applying prims driveKey files).applied) :
    (s.applyVersion prims driveKey wake newVer files).unapplied = false := by
  have hs : ∀ key ∈ s.newState prims driveKey wake files,
      key ∈ (s.applying prims driveKey files).applied := by
    intro key hkey
    rw [mem_newState, hu] at hkey
    obtain ⟨listed, hlist, rfl⟩ := mem_map.mp (hkey.resolve_right (by simp))
    exact happ listed hlist
  apply not_stillUnapplied.mpr
  refine ⟨?_, ?_⟩
  · simp only [settleVersion, append_eq_nil_iff, filter_eq_nil_iff, Bool.and_eq_true, not_and,
      contains_iff_mem]
    refine ⟨fun key _ hkey hnot => ?_, fun key hkey hnot => ?_⟩
    · simp [hs key hkey] at hnot
    · simp [hs key hkey] at hnot
  · intro key hash hlook hnil
    rw [settleVersion, AssocList.lookup_mapValues] at hlook
    obtain ⟨hash', hlook, hh'⟩ := hlook
    have hlook := (AssocList.lookup_retain.mp hlook).1
    have hmem : key ∈ s.newState prims driveKey wake files :=
      AList.lookup_isSome.mp (by rw [hlook]; rfl)
    rw [if_pos (by simpa using hs key hmem), hnil] at hh'
    rw [mem_newState, hu] at hmem
    obtain ⟨listed, hlist, rfl⟩ := mem_map.mp (hmem.resolve_right (by simp))
    rw [newState, hu, foldl_nil, lookup_stateOf hnamed hlist, hh'] at hlook
    exact hh listed hlist (Option.some.inj hlook)

end Pass

/-- Where the map holds only keys of the tree and no folder stands in the place of a file, every
file of the tree is applied. -/
theorem applying_complete (hprims : prims.CollisionFree) (hs : s.Sound prims)
    (ht : Tidy places s.disk s.log)
    (hplaces : ∀ listed ∈ tree.listed prims driveKey nonce, place listed.1.key ∈ places)
    (hprev : ∀ key ∈ s.prevFiles, ∃ file ∈ tree.files, file.1 = key)
    (hlead : ∀ file ∈ tree.files, ∀ p ∈ places, place file.1 <+: p → place file.1 = p) :
    ∀ listed ∈ tree.listed prims driveKey nonce,
      listed.1.key ∈ (s.applying prims driveKey (tree.listed prims driveKey nonce)).applied := by
  have hall := foldl_invariant (f := applyFile prims driveKey s.prevFiles)
    (l := tree.listed prims driveKey nonce)
    (P := fun done m => m.Sound prims s.prevFiles done ∧ Tidy places m.disk m.log ∧
      ∀ listed ∈ done, listed.1.key ∈ m.applied) ?_ ⟨hs.applying_start, ht, by simp⟩
  · exact hall.2.2
  intro done listed m hd hm
  obtain ⟨hsound, ht, happ⟩ := hm
  obtain ⟨file, hf, rfl⟩ := mem_map.mp
    (hd.subset (by simp) : listed ∈ tree.listed prims driveKey nonce)
  have hc := tree.canonical file hf
  have hmove := applyFile_move prims driveKey s.prevFiles m (listedFile prims driveKey nonce file)
  have hknown : ∀ key data, .wrote key key data ∈ m.log → m.disk.fileAt (place key) ≠ none →
      ∃ other ∈ tree.files, other.1 = key := by
    intro key data hwrote hq
    obtain ⟨-, -, hkey⟩ := hsound.known key key data hwrote
    rcases hkey.resolve_right hq with hkey | hkey
    · exact hprev key hkey
    · obtain ⟨listed, hlist, rfl⟩ := mem_map.mp (hsound.fromDone key hkey)
      exact mem_listed_key.mp (mem_map_of_mem (hd.subset (mem_append_left _ hlist)))
  obtain ⟨disk', hwrite⟩ := ht.write_succeeds hc (ht.clear_way hf hknown) (hlead file hf)
  have hr : (applyFile prims driveKey s.prevFiles m (listedFile prims driveKey nonce file)).applied
      = _ :=
    applyFile_of_write hc.safe (verifiedPlaintext_listed hprims file) hwrite
  refine ⟨applyFile_sound tree.named hs.canonical hd hmove hsound,
    ht.applyFile (hplaces _ (mem_map_of_mem hf)) hmove, ?_⟩
  intro listed hlist
  rw [hr]
  rcases mem_append.mp hlist with hlist | hlist
  · exact mem_cons_of_mem _ (happ listed hlist)
  · rw [mem_singleton.mp hlist]
    exact mem_cons_self ..

/-! ### Following the second tree -/

/-- Nothing is unapplied, and the files of the folder are those of the tree. -/
structure Follows (tree : PublishedTree) (s : Replica) : Prop where
  applied : s.unapplied = false
  files : ∀ p data, s.disk.fileAt p = some data ↔ ∃ file ∈ tree.files, p = place file.1 ∧
    data = file.2

theorem turn_takes (tree : PublishedTree) {version : Nat} (order : HashOrder Key) {retrying : Bool}
    (hr : retrying = true → s.unapplied = true)
    (ht : takesVersion s.currentVersion version retrying = true) :
    ∃ more, (∀ action ∈ more, ∃ status, action = ReplicaAction.announced status) ∧
      s.turn prims driveKey (some (treeWake prims driveKey nonce tree version order retrying)) =
        some (applyVersion prims driveKey { s with liveAnnounced := false, log := s.log ++ more }
          (treeWake prims driveKey nonce tree version order retrying) version
            (tree.listed prims driveKey nonce)) := by
  have hdue : ¬ (retrying && !s.unapplied) = true := by
    simp only [Bool.and_eq_true]
    intro hc
    rw [hr hc.1] at hc
    cases hc.2
  cases hann : s.announces with
  | none =>
    refine ⟨[.announced .syncing], by simp, ?_⟩
    simp only [turn, treeWake, if_neg hdue, top, hann, Replica.pass, Option.getD_some, ht,
      if_true]
  | some status =>
    refine ⟨[.announced status, .announced .syncing], by simp, ?_⟩
    simp only [turn, treeWake, if_neg hdue, top, hann, Replica.pass, Option.getD_some, ht,
      if_true, append_assoc, cons_append, nil_append]

/-- Live means that the files are those of the tree, for a disk that holds only what was written. -/
theorem Replica.Sound.follows (hprims : prims.CollisionFree) (hs : s.Sound prims)
    (ht : Tidy places s.disk s.log)
    (hman : s.manifest = (tree.listed prims driveKey nonce).map (·.1)) (hun : s.unapplied = false) :
    Follows tree s := by
  have hc := hs.converged hun
  have hkeys : ∀ key, key ∈ s.manifest.map (·.key) ↔ ∃ file ∈ tree.files, file.1 = key := by
    intro key
    rw [hman, map_map]
    exact mem_listed_key
  have hholds : ∀ file ∈ tree.files, s.disk.fileAt (place file.1) = some file.2 := by
    intro file hf
    have hmem : (listedFile prims driveKey nonce file).1 ∈ s.manifest := by
      rw [hman]
      exact mem_map_of_mem (mem_map_of_mem hf)
    obtain ⟨target, data, hsafe, -, hhash, hd⟩ := hc.holds _ hmem
    obtain rfl := safeReplicaPath_eq hsafe
    rw [← hprims.blake3_inj data file.2 hhash]
    exact hd
  refine ⟨hun, ?_⟩
  intro p data
  constructor
  · intro hp
    obtain ⟨key, data', hw, rfl⟩ := ht.traced p (by rw [hp]; simp)
    by_cases hkey : key ∈ s.manifest.map (·.key)
    · obtain ⟨file, hf, rfl⟩ := (hkeys key).mp hkey
      refine ⟨file, hf, rfl, ?_⟩
      rw [hholds file hf] at hp
      exact (Option.some.inj hp).symm
    · rw [hc.gone key key data' hw hkey] at hp
      cases hp
  · intro h
    obtain ⟨file, hf, rfl, rfl⟩ := h
    exact hholds file hf

theorem Tidy.mono {more : List (List Path)} (h : Tidy places disk log)
    (hm : ∀ p ∈ places, p ∈ more) : Tidy more disk log := by
  refine ⟨h.clean, ?_, h.traced⟩
  intro q hq
  rcases h.folders q hq with hq | ⟨p, hp, hl⟩
  · exact .inl hq
  · exact .inr ⟨p, hm p hp, hl⟩

/-- A replica that has applied the tree to an empty folder. -/
structure AppliedFirst (prims : Primitives) (tree : PublishedTree) (s : Replica) : Prop where
  sound : s.Sound prims
  tidy : Tidy tree.places s.disk s.log
  hashed : ∀ key ∈ s.prevFiles, ∃ file ∈ tree.files, file.1 = key ∧
    s.prevFiles.lookup key = some (prims.blake3 file.2)
  applied : ∀ file ∈ tree.files, file.1 ∈ s.prevFiles

theorem start_appliedFirst (hp : prims.CollisionFree) (driveKey : DriveKey) (nonce : Key → Nonce)
    (tree : PublishedTree) (version : Nat) : AppliedFirst prims tree
      (start prims driveKey emptyFolder (some version) (tree.listed prims driveKey nonce)) := by
  have hm := firstPass_mirrors prims driveKey emptyFolder (tree.listed prims driveKey nonce)
  have hb : Tidy tree.places (blank emptyFolder).disk (blank emptyFolder).log :=
    tidy_emptyFolder _
  have ht : Tidy tree.places ((blank emptyFolder).applying prims driveKey _).disk _ :=
    .applying (places_listed prims driveKey nonce tree) hb
  rw [hm.disk, hm.log] at ht
  refine ⟨start_sound tree.named _ _, ht, ?_, ?_⟩
  · intro key hkey
    obtain ⟨hash, hlook⟩ := Option.isSome_iff_exists.mp (AList.lookup_isSome.mpr hkey)
    obtain ⟨listed, hlist, rfl, rfl⟩ := hm.listed key hash hlook
    obtain ⟨file, hf, rfl⟩ := mem_map.mp hlist
    exact ⟨file, hf, rfl, hlook⟩
  · intro file hf
    have happ := applying_complete hp (blank_sound prims emptyFolder) hb
      (places_listed prims driveKey nonce tree)
        (fun key hkey => absurd hkey (AList.notMem_empty key))
      (fun _ hf _ => tree.place_eq_of_leads hf) _ (mem_map_of_mem hf)
    refine (hm.safe file.1 happ).resolve_right fun hn => ?_
    rw [(tree.canonical file hf).safe] at hn
    cases hn

variable {more : List ReplicaAction}

theorem AppliedFirst.announced (h : AppliedFirst prims tree s)
    (hm : ∀ action ∈ more, ∃ status, action = .announced status) :
    AppliedFirst prims tree { s with liveAnnounced := false, log := s.log ++ more } :=
  ⟨h.sound.announced hm false, h.tidy.more more, h.hashed, h.applied⟩

section Following

variable {first second : PublishedTree}

/-- A replica that was at the first tree, behind a pass with the second. -/
structure Arrived (prims : Primitives) (driveKey : DriveKey) (nonce : Key → Nonce)
    (first second : PublishedTree) (later : Nat) (s : Replica) : Prop where
  sound : s.Sound prims
  tidy : Tidy (first.places ++ second.places) s.disk s.log
  keys : ∀ key ∈ s.prevFiles, ∃ file ∈ second.files, file.1 = key
  manifest : s.manifest = (second.listed prims driveKey nonce).map (·.1)
  version : s.currentVersion = later

theorem places_second (first : PublishedTree) :
    ∀ listed ∈ second.listed prims driveKey nonce, place listed.1.key ∈ first.places
      ++ second.places := by
  exact fun listed hl => mem_append_right _ (places_listed _ _ _ second listed hl)

theorem AppliedFirst.arrive (hprims : prims.CollisionFree) (driveKey : DriveKey)
    (nonce : Key → Nonce) (hs : AppliedFirst prims first s) (second : PublishedTree) (wake : Wake)
    (hw : ∀ key, wake.removeFault key = false) (later : Nat) :
    Arrived prims driveKey nonce first second later
      (s.applyVersion prims driveKey wake later (second.listed prims driveKey nonce)) := by
  have ht : Tidy (first.places ++ second.places) s.disk s.log :=
    hs.tidy.mono fun p hp => mem_append_left _ hp
  have hprev : ∀ key ∈ s.prevFiles, place key ∈ first.places ++ second.places := by
    intro key hkey
    obtain ⟨file, hf, rfl, -⟩ := hs.hashed key hkey
    exact mem_append_left _ (mem_places hf)
  have hg : ∀ key ∈ s.gone wake (second.listed prims driveKey nonce),
      ∃ hash, s.prevFiles.lookup key = some hash ∧ hash ≠ [] := by
    intro key hkey
    obtain ⟨file, -, -, hl⟩ := hs.hashed key (mem_gone.mp hkey).1
    exact ⟨_, hl, hprims.blake3_ne_nil _⟩
  have hu : (s.removing prims driveKey wake (second.listed prims driveKey nonce)).undeleted = [] :=
    undeleted_eq_nil (places_second first) second.named hs.sound ht hprev hw hg
  refine ⟨hs.sound.applyVersion wake later second.named,
    .applyVersion (places_second first) ht hprev wake later, ?_, rfl, rfl⟩
  intro key hkey
  have hnew := ((mem_applyVersion later).mp hkey).1
  rw [mem_newState, hu] at hnew
  exact mem_listed_key.mp (hnew.resolve_right (by simp))

variable {later : Nat}

theorem Arrived.follows (hp : prims.CollisionFree)
    (h : Arrived prims driveKey nonce first second later s) (hun : s.unapplied = false) :
    Follows second s :=
  h.sound.follows hp h.tidy h.manifest hun

theorem Arrived.announced (h : Arrived prims driveKey nonce first second later s)
    (hm : ∀ action ∈ more, ∃ status, action = .announced status) :
    Arrived prims driveKey nonce first second later
      { s with liveAnnounced := false, log := s.log ++ more } :=
  ⟨h.sound.announced hm false, h.tidy.more more, h.keys, h.manifest, h.version⟩

theorem Arrived.retry (hprims : prims.CollisionFree)
    (h : Arrived prims driveKey nonce first second later s)
    (hlead : ∀ f ∈ second.files, ∀ g ∈ first.files, place f.1 <+: place g.1 → f.1 = g.1)
    {wake : Wake} (hw : ∀ key, wake.removeFault key = false) :
    Follows second (s.applyVersion prims driveKey wake later
      (second.listed prims driveKey nonce)) := by
  have hprev : ∀ key ∈ s.prevFiles, place key ∈ first.places ++ second.places := by
    intro key hkey
    obtain ⟨file, hf, rfl⟩ := h.keys key hkey
    exact mem_append_right _ (mem_places hf)
  have hg : ∀ key ∈ s.gone wake (second.listed prims driveKey nonce),
      ∃ hash, s.prevFiles.lookup key = some hash ∧ hash ≠ [] := by
    intro key hkey
    exact absurd (mem_listed_key.mpr (h.keys key (mem_gone.mp hkey).1)) (mem_gone.mp hkey).2
  have hleads : ∀ file ∈ second.files, ∀ p ∈ first.places ++ second.places, place file.1 <+: p →
      place file.1 = p := by
    intro file hf p hp hleads
    rcases mem_append.mp hp with hp | hp
    · obtain ⟨other, ho, rfl⟩ := mem_map.mp hp
      rw [hlead file hf other ho hleads]
    · exact second.place_eq_of_leads hf hp hleads
  have hh : ∀ listed ∈ second.listed prims driveKey nonce, listed.1.plaintextBlake3 ≠ [] := by
    intro listed hlist
    obtain ⟨file, -, rfl⟩ := mem_map.mp hlist
    exact hprims.blake3_ne_nil file.2
  refine (h.sound.applyVersion wake later second.named).follows hprims
    (.applyVersion (places_second first) h.tidy hprev wake later) rfl
    (unapplied_applyVersion second.named hh later ?_ ?_)
  · exact undeleted_eq_nil (places_second first) second.named h.sound h.tidy hprev hw hg
  · exact applying_complete hprims h.sound h.tidy (places_second first) h.keys hleads

end Following

/-! ### Folders stay -/

theorem isFolder_applyVersion {q : List Path} (h : s.disk.isFolder q = true) (wake : Wake)
    (newVer : Nat) (files : List ListedFile) :
    (s.applyVersion prims driveKey wake newVer files).disk.isFolder q = true := by
  have happlying : (s.applying prims driveKey files).disk.isFolder q = true := by
    refine foldl_preserves (P := fun m : Applying => m.disk.isFolder q = true) ?_ h
    intro listed _ m hm
    have hmove := applyFile_move prims driveKey s.prevFiles m listed
    generalize applyFile prims driveKey s.prevFiles m listed = m' at hmove
    cases hmove with
    | reject hs => exact hm
    | keep hl => exact hm
    | fail disk hd hext => exact hext.grows q hm
    | write target disk pt hs hd hpt hext => exact hext.grows q hm
  refine foldl_preserves (P := fun m : Removing => m.disk.isFolder q = true) ?_ happlying
  intro key _ m hm
  have hmove := removeKey_move wake.removeFault m key
  generalize removeKey wake.removeFault m key = m' at hmove
  cases hmove with
  | skip hs => exact hm
  | refuse target hs => exact hm
  | remove target disk hs hd hext => exact hext.grows q hm

/-- **No run of the watch loop takes a folder away.** -/
theorem run_isFolder {s' : Replica} {events : List (Option Wake)} {q : List Path}
    (hrun : run (turn prims driveKey) s events = some s') (h : s.disk.isFolder q = true) :
    s'.disk.isFolder q = true :=
  run_invariant (P := fun s : Replica => s.disk.isFolder q = true)
    (fun _ _ _ hstep hs => turn_preserves (P := fun s : Replica => s.disk.isFolder q = true)
      (fun _ _ _ h => h) (fun wake _ _ files _ _ newVer h =>
        isFolder_applyVersion h wake newVer files) hstep hs)
    hrun h

/-- A folder of the first tree stands where the second has a file: it is never followed. -/
theorem lead_of_follows (hp : prims.CollisionFree) {first second : PublishedTree}
    {version later n : Nat} {order : Nat → HashOrder Key}
    (hrun : followRun prims driveKey nonce first second version later order n = some s)
    (hfollows : Follows second s) {f g : Key × Bytes} (hf : f ∈ second.files)
    (hg : g ∈ first.files) (hlead : place f.1 <+: place g.1) : f.1 = g.1 := by
  have hfirst := start_appliedFirst hp driveKey nonce first version
  by_contra hne
  obtain ⟨rest, hrest⟩ := hlead
  have hrest_ne : rest ≠ [] := by
    intro hc
    rw [hc, append_nil] at hrest
    exact hne ((second.canonical f hf).place_inj (first.canonical g hg) hrest)
  have hfile : (start prims driveKey emptyFolder (some version)
      (first.listed prims driveKey nonce)).disk (place f.1 ++ rest) ≠ none := by
    obtain ⟨file, hfile, hkey, hlook⟩ := hfirst.hashed g.1 (hfirst.applied g hg)
    obtain ⟨data, -, -, hd⟩ := hfirst.sound.good g.1 _ hlook (hp.blake3_ne_nil _)
    rw [hrest, fileAt_eq_some.mp hd]
    simp
  have hfolder := run_isFolder hrun (hfirst.tidy.clean.isFolder_of_append hrest_ne hfile)
  have hd := (hfollows.files (place f.1) f.2).mpr ⟨f, hf, rfl, rfl⟩
  obtain ⟨w, hw⟩ := isFolder_iff.mp hfolder
  rw [fileAt_eq_some, hw] at hd
  cases hd

/-- **A replica follows a change from one tree to another exactly if no path of the new tree is a
folder on the way to a file of the old one.** -/
theorem follows_iff (hprims : prims.CollisionFree) (driveKey : DriveKey) (nonce : Key → Nonce)
    (first second : PublishedTree) {version later : Nat} (hlater : version < later)
    (order : Nat → HashOrder Key) :
    (∃ n s, followRun prims driveKey nonce first second version later order n = some s ∧
        Follows second s) ↔
      ∀ f ∈ second.files, ∀ g ∈ first.files, place f.1 <+: place g.1 → f.1 = g.1 := by
  constructor
  · intro h f hf g hg hlead
    obtain ⟨n, s, hrun, hfollows⟩ := h
    exact lead_of_follows hprims hrun hfollows hf hg hlead
  intro hlead
  have hfirst := start_appliedFirst hprims driveKey nonce first version
  obtain ⟨more, hmore, hturn⟩ := turn_takes second
    (s := .start prims driveKey emptyFolder (some version) (first.listed prims driveKey nonce))
    (order 0) (by simp) (takesVersion_of_lt false hlater)
  have harrived := (hfirst.announced hmore).arrive hprims driveKey nonce second
    (treeWake prims driveKey nonce second later (order 0) false) (fun _ => rfl) later
  generalize applyVersion prims driveKey _
    (treeWake prims driveKey nonce second later (order 0) false) later
    (second.listed prims driveKey nonce) = s₁ at hturn harrived
  cases hun : s₁.unapplied with
  | false => exact ⟨0, s₁, run_cons.mpr ⟨s₁, hturn, rfl⟩, harrived.follows hprims hun⟩
  | true =>
    have htakes : takesVersion s₁.currentVersion later true = true := by
      rw [harrived.version]
      simp [takesVersion]
    obtain ⟨more', hmore', hturn'⟩ := turn_takes second (order 1) (fun _ => hun) htakes
    refine ⟨1, _, run_cons.mpr ⟨s₁, hturn, run_cons.mpr ⟨_, hturn', rfl⟩⟩, ?_⟩
    exact (harrived.announced hmore').retry hprims hlead (fun _ => rfl)

/-- Nothing is hidden, and a hash is the text behind a mark. -/
def markedPrimitives : Primitives :=
  { clearPrimitives with
    blake3 := fun plaintext => '#' :: byteChars plaintext }

theorem markedPrimitives_collisionFree : markedPrimitives.CollisionFree where
  decrypt_encrypt _ _ _ := rfl
  blake3_inj _ _ h := byteChars_injective (cons.inj h).2
  blake3_ne_nil a := by simp [markedPrimitives]

/-- A tree of one file. -/
def singleFile (key : Key) (data : Bytes) (h : Canonical key) : PublishedTree where
  files := [(key, data)]
  canonical := by simpa using h
  apart := by simp

/-- A file becomes a folder: the second pass writes the file in it. -/
theorem follows_fileToFolder :
    markedPrimitives.CollisionFree ∧ ∃ n s, followRun markedPrimitives (Vector.replicate 32 0)
      (fun _ => Vector.replicate 12 0)
      (singleFile "a".toList [1] (by decide)) (singleFile "a/b".toList [2] (by decide)) 1 2
      (fun _ => .inserted) n = some s ∧
      Follows (singleFile "a/b".toList [2] (by decide)) s := by
  refine ⟨markedPrimitives_collisionFree,
    (follows_iff markedPrimitives_collisionFree _ _ _ _ (by decide) _).mpr ?_⟩
  intro f hf g hg hlead
  obtain rfl := mem_singleton.mp hf
  obtain rfl := mem_singleton.mp hg
  exact absurd hlead (by decide)

/-- A folder becomes a file: the folder that is left is in its way for good. -/
theorem folderToFile_not_followed :
    markedPrimitives.CollisionFree ∧ ¬ ∃ n s, followRun markedPrimitives (Vector.replicate 32 0)
      (fun _ => Vector.replicate 12 0) (singleFile "a/b".toList [1] (by decide))
        (singleFile "a".toList [2] (by decide)) 1 2
        (fun _ => .inserted) n = some s ∧ Follows (singleFile "a".toList [2] (by decide)) s := by
  refine ⟨markedPrimitives_collisionFree, ?_⟩
  intro h
  obtain ⟨n, s, hrun, hfollows⟩ := h
  have hlead : place "a".toList <+: place "a/b".toList := by decide
  have hsame := lead_of_follows markedPrimitives_collisionFree hrun hfollows (mem_singleton_self _)
    (mem_singleton_self _) hlead
  exact absurd hsame (by decide)

end AeroFtp.PeerL0
