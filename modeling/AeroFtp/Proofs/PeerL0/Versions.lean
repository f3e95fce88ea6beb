/-
The versions of a drive over the life of its store.

A run numbers its publications from one, whatever the store holds from runs before it.  So the
versions of one run rise, and a replica that has taken some of them takes each that follows; a
second run that publishes begins below everything a replica has seen.
-/
import AeroFtp.Proofs.PeerL0.Publish

namespace AeroFtp.PeerL0

open Sync Texts List PublishRun

variable {prims : Primitives} {driveKey : DriveKey} {publication : Publication}

/-- Each manifest has a greater version than all before it. -/
def Increasing (manifests : List Manifest) : Prop :=
  (manifests.map (·.driveVersion)).Pairwise (· < ·)

/-- A replica that started from one of the manifests and has then met any of them, in any order
and retrying or not, takes each manifest written after those. -/
def NeverIgnored (manifests : List Manifest) : Prop :=
  ∀ before manifest after, manifests = before ++ manifest :: after →
    ∀ first ∈ before, ∀ met : List (Manifest × Bool), (∀ m ∈ met, m.1 ∈ before) → ∀ retrying,
      takesVersion (currentAfter first.driveVersion (met.map fun m => (m.1.driveVersion, m.2)))
        manifest.driveVersion retrying = true

/-! ### The replica's side -/

theorem currentAfter_mem (currentVersion : Nat) (met : List (Nat × Bool)) :
    currentAfter currentVersion met = currentVersion ∨
      currentAfter currentVersion met ∈ met.map (·.1) := by
  induction met generalizing currentVersion with
  | nil => exact .inl rfl
  | cons m met ih =>
    rw [currentAfter, map_cons, mem_cons]
    by_cases ht : takesVersion currentVersion m.1 m.2 = true
    · rw [if_pos ht]
      rcases ih m.1 with h | h
      · exact .inr (.inl h)
      · exact .inr (.inr h)
    · rw [if_neg ht]
      rcases ih currentVersion with h | h
      · exact .inl h
      · exact .inr (.inr h)

theorem takesVersion_of_lt {currentVersion newVer : Nat} (retrying : Bool)
    (h : currentVersion < newVer) : takesVersion currentVersion newVer retrying = true := by
  have hlt : ¬ newVer < currentVersion := by omega
  have hne : newVer ≠ currentVersion := by omega
  simp [takesVersion, hlt, hne]

theorem Increasing.neverIgnored {manifests : List Manifest} (h : Increasing manifests) :
    NeverIgnored manifests := by
  intro before manifest after hs first hf met hmet retrying
  have hb : ∀ m ∈ before, m.driveVersion < manifest.driveVersion := by
    intro m hm
    rw [Increasing, hs, map_append, pairwise_append] at h
    exact h.2.2 _ (mem_map_of_mem hm) _ (by simp)
  apply takesVersion_of_lt
  rcases currentAfter_mem first.driveVersion (met.map fun m => (m.1.driveVersion, m.2)) with hc | hc
  · rw [hc]
    exact hb first hf
  · rw [map_map, mem_map] at hc
    obtain ⟨m, hm, hc⟩ := hc
    rw [← hc]
    exact hb m.1 (hmet m hm)

/-! ### One run -/

section Run

variable (prims driveKey)

theorem publishFile_first_ok {i : Nat} (s : Progress prims) {file : SourceFile} :
    (∃ s', publishFile prims driveKey none publication i s file = .ok s') ↔
      (file.content.isSome && publication.encrypted i && publication.stored i) = true := by
  unfold publishFile
  cases file.content with
  | none => simp
  | some pt =>
    simp only [isUnchanged, Bool.false_eq_true, if_false, Option.isSome_some, Bool.true_and]
    cases publication.encrypted i <;> cases publication.stored i <;> simp

theorem publishFiles_first_ok {i : Nat} (s : Progress prims) {files : List SourceFile} :
    (∃ s', publishFiles prims driveKey none publication i s files = .ok s') ↔
      publication.writesAll i files = true := by
  induction files generalizing i s with
  | nil => simp [publishFiles, Publication.writesAll]
  | cons file rest ih =>
    rw [publishFiles, Publication.writesAll, Bool.and_eq_true,
      ← publishFile_first_ok prims driveKey s]
    cases publishFile prims driveKey none publication i s file with
    | error failure => simp
    | ok m => simpa using ih m

variable (doc : prims.Doc) {life : List PublishRun} (run : PublishRun)

theorem publishDriveVersion_first_ok (version : Nat) :
    (∃ published, publishDriveVersion prims driveKey doc publication version none = .ok published) ↔
      publication.completes = true := by
  unfold publishDriveVersion Publication.completes
  cases publication.source with
  | none => simp
  | some source =>
    simp only [Bool.and_eq_true]
    rw [← publishFiles_first_ok prims driveKey ⟨doc, ∅, [], ⟨0, 0, 0, 0, source.files.length, 0⟩⟩]
    cases publishFiles prims driveKey none publication 0
        ⟨doc, ∅, [], ⟨0, 0, 0, 0, source.files.length, 0⟩⟩ source.files with
    | error failure => simp
    | ok s => cases publication.manifestEncrypted <;> cases publication.manifestStored <;> simp

theorem publishAll_versions (prev : Option DriveState) (doc : prims.Doc)
    (calls : List (Nat × Publication)) :
    (publishAll prims driveKey prev doc calls).2.map (·.driveVersion) <+: calls.map (·.1) := by
  induction calls generalizing prev doc with
  | nil => simp [publishAll]
  | cons call calls ih =>
    rw [publishAll]
    cases hc : publishDriveVersion prims driveKey doc call.2 call.1 prev with
    | error failure => simp
    | ok published =>
      obtain ⟨_, _, _, _, _, _, _, hv, _⟩ := publishDriveVersion_ok hc
      simp only [map_cons, hv]
      exact cons_prefix_cons.mpr ⟨rfl, ih _ _⟩

theorem PublishRun.versions_eq : ∃ n, run.versions = range' 1 (n + 1) := by
  unfold versions
  by_cases h : 0 < run.republishAfter
  · exact ⟨_, by rw [if_pos h, range'_succ]⟩
  · exact ⟨0, by rw [if_neg h]; rfl⟩

theorem runDocsPublish_versions :
    (runDocsPublish prims driveKey doc run).2.map (·.driveVersion) <+: run.versions := by
  unfold runDocsPublish
  by_cases hdir : run.dir = true
  · rw [if_pos hdir]
    refine (publishAll_versions prims driveKey none doc _).trans ?_
    rw [zip_eq_zip_take_min, map_fst_zip (by simp)]
    exact take_prefix ..
  · rw [if_neg hdir]
    simp

theorem runDocsPublish_increasing : Increasing (runDocsPublish prims driveKey doc run).2 := by
  obtain ⟨n, hn⟩ := run.versions_eq
  have hp := runDocsPublish_versions prims driveKey doc run
  rw [hn] at hp
  exact (pairwise_lt_range' ..).sublist hp.sublist

theorem runDocsPublish_of_publishes {run : PublishRun} (h : run.publishes = true) :
    ∃ m ∈ (runDocsPublish prims driveKey doc run).2, m.driveVersion = 1 := by
  obtain ⟨hdir, hf⟩ := Bool.and_eq_true_iff.mp h
  unfold runDocsPublish
  rw [if_pos hdir]
  cases hpubs : run.publications with
  | nil => simp [hpubs] at hf
  | cons first rest =>
    rw [hpubs] at hf
    obtain ⟨published, hpub⟩ := (publishDriveVersion_first_ok prims driveKey doc 1).mpr hf
    obtain ⟨_, _, _, _, _, _, _, hv, _⟩ := publishDriveVersion_ok hpub
    refine ⟨published.manifest, ?_, hv⟩
    rw [versions, zip_cons_cons, publishAll, hpub]
    exact mem_cons_self ..

theorem runDocsPublish_of_not_publishes {run : PublishRun} (h : run.publishes = false) :
    (runDocsPublish prims driveKey doc run).2 = [] := by
  unfold runDocsPublish
  by_cases hdir : run.dir = true
  · rw [if_pos hdir]
    cases hpubs : run.publications with
    | nil => rw [zip_nil_right]; rfl
    | cons first rest =>
      have hf : first.completes = false := by simpa [publishes, hdir, hpubs] using h
      rw [versions, zip_cons_cons, publishAll]
      cases hpub : publishDriveVersion prims driveKey doc first 1 none with
      | error failure => rfl
      | ok published =>
        have := (publishDriveVersion_first_ok prims driveKey doc 1).mp ⟨published, hpub⟩
        rw [hf] at this
        cases this
  · rw [if_neg hdir]

/-! ### The life of a store -/

theorem manifestsOf_eq_nil (h : life.countP publishes = 0) :
    manifestsOf prims driveKey doc life = [] := by
  induction life generalizing doc with
  | nil => rfl
  | cons run rest ih =>
    obtain ⟨hrun, hrest⟩ := forall_mem_cons.mp (countP_eq_zero.mp h)
    rw [manifestsOf, runDocsPublish_of_not_publishes prims driveKey doc (by simpa using hrun)]
    exact ih _ (countP_eq_zero.mpr hrest)

theorem exists_first_manifest (h : 0 < life.countP publishes) :
    ∃ m ∈ manifestsOf prims driveKey doc life, m.driveVersion = 1 := by
  induction life generalizing doc with
  | nil => simp at h
  | cons run rest ih =>
    by_cases hrun : run.publishes = true
    · obtain ⟨m, hm, hv⟩ := runDocsPublish_of_publishes prims driveKey doc hrun
      exact ⟨m, mem_append_left _ hm, hv⟩
    · rw [countP_cons_of_neg hrun] at h
      obtain ⟨m, hm, hv⟩ := ih (runDocsPublish prims driveKey doc run).1 h
      exact ⟨m, mem_append_right _ hm, hv⟩

theorem increasing_iff :
    Increasing (manifestsOf prims driveKey doc life) ↔ life.countP publishes ≤ 1 := by
  induction life generalizing doc with
  | nil => simp [manifestsOf, Increasing]
  | cons run rest ih =>
    by_cases hrun : run.publishes = true
    · rw [countP_cons_of_pos hrun]
      constructor
      · intro hinc
        by_contra hmore
        obtain ⟨m, hm, hm1⟩ := runDocsPublish_of_publishes prims driveKey doc hrun
        obtain ⟨m', hm', hm1'⟩ := exists_first_manifest prims driveKey
          (runDocsPublish prims driveKey doc run).1 (show 0 < rest.countP publishes by omega)
        rw [Increasing, manifestsOf, map_append, pairwise_append] at hinc
        have := hinc.2.2 _ (mem_map_of_mem hm) _ (mem_map_of_mem hm')
        omega
      · intro hone
        rw [manifestsOf, manifestsOf_eq_nil prims driveKey _ (by omega), append_nil]
        exact runDocsPublish_increasing prims driveKey doc run
    · rw [countP_cons_of_neg hrun, manifestsOf,
        runDocsPublish_of_not_publishes prims driveKey doc (by simpa using hrun), nil_append]
      exact ih _

/-- **The versions of a drive rise, and no replica ignores a later one, exactly if no more
than one run over the store publishes.** -/
theorem neverIgnored_iff (life : List PublishRun) :
    (Increasing (manifestsOf prims driveKey doc life) ∧
      NeverIgnored (manifestsOf prims driveKey doc life)) ↔
      life.countP PublishRun.publishes ≤ 1 := by
  constructor
  · intro h
    exact (increasing_iff prims driveKey doc).mp h.1
  · intro h
    have hinc := (increasing_iff prims driveKey doc).mpr h
    exact ⟨hinc, hinc.neverIgnored⟩

end Run

/-- A publisher is started, publishes an empty folder, is stopped and does so again: a replica
of the first run skips the version one of the second. -/
def restartedLife : List PublishRun :=
  [⟨true, 0, 0, [smoothCall .nil]⟩, ⟨true, 0, 0, [smoothCall .nil]⟩]

theorem restarted_ignored :
    ¬ NeverIgnored (manifestsOf clearPrimitives
      (Vector.replicate 32 0) emptyDoc restartedLife) := by
  have hmanifests : manifestsOf clearPrimitives (Vector.replicate 32 0) emptyDoc restartedLife
      = [⟨1, "", 0, []⟩, ⟨1, "", 0, []⟩] := by
    decide +kernel
  intro h
  have := h [⟨1, "", 0, []⟩] ⟨1, "", 0, []⟩ [] hmanifests ⟨1, "", 0, []⟩ (mem_singleton_self _) []
  exact absurd this (by decide)

end AeroFtp.PeerL0
