/-
What writing and removing a replica file does to the files of the folder.

A write that succeeds changes one file, and one that fails changes none: it may leave folders
behind.  The same holds of a removal.
-/
import AeroFtp.PeerL0.Replicate

namespace AeroFtp.PeerL0

open Sync Texts FileTree List

variable {disk disk' : Disk} {target : Path} {data : Bytes}
variable {made result : Except Errno Unit} {fault : WriteFault} {folder parts : List Path}

theorem fileAt_createReplicaFolders
    (h : createReplicaFolders disk folder parts = (disk', made)) : disk'.fileAt = disk.fileAt := by
  induction parts generalizing disk folder with
  | nil =>
    cases h
    rfl
  | cons part parts ih =>
    rw [createReplicaFolders] at h
    split at h
    · rename_i next hm
      rw [ih h, fileAt_mkdir hm]
    · exact ih h
    · cases h
      rfl

theorem fileAt_makeFolders
    (h : makeFolders disk target fault = (disk', made)) : disk'.fileAt = disk.fileAt := by
  unfold makeFolders at h
  split at h
  · cases h
    exact fileAt_createReplicaFolders (Prod.mk.eta.symm)
  · exact fileAt_createReplicaFolders h

theorem replaceReplicaFile_ok (h : replaceReplicaFile disk target data = .ok disk') :
    disk.replace (place target) data = .ok disk' := by
  unfold replaceReplicaFile at h
  split at h
  · cases h
  · split at h
    · exact h
    · cases h
    · exact h

theorem extends_createReplicaFolders (folder : List Path) {parts goal : List Path}
    (hg : folder ++ parts <+: goal) (hne : folder ++ parts ≠ goal)
    (h : createReplicaFolders disk folder parts = (disk', made)) :
    Tree.Extends goal disk disk' := by
  induction parts generalizing disk folder with
  | nil =>
    cases h
    exact .refl _ _
  | cons part parts ih =>
    rw [← singleton_append, ← append_assoc] at hg hne
    rw [createReplicaFolders] at h
    have hpart : folder ++ [part] <+: goal := (prefix_append _ _).trans hg
    have hpart_ne : folder ++ [part] ≠ goal := by
      intro hc
      apply hne
      exact hg.eq_of_length_le (by rw [← hc]; simp)
    split at h
    · rename_i next hm
      exact (extends_mkdir hm hpart hpart_ne).trans (ih _ hg hne h)
    · exact ih _ hg hne h
    · cases h
      exact .refl _ _

theorem extends_makeFolders (hplace : place target ≠ [])
    (h : makeFolders disk target fault = (disk', made)) :
    Tree.Extends (place target) disk disk' := by
  have hpos := length_pos_iff.mpr hplace
  have hne : (place target).dropLast ≠ place target := by
    intro hc
    have hlen := congrArg length hc
    rw [length_dropLast] at hlen
    omega
  unfold makeFolders at h
  split at h
  · rename_i made'
    cases h
    have hf : (place target).dropLast.take made' <+: (place target).dropLast := take_prefix ..
    refine extends_createReplicaFolders [] (hf.trans (List.dropLast_prefix _)) ?_ Prod.mk.eta.symm
    intro hc
    have hlen := hf.length_le
    rw [length_dropLast] at hlen
    have hs := congrArg length hc
    rw [nil_append] at hs
    omega
  · exact extends_createReplicaFolders [] (List.dropLast_prefix _) hne h

theorem writeReplicaFile_cases (h : writeReplicaFile disk target data fault = (disk', result)) :
    ∃ made : Disk, made.fileAt = disk.fileAt ∧ Tree.Extends (place target) disk made ∧
      ((∃ e, result = .error e ∧ disk' = made) ∨
        result = .ok () ∧ made.replace (place target) data = .ok disk') := by
  unfold writeReplicaFile at h
  split at h
  · cases h
    exact ⟨_, rfl, .refl _ _, .inl ⟨_, rfl, rfl⟩⟩
  split at h
  · cases h
    exact ⟨_, rfl, .refl _ _, .inl ⟨_, rfl, rfl⟩⟩
  split at h
  · cases h
    exact ⟨_, rfl, .refl _ _, .inl ⟨_, rfl, rfl⟩⟩
  rename_i hp
  split at h
  · rename_i made e hm
    cases h
    exact ⟨_, fileAt_makeFolders hm, extends_makeFolders hp hm, .inl ⟨_, rfl, rfl⟩⟩
  · rename_i made hm
    refine ⟨made, fileAt_makeFolders hm, extends_makeFolders hp hm, ?_⟩
    split at h
    · cases h
      exact .inl ⟨_, rfl, rfl⟩
    split at h
    · cases h
      exact .inl ⟨_, rfl, rfl⟩
    · rename_i next hr
      cases h
      exact .inr ⟨rfl, replaceReplicaFile_ok hr⟩

theorem fileAt_writeReplicaFile (h : writeReplicaFile disk target data fault = (disk', .ok ())) :
    disk'.fileAt = fun other => if other = place target then some data else disk.fileAt other := by
  obtain ⟨made, hm, -, ⟨e, he, -⟩ | ⟨-, hr⟩⟩ := writeReplicaFile_cases h
  · cases he
  · rw [fileAt_replace hr, hm]

theorem fileAt_writeReplicaFile_error {e : Errno}
    (h : writeReplicaFile disk target data fault = (disk', .error e)) :
    disk'.fileAt = disk.fileAt := by
  obtain ⟨made, hm, -, ⟨e', -, rfl⟩ | ⟨he, -⟩⟩ := writeReplicaFile_cases h
  · exact hm
  · cases he

theorem extends_writeReplicaFile (h : writeReplicaFile disk target data fault = (disk', result)) :
    Tree.Extends (place target) disk disk' := by
  obtain ⟨made, -, hext, ⟨e, -, rfl⟩ | ⟨-, hr⟩⟩ := writeReplicaFile_cases h
  · exact hext
  · exact hext.trans (extends_replace hr)

/-- A file that was there is unlinked, or there was none; or an error changes nothing. -/
def Removal (disk disk' : Disk) (target : Path) (result : Except Errno Unit) : Prop :=
  (∃ e, result = .error e ∧ disk' = disk) ∨
    (result = .ok () ∧ (disk.unlink (place target) = .ok disk' ∨
      (disk (place target) = none ∧ disk' = disk)))

theorem unlinkReplicaFile_cases (h : unlinkReplicaFile disk target = (disk', result)) :
    Removal disk disk' target result := by
  unfold unlinkReplicaFile at h
  split at h
  · rename_i next hu
    cases h
    exact .inr ⟨rfl, .inl hu⟩
  · rename_i hu
    cases h
    refine .inr ⟨rfl, .inr ⟨?_, rfl⟩⟩
    unfold Tree.unlink at hu
    split at hu
    · rename_i e hs
      exact lstat_error hs
    · cases hu
    · cases hu
  · cases h
    exact .inl ⟨_, rfl, rfl⟩

variable {fault : Bool}

theorem removeReplicaFile_cases (h : removeReplicaFile disk target fault = (disk', result)) :
    Removal disk disk' target result := by
  unfold removeReplicaFile at h
  split at h
  · cases h
    exact .inl ⟨_, rfl, rfl⟩
  split at h
  · cases h
    exact .inl ⟨_, rfl, rfl⟩
  · split at h
    · exact unlinkReplicaFile_cases h
    · cases h
      exact .inl ⟨_, rfl, rfl⟩
  · exact unlinkReplicaFile_cases h

theorem fileAt_removeReplicaFile (h : removeReplicaFile disk target fault = (disk', .ok ())) :
    disk'.fileAt = fun other => if other = place target then none else disk.fileAt other := by
  rcases removeReplicaFile_cases h with ⟨e, he, -⟩ | ⟨-, hu | ⟨hn, rfl⟩⟩
  · cases he
  · exact fileAt_unlink hu
  · funext other
    by_cases ho : other = place target
    · rw [if_pos ho, ho, Tree.fileAt, hn]
    · rw [if_neg ho]

theorem removeReplicaFile_error {e : Errno}
    (h : removeReplicaFile disk target fault = (disk', .error e)) : disk' = disk := by
  rcases removeReplicaFile_cases h with ⟨e', -, hd⟩ | ⟨he, -⟩
  · exact hd
  · cases he

theorem extends_removeReplicaFile (h : removeReplicaFile disk target fault = (disk', result)) :
    Tree.Extends (place target) disk disk' := by
  rcases removeReplicaFile_cases h with ⟨e, -, rfl⟩ | ⟨-, hu | ⟨-, rfl⟩⟩
  · exact .refl _ _
  · exact extends_unlink hu
  · exact .refl _ _

/-! ### When they succeed -/

theorem linkFrom_clean (hclean : disk.Clean)
    (h : ∀ q, q <+: folder ++ parts → q ≠ folder ++ parts → disk.fileAt q = none) :
    linkFrom disk folder parts = .ok none := by
  induction parts generalizing folder with
  | nil => rfl
  | cons part parts ih =>
    have hsplit : folder ++ part :: parts = (folder ++ [part]) ++ parts := by simp
    rw [hsplit] at h
    rw [linkFrom]
    rcases hclean.lstat_cases (folder ++ [part]) with ⟨data, hstat, hf⟩ | ⟨hstat, -⟩ | ⟨hstat, -⟩ |
        ⟨hstat, -, q, hq, hne, hf⟩
    · -- a file can only be the target itself
      rw [hstat]
      cases parts with
      | nil => rfl
      | cons next parts =>
        have := h (folder ++ [part]) (prefix_append _ _) (by simp)
        rw [hf] at this
        cases this
    · rw [hstat]
      exact ih h
    · rw [hstat]
    · refine absurd (h q (hq.trans (prefix_append _ _)) ?_) hf
      intro hc
      exact hne (hq.eq_of_length_le (by rw [hc]; simp))

theorem createReplicaFolders_clean (hc : disk.Clean) (hfolder : disk.isFolder folder = true)
    (h : ∀ q, q <+: folder ++ parts → disk.fileAt q = none) :
    ∃ disk', createReplicaFolders disk folder parts = (disk', .ok ()) ∧
      disk'.isFolder (folder ++ parts) = true := by
  induction parts generalizing disk folder with
  | nil => exact ⟨disk, rfl, by simpa using hfolder⟩
  | cons part parts ih =>
    have hsplit : folder ++ part :: parts = (folder ++ [part]) ++ parts := by simp
    rw [hsplit] at h ⊢
    rw [createReplicaFolders]
    rcases hc.lstat_cases (folder ++ [part]) with ⟨data, -, hfile⟩ | ⟨hstat, ht⟩ | ⟨hstat, -⟩ |
        ⟨hstat, -, q, hq, -, hfile⟩
    · rw [h _ (prefix_append _ _)] at hfile
      cases hfile
    · have hm : disk.mkdir (folder ++ [part]) = .error .alreadyExists := by simp [Tree.mkdir, hstat]
      rw [hm]
      exact ih hc ht h
    · have hm : disk.mkdir (folder ++ [part])
          = .ok (disk.set (folder ++ [part]) (some (.folder false))) := by
        simp [Tree.mkdir, hstat, hfolder]
      rw [hm]
      refine ih ((extends_mkdir hm (prefix_append _ [[]]) (by simp)).clean hc) ?_ ?_
      · rw [isFolder_mkdir hm]
        simp
      · rw [fileAt_mkdir hm]
        exact h
    · exact absurd (h q (hq.trans (prefix_append _ _))) hfile

theorem refuseLinkOnTheWay_clean (hc : disk.Clean)
    (h : ∀ q, q <+: place target → q ≠ place target → disk.fileAt q = none) :
    refuseLinkOnTheWay disk target = .ok () := by
  rw [refuseLinkOnTheWay, linkOnTheWay, linkFrom_clean hc (by simpa using h)]

/-- **On a clean disk a write without faults succeeds unless a file is on its way or a folder
in its place.** -/
theorem writeReplicaFile_clean (hclean : disk.Clean) (hplace : place target ≠ [])
    (hway : ∀ q, q <+: place target → q ≠ place target → disk.fileAt q = none)
    (hfolder : disk.isFolder (place target) = false) :
    ∃ disk', writeReplicaFile disk target data .none = (disk', .ok ()) := by
  obtain ⟨front, name, hl⟩ : ∃ front name, place target = front ++ [name] := by
    rcases eq_nil_or_concat (place target) with hc | ⟨front, name, hc⟩
    · exact absurd hc hplace
    · exact ⟨front, name, by rw [hc, concat_eq_append]⟩
  have hfront : ∀ q, q <+: [] ++ (place target).dropLast → disk.fileAt q = none := by
    intro q hq
    rw [hl, dropLast_concat] at hq
    refine hway q (hq.trans (by rw [hl]; exact prefix_append _ _)) ?_
    intro hc
    have hlen := hq.length_le
    rw [hc, hl, nil_append, length_append, length_singleton] at hlen
    omega
  obtain ⟨made, hmade, hpar⟩ := createReplicaFolders_clean hclean hclean.root hfront
  have hmake : makeFolders disk target .none = (made, .ok ()) := hmade
  have hext := extends_makeFolders hplace hmake
  have hfiles := fileAt_makeFolders hmake
  have hmadeClean := hext.clean hclean
  have hnot : made.isFolder (place target) = false := by
    by_contra hc
    rcases hext.folders _ (by simpa using hc) with hc | hc
    · rw [hfolder] at hc
      cases hc
    · exact hc.2 rfl
  have hr : made.replace (place target) data = .ok
      (made.set (place target) (some (.file data))) := by
    rw [nil_append] at hpar
    simp [Tree.replace, hpar, hnot]
  have hwrite : replaceReplicaFile made target data = .ok
      (made.set (place target) (some (.file data))) := by
    rw [replaceReplicaFile, refuseLinkOnTheWay_clean hmadeClean (by rwa [hfiles])]
    rcases hmadeClean.lstat_cases (place target) with ⟨_, hs, -⟩ | ⟨-, hc⟩ | ⟨hs, -⟩ |
      ⟨-, -, q, hq, hne, hfile⟩
    · simp only [hs, hr]
    · rw [hnot] at hc
      cases hc
    · simp only [hs, hr]
    · rw [hfiles] at hfile
      exact absurd (hway q hq hne) hfile
  refine ⟨made.set (place target) (some (.file data)), ?_⟩
  rw [writeReplicaFile, refuseLinkOnTheWay_clean hclean hway]
  simp only [if_neg hplace, hmake, hwrite, reduceCtorEq, if_false]

theorem removeReplicaFile_clean (hc : disk.Clean) (hf : disk.fileAt (place target) = some data) :
    ∃ disk', removeReplicaFile disk target false = (disk', .ok ()) := by
  have ht : disk (place target) = some (.file data) := fileAt_eq_some.mp hf
  have hl : linkOnTheWay disk target = .ok none := by
    refine linkFrom_clean hc ?_
    intro q hq hne
    exact hc.fileAt_of_above hq hne (by simp [ht])
  have hu : disk.unlink (place target) = .ok (disk.set (place target) none) := by
    simp [Tree.unlink, lstat_ok.mpr ht]
  refine ⟨disk.set (place target) none, ?_⟩
  simp only [removeReplicaFile, Bool.false_eq_true, if_false, hl, unlinkReplicaFile, hu]

end AeroFtp.PeerL0
