/-
Whose history a load returns.

Nothing of the record is compared with what was asked but the profile: a file is found by
the text `local|remote` alone.  Two pairs have one text wherever a path has a bar in it,
and the comparison of two local folders does not ask for a profile at all.
-/
import AeroFtp.Lib.Folds
import AeroFtp.Sync.History

namespace AeroFtp.Sync

open List Option HistoryDir

theorem combined_inj {l r l' r' : Path} (hl : '|' ∉ l') (hr : '|' ∉ r')
    (h : combined l r = combined l' r') : l = l' ∧ r = r' := by
  rcases append_eq_append_iff.mp h with ⟨more, hm, hrest⟩ | ⟨more, hm, hrest⟩
  · cases more with
    | nil => exact ⟨by simpa using hm.symm, by simpa using hrest⟩
    | cons c more =>
      obtain ⟨rfl, -⟩ := cons.inj hrest
      exact absurd (by simp [hm]) hl
  · cases more with
    | nil => exact ⟨by simpa using hm, by simpa using hrest.symm⟩
    | cons c more =>
      obtain ⟨-, hrest⟩ := cons.inj hrest
      exact absurd (by simp [hrest]) hr

theorem exists_combined_of_bar {l r : Path} (h : '|' ∈ l ∨ '|' ∈ r) :
    ∃ l' r', combined l' r' = combined l r ∧ l' ≠ l := by
  rcases h with h | h
  · obtain ⟨front, back, rfl⟩ := append_of_mem h
    exact ⟨front, back ++ '|' :: r, by simp [combined], by simp⟩
  · obtain ⟨front, back, rfl⟩ := append_of_mem h
    exact ⟨l ++ '|' :: front, back, by simp [combined], by simp⟩

theorem historyServes_some {recorded : Option Path} {p : Path} :
    historyServes recorded (some p) = true ↔ recorded = some p ∨ recorded = none := by
  cases recorded <;> simp [historyServes]

namespace HistoryDir

variable {ρ : Type} {dir : HistoryDir ρ}

/-- Files are named by the text of their pair, and hold the record of a pair with their name. -/
structure Named (dir : HistoryDir ρ) : Prop where
  text : ∀ l r l' r', dir.filename l r = dir.filename l' r' ↔ combined l r = combined l' r'
  held : ∀ name history, dir.files name = some history →
    name = dir.filename history.localPath history.remotePath

theorem files_save {history held : SyncHistory ρ} {name : Path}
    (h : (dir.save history).files name = some held) :
    held = history ∧ name = dir.filename history.localPath history.remotePath ∨
      dir.files name = some held := by
  simp only [save] at h
  by_cases hn : name = dir.filename history.localPath history.remotePath
  · rw [hn, Function.update_self] at h
    exact .inl ⟨(some.inj h).symm, hn⟩
  · rw [Function.update_of_ne hn] at h
    exact .inr h

theorem Named.save (h : dir.Named) (history : SyncHistory ρ) : (dir.save history).Named where
  text := h.text
  held := by
    intro name held hh
    rcases files_save hh with ⟨rfl, hn⟩ | hh
    · exact hn
    · exact h.held name held hh

/-- A history loaded for a pair and a profile is theirs. -/
def Own (load : Path → Path → Option Path → Option (SyncHistory ρ)) : Prop :=
  ∀ l r p history, load l r (some p) = some history →
    history.localPath = l ∧ history.remotePath = r ∧
      (history.profileId = some p ∨ history.profileId = none)

theorem loadForProfile_eq_some {l r p : Path} {history : SyncHistory ρ} :
    dir.loadForProfile l r (some p) = some history ↔
      (∃ held, dir.files (dir.filename l r) = some held ∧
        history = { held with rest := dir.reread held.rest }) ∧
        (history.profileId = some p ∨ history.profileId = none) := by
  simp only [loadForProfile, load, filter_eq_some_iff, map_eq_some_iff, historyServes_some,
    eq_comm (a := history)]

/-- Every load is right while no path in the folder has a bar in it. -/
theorem own_iff (h : dir.Named) :
    Own dir.loadForProfile ↔ ∀ name history, dir.files name = some history →
      '|' ∉ history.localPath ∧ '|' ∉ history.remotePath := by
  constructor
  · intro hown name held hh
    by_contra hbar
    obtain ⟨l, r, ht, hne⟩ := exists_combined_of_bar
      (not_and_or.mp hbar |>.imp not_not.mp not_not.mp)
    rw [h.held name held hh, ← (h.text l r _ _).mpr ht] at hh
    refine hne (hown l r (held.profileId.getD []) _
      (loadForProfile_eq_some.mpr ⟨⟨held, hh, rfl⟩, ?_⟩)).1.symm
    cases held.profileId <;> simp
  · intro hbar l r p history hload
    obtain ⟨⟨held, hh, rfl⟩, hp⟩ := loadForProfile_eq_some.mp hload
    obtain ⟨hl, hr⟩ := hbar _ held hh
    obtain ⟨rfl, rfl⟩ := combined_inj hl hr ((h.text ..).mp (h.held _ held hh))
    exact ⟨rfl, rfl, hp⟩

end HistoryDir

namespace Histories

variable {ι κ : Type} {stablePathHash : Path → Path} {migrate : ι → ι} {updatedAt : κ → κ}

theorem named_empty (hh : Function.Injective stablePathHash) :
    (empty stablePathHash migrate updatedAt).syncIndexDir.Named ∧
      (empty stablePathHash migrate updatedAt).syncJournalDir.Named := by
  have hn : ∀ front back text text' : Path, front ++ stablePathHash text ++ back =
      front ++ stablePathHash text' ++ back ↔ text = text' := by
    intro front back text text'
    rw [append_left_inj, append_right_inj, hh.eq_iff]
  exact ⟨⟨fun _ _ _ _ => hn [] _ _ _, nofun⟩, ⟨fun _ _ _ _ => hn _ _ _ _, nofun⟩⟩

theorem named_save {s : Histories ι κ} (record : SyncHistory ι ⊕ SyncHistory κ)
    (h : s.syncIndexDir.Named ∧ s.syncJournalDir.Named) :
    (s.save record).syncIndexDir.Named ∧ (s.save record).syncJournalDir.Named := by
  cases record with
  | inl index => exact ⟨h.1.save index, h.2⟩
  | inr journal => exact ⟨h.1, h.2.save _⟩

/-- The index the comparison of two local folders takes was recorded by no profile. -/
def LocalOwn (s : Histories ι κ) : Prop :=
  ∀ left right index, s.compareLocalDirectoriesIndex left right = some index →
    index.profileId = none

theorem localOwn_iff {s : Histories ι κ} (h : s.syncIndexDir.Named) :
    s.LocalOwn ↔ ∀ name index, s.syncIndexDir.files name = some index → index.profileId = none := by
  constructor
  · intro hown name index hi
    rw [h.held name index hi] at hi
    exact hown _ _ { index with rest := s.syncIndexDir.reread index.rest }
      (map_eq_some_iff.mpr ⟨index, hi, rfl⟩)
  · intro hp left right index hi
    obtain ⟨held, hh, rfl⟩ := map_eq_some_iff.mp hi
    exact hp _ held hh

/-- **After every interleaving of saves, each history is loaded for its own two folders
only exactly if no path on record has a bar in it, and the comparison of two local
folders takes no index of a profile exactly if none is on record.** -/
theorem histories_own_iff (hhash : Function.Injective stablePathHash)
    (saves : List (SyncHistory ι ⊕ SyncHistory κ)) :
    let s := saves.foldl save (empty stablePathHash migrate updatedAt)
    (Own s.loadSyncIndexForProfile ∧ Own s.loadSyncJournalForProfile ∧ s.LocalOwn) ↔
      (∀ name index, s.syncIndexDir.files name = some index →
        '|' ∉ index.localPath ∧ '|' ∉ index.remotePath ∧ index.profileId = none) ∧
      ∀ name journal, s.syncJournalDir.files name = some journal →
        '|' ∉ journal.localPath ∧ '|' ∉ journal.remotePath := by
  intro s
  obtain ⟨hindex, hjournal⟩ : s.syncIndexDir.Named ∧ s.syncJournalDir.Named :=
    Folds.foldl_preserves (P := fun s : Histories ι κ => s.syncIndexDir.Named ∧
      s.syncJournalDir.Named) (fun record _ _ => named_save record) (named_empty hhash)
  rw [loadSyncIndexForProfile, loadSyncJournalForProfile, own_iff hindex, own_iff hjournal,
    localOwn_iff hindex]
  constructor
  · rintro ⟨hi, hj, hl⟩
    exact ⟨fun name index h => ⟨(hi name index h).1, (hi name index h).2, hl name index h⟩, hj⟩
  · rintro ⟨hi, hj⟩
    exact ⟨fun name index h => ⟨(hi name index h).1, (hi name index h).2.1⟩, hj,
      fun name index h => (hi name index h).2.2⟩

/-- A journal of a profile and an index of none. -/
theorem histories_own_iff_apart :
    let s := [.inl ⟨['a'], ['/', 'd'], none, ()⟩,
      .inr ⟨['a'], ['/', 'd'], some ['p'], ()⟩].foldl save (empty id id id : Histories Unit Unit)
    Own s.loadSyncIndexForProfile ∧ Own s.loadSyncJournalForProfile ∧ s.LocalOwn := by
  refine (histories_own_iff Function.injective_id _).mpr
    ⟨fun name index h => ?_, fun name journal h => ?_⟩
  · rcases HistoryDir.files_save h with ⟨rfl, -⟩ | h
    · simp
    · cases h
  · rcases HistoryDir.files_save h with ⟨rfl, -⟩ | h
    · simp
    · cases h

/-- The index of the profile `p` for the folders `a|b` and `c` is the baseline of `a` and
`b|c`, and of the local folders `a|b` and `c`. -/
theorem histories_foreign :
    let s := (empty id id id : Histories Unit Unit).saveSyncIndex
      ⟨['a', '|', 'b'], ['c'], some ['p'], ()⟩
    s.loadSyncIndexForProfile ['a'] ['b', '|', 'c']
      (some ['p']) = some ⟨['a', '|', 'b'], ['c'], some ['p'], ()⟩ ∧
    s.compareLocalDirectoriesIndex ['a', '|', 'b']
      ['c'] = some ⟨['a', '|', 'b'], ['c'], some ['p'], ()⟩ := by
  decide

end Histories

end AeroFtp.Sync
