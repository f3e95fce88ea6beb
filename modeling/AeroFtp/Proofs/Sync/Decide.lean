/-
Uploading and downloading one path never contradict each other, and what the checksums
of a pair are worth.

The two directions ask the same questions with the sides exchanged, so what lets one copy,
`Wins`, cannot let the other copy.  A checksum only ever ends the question: where the two
agree the pair is identical.  Where they differ the times and sizes decide as they would
without, and can still call the pair identical.
-/
import AeroFtp.Sync.Decide

namespace AeroFtp.Sync

open SyncCore Dag

variable (parse : String → Option Int) (window : ModifyWindow)

theorem orderText_swap (a b : Option String) :
    window.orderText parse b a = (window.orderText parse a b).map Ordering.swap := by
  unfold ModifyWindow.orderText
  generalize a.bind parse = a, b.bind parse = b
  cases window with
  | sizeOnly reason => rfl
  | seconds secs =>
    cases a with
    | none => cases b <;> rfl
    | some a =>
      cases b with
      | none => rfl
      | some b =>
        simp only [ModifyWindow.order, show (b - a).natAbs = (a - b).natAbs by omega]
        split
        · rfl
        · rw [Option.map_some, Int.compare_swap]

section Pair

variable {ours theirs : SyncFileMeta} {mode : ConflictMode} {policy : DeltaPolicy}

/-- A time decides between the two. -/
def Ordered (ours theirs : SyncFileMeta) : Prop :=
  window.orderText parse ours.mtime theirs.mtime = some .gt ∨
    window.orderText parse ours.mtime theirs.mtime = some .lt

theorem Ordered.symm (h : Ordered parse window ours theirs) : Ordered parse window theirs ours := by
  unfold Ordered at *
  rw [orderText_swap parse window ours.mtime]
  rcases h with h | h <;> simp [h]

/-- Our copy is the newer one, or none is and ours is the larger one. -/
def Wins (policy : DeltaPolicy) (ours theirs : SyncFileMeta) : Prop :=
  policy ≠ .sizeOnly ∧ window.orderText parse ours.mtime theirs.mtime = some .gt ∨
    (policy = .sizeOnly ∨ ¬ Ordered parse window ours theirs) ∧ theirs.size < ours.size

theorem Wins.asymm (h : Wins parse window policy ours theirs) :
    ¬ Wins parse window policy theirs ours := by
  unfold Wins Ordered at *
  rw [orderText_swap parse window theirs.mtime] at h
  cases hord : window.orderText parse theirs.mtime ours.mtime with
  | none => grind
  | some o => cases o <;> grind [Ordering.swap]

/-- Both files have a hash, and not the same one. -/
def HashesDiffer (ours theirs : SyncFileMeta) : Prop :=
  ∃ a b, ours.hash = some a ∧ theirs.hash = some b ∧ eqIgnoreAsciiCase a b = false

theorem HashesDiffer.symm (h : HashesDiffer ours theirs) : HashesDiffer theirs ours := by
  obtain ⟨a, b, ha, hb, hne⟩ := h
  refine ⟨b, a, hb, ha, ?_⟩
  simpa [eqIgnoreAsciiCase, eq_comm] using hne

/-- The reasons that call a pair identical without its checksums. -/
def SkippedAsIdentical (decision : SyncTreeDecision) : Prop :=
  decision.action = .skip "identical size" ∨ decision.action = .skip "identical mtime and size"

/-- What either direction comes to, said of its source and the copy it would replace. -/
structure Decides (policy : DeltaPolicy) (ours theirs : SyncFileMeta) (d : SyncTreeDecision) :
    Prop where
  copies : d.action = .copy → Wins parse window policy ours theirs
  identical : HashesDiffer ours theirs → policy = .hash ∨ policy = .delta →
    (SkippedAsIdentical d ↔ ¬ Ordered parse window ours theirs ∧ ours.size = theirs.size)

theorem decideBySize_spec {theirsIsLarger : String}
    (hr : theirsIsLarger ∉ ["identical size", "identical mtime and size"])
    (ours theirs : Nat) (mode : ConflictMode) :
    ((decideBySize theirsIsLarger ours theirs mode).action = .copy → theirs < ours) ∧
      (SkippedAsIdentical (decideBySize theirsIsLarger ours theirs mode) ↔ ours = theirs) := by
  simp only [List.mem_cons, List.not_mem_nil, or_false, not_or] at hr
  unfold SkippedAsIdentical decideBySize
  by_cases heq : ours = theirs
  · simp [heq]
  · cases mode with
    | larger => by_cases hlt : theirs < ours <;> simp [heq, hlt, hr]
    | newer => simp [heq, newerUnordered]
    | skip => simp [heq]

theorem decides_decideByMtime {theirsIsNewer theirsIsLarger : String}
    (hn : theirsIsNewer ∉ ["identical size", "identical mtime and size"])
    (hl : theirsIsLarger ∉ ["identical size", "identical mtime and size"])
    (hp : policy ≠ .sizeOnly) :
    Decides parse window policy ours theirs
      (decideByMtime parse theirsIsNewer (decideBySize theirsIsLarger) ours theirs mode policy
        window) := by
  obtain ⟨hc, hskip⟩ := decideBySize_spec hl ours.size theirs.size mode
  simp only [List.mem_cons, List.not_mem_nil, or_false, not_or] at hn
  suffices h : _ ∧ _ from ⟨h.1, fun _ _ => h.2⟩
  unfold Wins Ordered decideByMtime
  cases window.orderText parse ours.mtime theirs.mtime with
  | none =>
    by_cases hk : mode = .newer ∧ !window.comparesTimes ∧ ours.size ≠ theirs.size
    · simp only [if_pos hk]
      simp [SkippedAsIdentical, hk.2.2]
    · simp only [if_neg hk, hskip]
      simpa using hc
  | some o =>
    cases o with
    | lt => simp [SkippedAsIdentical, hn]
    | gt => simp [SkippedAsIdentical, hp]
    | eq =>
      by_cases hsize : ours.size = theirs.size
      · simp [SkippedAsIdentical, hsize]
      · simpa [hsize, hskip] using hc

theorem decides_decideByHash
    {byMtime : SyncFileMeta → SyncFileMeta → ConflictMode → DeltaPolicy → ModifyWindow →
      SyncTreeDecision}
    (h : Decides parse window policy ours theirs (byMtime ours theirs mode policy window)) :
    Decides parse window policy ours theirs
      (decideByHash byMtime ours theirs mode policy window) := by
  unfold decideByHash
  split
  · next a b ha hb =>
    split
    · next heq =>
      refine ⟨nofun, ?_⟩
      rintro ⟨a', b', ha', hb', hne⟩
      cases ha.symm.trans ha'
      cases hb.symm.trans hb'
      exact absurd heq (by simp [hne])
    · exact h
  · exact h

end Pair

section Path

variable (here : LocalEntry) (there : RemoteEntry) (policy : DeltaPolicy) (mode : ConflictMode)

theorem decides_path : Decides parse window policy (localMeta here) (remoteMeta there)
        (decideUpload parse here (some there) policy mode window) ∧
      Decides parse window policy (remoteMeta there) (localMeta here)
        (decideDownload parse there (some here) policy mode window false) := by
  cases policy with
  | sizeOnly =>
    exact ⟨⟨fun h => .inr ⟨.inl rfl, (decideBySize_spec (by decide) _ _ mode).1 h⟩, nofun⟩,
      ⟨fun h => .inr ⟨.inl rfl, (decideBySize_spec (by decide) _ _ mode).1 h⟩, nofun⟩⟩
  | mtime | disabled =>
    exact ⟨decides_decideByMtime parse window (by decide) (by decide) nofun,
      decides_decideByMtime parse window (by decide) (by decide) nofun⟩
  | hash | delta =>
    exact ⟨decides_decideByHash parse window
        (decides_decideByMtime parse window (by decide) (by decide) nofun),
      decides_decideByHash parse window
        (decides_decideByMtime parse window (by decide) (by decide) nofun)⟩

/-- The pair is to be compared by its checksums, has both, and they differ. -/
def ChecksumsDiffer : Prop :=
  (policy = .hash ∨ policy = .delta) ∧ ∃ a b, here.sha256 = some a ∧
    remoteSha256Hex there = some b ∧ eqIgnoreAsciiCase a b = false

theorem ChecksumsDiffer.hashesDiffer {here : LocalEntry} {there : RemoteEntry}
    {policy : DeltaPolicy} (h : ChecksumsDiffer here there policy) :
    HashesDiffer (localMeta here) (remoteMeta there) := by
  obtain ⟨-, a, b, ha, hb, hne⟩ := h
  refine ⟨a, b, ha, ?_, hne⟩
  unfold remoteSha256Hex at hb
  split at hb
  · next hhex =>
    exact hhex.trans (Option.ite_none_right_eq_some.mp hb).2
  · cases hb

/-- Not both directions copy, and checksums that differ are no identical pair. -/
def Consistent (upload download : SyncTreeDecision) : Prop :=
  ¬ (upload.action = .copy ∧ download.action = .copy) ∧
    (ChecksumsDiffer here there policy →
      ¬ SkippedAsIdentical upload ∧ ¬ SkippedAsIdentical download)

/-- **The two directions never contradict each other, and a checksum can be overruled.**
They never both copy.  That a pair whose checksums differ is never called identical holds
exactly where the sizes differ as well, or a time orders the pair. -/
theorem decisions_consistent_iff :
    Consistent here there policy (decideUpload parse here (some there) policy mode window)
        (decideDownload parse there (some here) policy mode window false) ↔
      (ChecksumsDiffer here there policy → here.size = there.size →
        Ordered parse window (localMeta here) (remoteMeta there)) := by
  obtain ⟨hup, hdown⟩ := decides_path parse window here there policy mode
  constructor
  · rintro ⟨-, hskips⟩ hdiffer hsize
    by_contra hord
    exact (hskips hdiffer).1 ((hup.identical hdiffer.hashesDiffer hdiffer.1).mpr ⟨hord, hsize⟩)
  · intro hord
    refine ⟨fun ⟨hu, hd⟩ => (hup.copies hu).asymm parse window (hdown.copies hd), ?_⟩
    intro hdiffer
    constructor
    · intro hskip
      obtain ⟨hnot, hsize⟩ := (hup.identical hdiffer.hashesDiffer hdiffer.1).mp hskip
      exact hnot (hord hdiffer hsize)
    · intro hskip
      obtain ⟨hnot, hsize⟩ := (hdown.identical hdiffer.hashesDiffer.symm hdiffer.1).mp hskip
      exact hnot ((hord hdiffer hsize.symm).symm parse window)

end Path

/-- Two files of one size and time with different checksums, under the policy that
compares checksums. -/
theorem decideUpload_skips_changed :
    ChecksumsDiffer ⟨['a'], 1, some "t", some "00"⟩ ⟨['a'], 1, some "t", some "sha256", some "ff"⟩
        .hash ∧
      decideUpload (fun _ => some 0) ⟨['a'], 1, some "t", some "00"⟩
        (some ⟨['a'], 1, some "t", some "sha256", some "ff"⟩) .hash .newer (.seconds 2) =
      ⟨.skip "identical mtime and size", .mtime⟩ := by
  refine ⟨⟨.inl rfl, "00", "ff", rfl, by decide, by decide⟩, by decide⟩

end AeroFtp.Sync
