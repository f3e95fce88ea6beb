/-
When the parts of a multipart upload partition the file.

The parts always reach the end of the file.  What can fail is the other side: a part that
starts at the end or after it has no range.  With as many parts as the hint asks for, the
last one starts inside the file.  When their number is cut to the maximum, the size of a
part is rounded up, and the roundings can add up to more than the last part.
-/
import AeroFtp.Lib.Tiling
import AeroFtp.TransferDag.Multipart

namespace AeroFtp.Dag

/-- There are not too many parts, and cuts of the file give every part its range. -/
def MultipartLayout.Partitions (layout : MultipartLayout) : Prop :=
  layout.totalParts ≤ maxMultipartParts ∧
    ∃ cut, Cuts layout.totalSize layout.totalParts cut ∧
      ∀ i < layout.totalParts, layout.partRange (i + 1) = .ok (cut i, cut (i + 1) - cut i)

section Layout

variable {size parts partSize i : Nat} (hsize : size < 2 ^ 64) (hpos : 0 < partSize)

include hsize hpos

theorem multipartPartByteLen_eq (hi : i < parts) :
    multipartPartByteLen size i parts partSize = min partSize (size - i * partSize) := by
  unfold multipartPartByteLen
  rw [if_neg (by omega)]
  dsimp only
  split
  · omega
  · omega

theorem partitions_iff_last (hparts : 0 < parts) (hmax : parts ≤ maxMultipartParts)
    (hreach : size ≤ parts * partSize) :
    MultipartLayout.Partitions ⟨size, parts, partSize⟩ ↔ (parts - 1) * partSize < size := by
  have hrange (i : Nat) (hi : i < parts) := multipartPartByteLen_eq hsize hpos hi
  constructor
  · rintro ⟨-, cut, -, hcut⟩
    by_contra hge
    have hl := hcut (parts - 1) (Nat.sub_one_lt hparts.ne')
    simp only [MultipartLayout.partRange, Nat.add_sub_cancel,
      hrange _ (Nat.sub_one_lt hparts.ne')] at hl
    rw [if_neg (by omega), if_pos (by omega)] at hl
    cases hl
  · intro hl
    have hin (i : Nat) (hi : i < parts) : i * partSize < size :=
      (Nat.mul_le_mul_right _ (Nat.le_sub_one_of_lt hi)).trans_lt hl
    refine ⟨hmax, _, cuts_mul hpos hin hreach, fun i (hi : i < parts) => ?_⟩
    have := hin i hi
    simp only [MultipartLayout.partRange, Nat.add_sub_cancel, hrange i hi, Nat.succ_mul]
    rw [if_neg (by omega), if_neg (by omega)]
    congr 2
    · omega
    · omega

end Layout

theorem ShapingCapabilities.chunkHint_pos (caps : ShapingCapabilities) : 0 < caps.chunkHint := by
  unfold chunkHint
  cases h : caps.preferredChunkSize.filter (0 < ·) with
  | none => decide
  | some size => simpa using (Option.filter_eq_some_iff.mp h).2

variable {caps : ShapingCapabilities} {fileSize : Nat}

theorem fileSize_pos (h : caps.multipartEligible .upload fileSize = true) : 0 < fileSize := by
  have hh := caps.chunkHint_pos
  simp only [ShapingCapabilities.multipartEligible, Bool.and_eq_true, decide_eq_true_eq] at h
  have ht := h.2
  split at ht
  · omega
  · omega

theorem shapedLayout_eq (h : caps.multipartEligible .upload fileSize = true) :
    ∃ parts partSize, shapedLayout caps fileSize = ⟨fileSize, parts, partSize⟩ ∧
      parts = min (fileSize ⌈/⌉ caps.chunkHint) maxMultipartParts ∧ 0 < parts ∧
      partSize = max caps.chunkHint (fileSize ⌈/⌉ parts) := by
  have hh := caps.chunkHint_pos
  have hp : 0 < fileSize ⌈/⌉ caps.chunkHint :=
    (lt_ceilDiv hh).mpr (by simpa using fileSize_pos h)
  have hmax : 0 < maxMultipartParts := by decide
  refine ⟨_, _, ?_, rfl, by omega, rfl⟩
  simp only [shapedLayout, TransferGraphProfile.resolve, h, if_true, MultipartLayout.fromProfile]
  rw [if_pos (by omega), Nat.max_eq_left hp, Nat.max_eq_left (by omega)]

/-- Unless the number of parts was cut, they partition the file; if it was, they do when
the last part of the rounded-up size still starts inside. -/
theorem shapedLayout_partitions_iff (caps : ShapingCapabilities) (fileSize : Nat)
    (hu64 : fileSize < 2 ^ 64) (hchosen : caps.multipartEligible .upload fileSize = true) :
    (shapedLayout caps fileSize).Partitions ↔
      fileSize ⌈/⌉ caps.chunkHint ≤ maxMultipartParts ∨
        (maxMultipartParts - 1) * (fileSize ⌈/⌉ maxMultipartParts) < fileSize := by
  have hhint := caps.chunkHint_pos
  obtain ⟨parts, partSize, hlayout, hparts, hpos, hsize⟩ := shapedLayout_eq hchosen
  have hreach : fileSize ≤ parts * partSize := (ceilDiv_le_iff_le_mul hpos).mp (by omega)
  rw [hlayout, partitions_iff_last hu64 (by omega) hpos (by omega) hreach]
  by_cases hle : fileSize ⌈/⌉ caps.chunkHint ≤ maxMultipartParts
  · have hall : fileSize ⌈/⌉ parts ≤ caps.chunkHint := by
      rw [ceilDiv_le_iff_le_mul hpos, Nat.mul_comm, ← ceilDiv_le_iff_le_mul hhint]
      omega
    rw [hsize, Nat.max_eq_left hall]
    exact iff_of_true ((lt_ceilDiv hhint).mp (by omega)) (.inl hle)
  · have hcut : parts = maxMultipartParts := by omega
    have hgrown : caps.chunkHint ≤ fileSize ⌈/⌉ maxMultipartParts := by
      have hmore : maxMultipartParts * caps.chunkHint < fileSize := (lt_ceilDiv hhint).mp (by omega)
      by_contra hlt
      have := (ceilDiv_le_iff_le_mul (hcut ▸ hpos)).mp (Nat.le_of_not_le hlt)
      omega
    rw [or_iff_right hle, hsize, hcut, Nat.max_eq_right hgrown]

/-- A provider that asks for parts of one byte. -/
def bytewise : ShapingCapabilities :=
  { multipartUpload := .supported, preferredChunkSize := some 1, multipartThreshold := 0 }

/-- As many bytes as there may be parts. -/
theorem shapedLayout_partitions_iff_bytewise : (shapedLayout bytewise 10000).Partitions :=
  (shapedLayout_partitions_iff bytewise 10000 (by decide) (by decide)).mpr (.inl (by decide))

/-- One byte more, and the parts are of two bytes each: half of them have no range. -/
theorem bytewise_not_partitions : ¬ (shapedLayout bytewise 10001).Partitions := by
  have hlayout : shapedLayout bytewise 10001 = ⟨10001, 10000, 2⟩ := by decide
  rw [hlayout, partitions_iff_last (by decide) (by decide) (by decide) (by decide) (by decide)]
  decide

end AeroFtp.Dag
