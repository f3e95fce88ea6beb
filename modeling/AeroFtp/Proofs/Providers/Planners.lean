/-
The planned ranges and parts cut the object into pieces.

The loops carry an offset along.  It is always a cut: `i` quotients and a byte for each of
the remainder's rounds before `i`, or `i` times the size of a part, cut off at the end.
-/
import AeroFtp.Lib.Tiling
import AeroFtp.Providers.MultiThread

namespace AeroFtp.Providers

open List

/-! ### Ranges -/

/-- At most `limit` ranges between the cuts of the object, their lengths equal to a byte. -/
def SpreadsOver (totalSize limit : Nat) (ranges : List (Nat × Nat)) : Prop :=
  ∃ n cut, n ≤ limit ∧ Cuts totalSize n cut ∧
    ranges = (range' 0 n).map (fun i => (cut i, cut (i + 1) - 1)) ∧
    ∀ i < n, ∀ j < n, cut (i + 1) - cut i ≤ cut (j + 1) - cut j + 1

/-- Where range `i` starts. -/
def evenCut (base remainder i : Nat) : Nat := i * base + min i remainder

theorem rangesFrom_eq {base : Nat} (remainder : Nat) (hb : 0 < base) (i left : Nat) :
    rangesFrom base remainder i (evenCut base remainder i) left
      = (range' i left).map fun i =>
        (evenCut base remainder i, evenCut base remainder (i + 1) - 1) := by
  induction left generalizing i with
  | zero => rfl
  | succ left ih =>
    have hn : evenCut base remainder i + (base + if i < remainder then 1 else 0)
        = evenCut base remainder (i + 1) := by
      unfold evenCut
      rw [Nat.succ_mul]
      split
      · omega
      · omega
    rw [rangesFrom, range'_succ, map_cons, if_neg (by omega), hn, ih]

theorem planMultiThreadRanges_spreads {totalSize streams maxStreams : Nat} (hsize : 0 < totalSize)
    (hstreams : 0 < streams) (hmax : 0 < maxStreams) :
    SpreadsOver totalSize (min streams maxStreams)
      (planMultiThreadRanges totalSize streams maxStreams) := by
  unfold planMultiThreadRanges
  rw [if_neg (by omega)]
  dsimp only
  generalize he : min (min streams maxStreams) totalSize = effective
  have hpos : 0 < effective := by omega
  have hb : 0 < totalSize / effective := Nat.div_pos (by omega) hpos
  have hstart : evenCut (totalSize / effective) (totalSize % effective) 0 = 0 := by simp [evenCut]
  have hr := rangesFrom_eq (totalSize % effective) hb 0 effective
  rw [hstart] at hr
  refine ⟨effective, _, by omega, ⟨hstart, ?_, fun i _ => ?_⟩, hr, fun i _ j _ => ?_⟩
  · rw [evenCut, Nat.min_eq_right (Nat.mod_lt _ hpos).le]
    exact Nat.div_add_mod totalSize effective
  · unfold evenCut
    rw [Nat.succ_mul]
    omega
  · unfold evenCut
    rw [Nat.succ_mul, Nat.succ_mul]
    omega

/-! ### Parts -/

/-- At most `maxParts` parts between the cuts of the object, numbered from one, all of this
size but the last, which may be shorter. -/
def FixedParts (totalSize size maxParts : Nat) (parts : List Part) : Prop :=
  ∃ n cut, n ≤ maxParts ∧ Cuts totalSize n cut ∧
    parts = (range' 0 n).map (fun i => ⟨i + 1, cut i, cut (i + 1) - cut i⟩) ∧
    ∀ i < n, cut (i + 1) - cut i ≤ size ∧ (i + 1 < n → cut (i + 1) - cut i = size)

theorem partsFrom_eq {totalSize effective k left : Nat} (hs : k + left < 2 ^ 32)
    (hin : ∀ i < k + left, i * effective < totalSize) :
    partsFrom totalSize effective ((k + 1) % 2 ^ 32) (min (k * effective) totalSize) left
      = (range' k left).map fun i => ⟨i + 1, min (i * effective) totalSize,
            min ((i + 1) * effective) totalSize - min (i * effective) totalSize⟩ := by
  induction left generalizing k with
  | zero => rfl
  | succ left ih =>
    have hk := hin k (by omega)
    have hlen : min effective (totalSize - min (k * effective) totalSize)
        = min ((k + 1) * effective) totalSize - min (k * effective) totalSize := by
      rw [Nat.succ_mul]
      omega
    have hn : min (k * effective) totalSize +
        (min ((k + 1) * effective) totalSize - min (k * effective) totalSize)
        = min ((k + 1) * effective) totalSize := by
      rw [Nat.succ_mul]
      omega
    rw [partsFrom, if_pos (by omega), range'_succ, map_cons, Nat.mod_add_mod]
    dsimp only
    rw [hlen, hn, ih (by omega) fun i hi => hin i (by omega), Nat.mod_eq_of_lt (by omega)]

/-- The effective size is the least one that is large enough for the parts to be few enough. -/
theorem effectivePartSize_isLeast {totalSize partSize maxParts : Nat} (hs : 0 < totalSize)
    (hpart : 0 < partSize) (hmax : 0 < maxParts) :
    IsLeast {size | partSize ≤ size ∧ totalSize ⌈/⌉ size ≤ maxParts}
      (effectivePartSize totalSize partSize maxParts) := by
  have hc {size : Nat} (h : 0 < size) : totalSize ⌈/⌉ size ≤ maxParts ↔
      totalSize ⌈/⌉ maxParts ≤ size := by
    rw [ceilDiv_le_iff_le_mul h, ceilDiv_le_iff_le_mul hmax, Nat.mul_comm]
  unfold effectivePartSize
  split
  next hg =>
    have hpos : 0 < totalSize ⌈/⌉ maxParts := (lt_ceilDiv hmax).mpr (by simpa using hs)
    have hlarge : partSize < totalSize ⌈/⌉ maxParts := by
      rwa [← Nat.not_le, ← hc hpart, Nat.not_le]
    refine ⟨⟨hlarge.le, (hc hpos).mpr le_rfl⟩, ?_⟩
    rintro size ⟨hle, hf⟩
    exact (hc (hpart.trans_le hle)).mp hf
  next hf => exact ⟨⟨le_rfl, Nat.le_of_not_lt hf⟩, fun size h => h.1⟩

theorem planFixedSizeParts_fixed {totalSize partSize maxParts : Nat} (hs : 0 < totalSize)
    (hpart : 0 < partSize) (hmax : 0 < maxParts) (hu32 : maxParts < 2 ^ 32) :
    FixedParts totalSize (effectivePartSize totalSize partSize maxParts) maxParts
      (planFixedSizeParts totalSize partSize maxParts) := by
  obtain ⟨⟨hl, hfew⟩, -⟩ := effectivePartSize_isLeast hs hpart hmax
  unfold planFixedSizeParts
  rw [if_neg (by omega)]
  generalize effectivePartSize totalSize partSize maxParts = effective at hl hfew ⊢
  have hpos : 0 < effective := hpart.trans_le hl
  have hin (i : Nat) (hi : i < totalSize ⌈/⌉ effective) := (lt_ceilDiv hpos).mp hi
  have hr : totalSize ≤ totalSize ⌈/⌉ effective * effective :=
    Nat.mul_comm _ _ ▸ (ceilDiv_le_iff_le_mul hpos).mp le_rfl
  refine ⟨_, _, hfew, cuts_mul hpos hin hr, ?_, fun i hi => ⟨?_, fun hi' => ?_⟩⟩
  · have hparts := @partsFrom_eq totalSize effective 0 (totalSize ⌈/⌉ effective) (by omega)
      (by simpa using hin)
    rwa [Nat.zero_mul, Nat.zero_min] at hparts
  · rw [Nat.succ_mul]
    omega
  · have := hin (i + 1) hi'
    rw [Nat.succ_mul] at this ⊢
    omega

/-- Both planners, for every size and every limits: a plan exists unless one of them is zero. -/
theorem planners_partition (totalSize streams maxStreams partSize maxParts : Nat)
    (hu32 : maxParts < 2 ^ 32) :
    (if totalSize = 0 ∨ streams = 0 ∨ maxStreams = 0 then
        planMultiThreadRanges totalSize streams maxStreams = []
      else
        SpreadsOver totalSize (min streams maxStreams)
          (planMultiThreadRanges totalSize streams maxStreams)) ∧
      (if totalSize = 0 ∨ partSize = 0 ∨ maxParts = 0 then
          planFixedSizeParts totalSize partSize maxParts = []
        else
          FixedParts totalSize (effectivePartSize totalSize partSize maxParts) maxParts
              (planFixedSizeParts totalSize partSize maxParts) ∧
            IsLeast {size | partSize ≤ size ∧ totalSize ⌈/⌉ size ≤ maxParts}
              (effectivePartSize totalSize partSize maxParts)) := by
  constructor
  · split
    next hzero => exact if_pos hzero
    next hpos => exact planMultiThreadRanges_spreads (by omega) (by omega) (by omega)
  · split
    next hzero => exact if_pos hzero
    next hpos =>
      refine ⟨planFixedSizeParts_fixed ?_ ?_ ?_ hu32, effectivePartSize_isLeast ?_ ?_ ?_⟩
      all_goals omega

theorem planners_partition_small :
    SpreadsOver 10 4 (planMultiThreadRanges 10 4 16) ∧
      FixedParts 10 (effectivePartSize 10 2 3) 3 (planFixedSizeParts 10 2 3) := by
  have h := planners_partition 10 4 16 2 3 (by decide)
  exact ⟨h.1, h.2.1⟩

end AeroFtp.Providers
