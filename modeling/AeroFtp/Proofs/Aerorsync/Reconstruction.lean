/-
Applying a delta gives the source back.

A plan is literal runs and block references, so applying it is reading off, in
order, the bytes each event of the walk stands for -- provided every reference
leads to the block its window was taken for.  `applyDelta_plan` is that statement, for
any events.  What the signature table adds is the proviso: a window was matched
against the hash of a real block of the baseline, so only a collision can make the
two differ.

The streaming path reads the same blocks one at a time.  It agrees with the bulk
path on every plan the engine makes, but the two do not draw the end of the baseline
at the same place: `streaming_agrees_iff` says where they part.
-/
import Mathlib.Tactic.IntervalCases
import AeroFtp.Lib.Tiling
import AeroFtp.Aerorsync.EngineAdapter
import AeroFtp.Proofs.Aerorsync.DeltaEngine

namespace AeroFtp.DeltaEngine

open Greedy List

/-- Block `i` of a file: `n` bytes, fewer for the last one. -/
def blockAt (data : List UInt8) (n i : Nat) : List UInt8 := (data.drop (i * n)).take n

theorem blockAt_eq_extract (data : List UInt8) (n i : Nat) :
    data.extract (i * n) (min (i * n + n) data.length) = blockAt data n i := by
  unfold blockAt
  rw [take_eq_take_iff, length_drop]
  omega

/-! ### The signature table lists the blocks in order -/

section Signatures

variable (strongHash : List UInt8 → Digest)

/-- What the table says about block `i`. -/
def blockSignature (data : List UInt8) (n i : Nat) : BlockSignature :=
  { index := UInt32.ofNat i
    rolling := (RollingChecksum.new (blockAt data n i)).value
    strong := strongHash (blockAt data n i)
    size := UInt32.ofNat (blockAt data n i).length }

theorem signaturesFrom_of_le (data : List UInt8) (n fuel offset : Nat) (index : UInt32)
    (h : data.length ≤ offset) : signaturesFrom strongHash data n fuel offset index = [] := by
  cases fuel with
  | zero => rfl
  | succ fuel => rw [signaturesFrom, if_neg (by omega)]

variable {data : List UInt8} {n : Nat}

theorem signaturesFrom_eq (hn : 0 < n) :
    ∀ (fuel k : Nat), data.length ≤ k * n + fuel →
      signaturesFrom strongHash data n fuel (k * n) (UInt32.ofNat k)
        = (range' k (data.length ⌈/⌉ n - k)).map (blockSignature strongHash data n) := by
  intro fuel
  induction fuel with
  | zero =>
    intro k hle
    have hk : data.length ⌈/⌉ n ≤ k := by
      rw [← Nat.not_lt, lt_ceilDiv hn]
      omega
    rw [Nat.sub_eq_zero_of_le hk]
    rfl
  | succ fuel ih =>
    intro k hle
    by_cases hlt : k * n < data.length
    · have hk : k < data.length ⌈/⌉ n := (lt_ceilDiv hn).mpr hlt
      have hc : data.length ⌈/⌉ n - k = (data.length ⌈/⌉ n - (k + 1)) + 1 := by omega
      have hr : signaturesFrom strongHash data n fuel (min (k * n + n) data.length)
          (UInt32.ofNat k + 1) = (range' (k + 1) (data.length ⌈/⌉ n - (k + 1))).map
            (blockSignature strongHash data n) := by
        have hi : UInt32.ofNat k + 1 = UInt32.ofNat (k + 1) := by simp
        by_cases hf : k * n + n ≤ data.length
        · rw [Nat.min_eq_left hf, hi, ← Nat.succ_mul]
          exact ih (k + 1) (by rw [Nat.succ_mul]; omega)
        · -- The last block is short: the loop stops at the end of the file.
          have hlast : data.length ⌈/⌉ n ≤ k + 1 := by
            rw [← Nat.not_lt, lt_ceilDiv hn, Nat.succ_mul]
            omega
          rw [Nat.min_eq_right (by omega), signaturesFrom_of_le _ _ _ _ _ _ (Nat.le_refl _),
            Nat.sub_eq_zero_of_le hlast]
          rfl
      rw [signaturesFrom, if_pos hlt]
      simp only [blockAt_eq_extract]
      rw [hr, hc]
      rfl
    · have hk : data.length ⌈/⌉ n ≤ k := by
        rw [← Nat.not_lt, lt_ceilDiv hn]
        exact hlt
      rw [signaturesFrom_of_le _ _ _ _ _ _ (by omega), Nat.sub_eq_zero_of_le hk]
      rfl

theorem computeSignatures_eq (hn : 0 < n) :
    (computeSignatures strongHash data n).signatures
      = (range (data.length ⌈/⌉ n)).map (blockSignature strongHash data n) := by
  have h := signaturesFrom_eq strongHash hn data.length 0
    (show data.length ≤ 0 * n + data.length by omega)
  rw [Nat.zero_mul, ← range_eq_range'] at h
  exact h

end Signatures

/-! ### Applying a plan spells out its events -/

/-- Every reference leads to the block its window was taken for. -/
def Faithful (dest : List UInt8) (n : Nat) (es : List (Event UInt8 UInt32)) : Prop :=
  ∀ i w, Event.copy i w ∈ es → i.toNat * n < dest.length ∧ blockAt dest n i.toNat = w

variable {dest w : List UInt8} {n : Nat}

theorem applyOp_copy {i : UInt32} (hlt : i.toNat * n < dest.length)
    (hw : blockAt dest n i.toNat = w) (out : List UInt8) :
    applyOp dest n out (.copyBlock i) = .ok (out ++ w) := by
  simp only [applyOp]
  rw [if_neg (by omega), blockAt_eq_extract, hw]

theorem applyDelta_flush (p out : List UInt8) :
    (flush DeltaOp.literal p).foldlM (applyOp dest n) out = .ok (out ++ p) := by
  cases p with
  | nil =>
    rw [append_nil]
    rfl
  | cons x xs => rfl

theorem applyDelta_plan :
    ∀ (es : List (Event UInt8 UInt32)) (p out : List UInt8), Faithful dest n es →
      (plan .literal .copyBlock p es).foldlM (applyOp dest n) out
        = .ok (out ++ p ++ es.flatMap Event.span) := by
  intro es
  induction es with
  | nil =>
    intro p out _
    rw [plan_nil, applyDelta_flush, flatMap_nil, append_nil]
  | cons e es ih =>
    intro p out hes
    have hr : Faithful dest n es := fun i w hmem => hes i w (mem_cons_of_mem _ hmem)
    cases e with
    | lit x =>
      rw [plan_lit, ih _ _ hr]
      simp [Event.span]
    | copy i w =>
      obtain ⟨hlt, hw⟩ := hes i w mem_cons_self
      rw [plan_copy, foldlM_append, applyDelta_flush]
      show foldlM (applyOp dest n) _ (.copyBlock i :: _) = _
      rw [foldlM_cons, applyOp_copy hlt hw]
      show foldlM (applyOp dest n) _ _ = _
      rw [ih _ _ hr]
      simp [Event.span]

/-! ### What a match in the table means -/

section Matches

variable (strongHash : List UInt8 → Digest)

/-- No window of the source has the strong hash of a block of the baseline it
differs from. -/
def CollisionFree (source dest : List UInt8) (n : Nat) : Prop :=
  ∀ i, i + n ≤ source.length → ∀ j, j * n < dest.length →
    strongHash ((source.drop i).take n) = strongHash (blockAt dest n j) →
      (source.drop i).take n = blockAt dest n j

theorem matchWindow_block (hn : 0 < n)
    (hc : (computeSignatures strongHash dest n).signatures.length < 2 ^ 32) {sig : BlockSignature}
    (h : matchWindow strongHash (computeSignatures strongHash dest n).signatures w = some sig) :
    sig.index.toNat * n < dest.length ∧
      strongHash w = strongHash (blockAt dest n sig.index.toNat) := by
  have hmem := mem_of_find?_eq_some h
  have hp := find?_some h
  rw [computeSignatures_eq strongHash hn] at hmem hc
  rw [length_map, length_range] at hc
  obtain ⟨k, hk, rfl⟩ := mem_map.mp hmem
  have hlt : k < dest.length ⌈/⌉ n := mem_range.mp hk
  have hi : (blockSignature strongHash dest n k).index.toNat = k :=
    Nat.mod_eq_of_lt (Nat.lt_trans hlt hc)
  rw [hi]
  refine ⟨(lt_ceilDiv hn).mp hlt, ?_⟩
  simp only [Bool.and_eq_true, beq_iff_eq] at hp
  exact hp.2.symm

theorem faithful_deltaWalk {source : List UInt8} (hn : 0 < n)
    (hcount : (computeSignatures strongHash dest n).signatures.length < 2 ^ 32)
    (hf : CollisionFree strongHash source dest n) :
    Faithful dest n (deltaWalk strongHash (computeSignatures strongHash dest n) source) := by
  intro i w hmem
  obtain ⟨hex, hhit⟩ := (copy_mem_walk hn).mp hmem
  obtain ⟨sig, hmatch, rfl⟩ := Option.map_eq_some_iff.mp hhit
  obtain ⟨hlt, hs⟩ := matchWindow_block strongHash hn hcount hmatch
  obtain ⟨hlen, pre, post, hw⟩ := hex.window
  have hwin : (source.drop pre.length).take n = w := by
    rw [← hw, append_assoc, drop_left]
    have hlen' : w.length = n := hlen
    rw [← hlen', take_left]
  have hin : pre.length + n ≤ source.length := by
    rw [← hw, length_append, length_append]
    omega
  refine ⟨hlt, ?_⟩
  have hcoll := hf pre.length hin sig.index.toNat hlt
  rw [hwin] at hcoll
  exact (hcoll hs).symm

/-- **The delta rebuilds the source.**  Whatever the baseline and the source are,
applying the instructions `compute_delta` found in the baseline's signatures to the
baseline gives the source, as long as the strong hash does not confuse a window of
the one with a block of the other. -/
theorem applyDelta_computeDelta (source dest : List UInt8) (n : Nat) (hn : 0 < n)
    (hcount : (computeSignatures strongHash dest n).signatures.length < 2 ^ 32)
    (hfree : CollisionFree strongHash source dest n) :
    applyDelta dest (computeDelta strongHash source (computeSignatures strongHash dest n)).1 n
      = .ok source := by
  rw [(computeDelta_spec strongHash source (computeSignatures strongHash dest n) hn).1]
  by_cases hempty : source = []
  · rw [hempty]
    rfl
  · rw [if_neg hempty]
    unfold applyDelta
    rw [applyDelta_plan _ _ _ (faithful_deltaWalk strongHash hn hcount hfree)]
    show Except.ok ([] ++ [] ++ (walk n _ source).flatMap Event.span) = _
    rw [flatMap_span_walk hn]
    rfl

theorem matchWindow_own {data : List UInt8} {k : Nat} (hn : 0 < n) (hk : k * n + n ≤ data.length) :
    matchWindow strongHash (computeSignatures strongHash data n).signatures (blockAt data n k)
      ≠ none := by
  have hmem : blockSignature strongHash data n k
      ∈ (computeSignatures strongHash data n).signatures := by
    rw [computeSignatures_eq strongHash hn]
    exact mem_map_of_mem (mem_range.mpr ((lt_ceilDiv hn).mpr (by omega)))
  unfold matchWindow
  rw [Ne, find?_eq_none]
  intro hnone
  exact hnone _ hmem (by simp [blockSignature])

/-- **Unchanged data is not sent again.**  Against its own signatures a file is one
reference per full block, in whatever way the hashes collide, and a literal for the
bytes behind the last full block, if there are any. -/
theorem computeDelta_unchanged (data : List UInt8) (n : Nat) (hn : 0 < n) (hle : n ≤ data.length) :
    ∃ (blocks : List UInt32) (tail : List UInt8),
      blocks.length = data.length / n ∧ tail.length = data.length % n ∧
        (computeDelta strongHash data (computeSignatures strongHash data n)).1
          = blocks.map .copyBlock ++ (if tail = [] then [] else [.literal tail]) ∧
        (computeDelta strongHash data (computeSignatures strongHash data n)).2.literalBytes
          = data.length % n := by
  have hne : data ≠ [] := ne_nil_of_length_pos (by omega)
  obtain ⟨hops, -, hbytes⟩ :=
    computeDelta_spec strongHash data (computeSignatures strongHash data n) hn
  obtain ⟨blocks, hblocks, hlits, hplan⟩ := plan_walk_of_hits DeltaOp.literal DeltaOp.copyBlock
    (fun w => (matchWindow strongHash (computeSignatures strongHash data n).signatures w).map
      (·.index)) hn data
    fun k hk => mt Option.map_eq_none_iff.mp (matchWindow_own strongHash hn hk)
  refine ⟨blocks, data.drop (data.length / n * n), hblocks, ?_, ?_, hbytes.trans hlits⟩
  · rw [length_drop, Nat.mul_comm, ← Nat.mod_eq_sub]
  · rw [hops, if_neg hne]
    refine hplan.trans (congrArg _ ?_)
    split
    · rw [‹data.drop _ = []›]
      rfl
    · exact flush_of_ne_nil _ ‹_›

/-- A hash that confuses everything, and two blocks and a byte. -/
theorem computeDelta_unchanged_confused :
    (computeDelta (fun _ => Vector.replicate 32 0) [1, 2, 3, 4, 5]
      (computeSignatures (fun _ => Vector.replicate 32 0) [1, 2, 3, 4, 5] 2)).2.literalBytes
        = 1 := by
  obtain ⟨_, _, _, _, _, h⟩ :=
    computeDelta_unchanged (fun _ => Vector.replicate 32 0) [1, 2, 3, 4, 5] 2 (by decide)
      (by decide)
  exact h

end Matches

/-- SHA-256 on the windows and blocks of the example below. -/
def sha256Sample : List UInt8 → Digest
  | [9, 1] => #v[0x1e, 0x41, 0xfa, 0x5a, 0x39, 0x7c, 0x64, 0x9f,
      0xaf, 0xed, 0x65, 0xef, 0xf5, 0x35, 0x96, 0xd2,
      0xa3, 0x9f, 0x11, 0x4b, 0x81, 0x42, 0xac, 0xb5,
      0x3a, 0x5c, 0xb5, 0xa7, 0xb5, 0x64, 0x49, 0x6e]
  | [1, 2] => #v[0xa1, 0x28, 0x71, 0xfe, 0xe2, 0x10, 0xfb, 0x86,
      0x19, 0x29, 0x1e, 0xae, 0xa1, 0x94, 0x58, 0x1c,
      0xbd, 0x25, 0x31, 0xe4, 0xb2, 0x37, 0x59, 0xd2,
      0x25, 0xf6, 0x80, 0x69, 0x23, 0xf6, 0x32, 0x22]
  | [2, 3] => #v[0xee, 0x90, 0x40, 0xf6, 0x5c, 0x34, 0x18, 0x55,
      0xe0, 0x70, 0xff, 0x43, 0x8e, 0xb0, 0xea, 0x9d,
      0x5b, 0x83, 0x1b, 0x2a, 0x2c, 0x27, 0x0f, 0xb7,
      0xef, 0x59, 0x2d, 0x75, 0x04, 0x08, 0xe3, 0xb3]
  | [3] => #v[0x08, 0x4f, 0xed, 0x08, 0xb9, 0x78, 0xaf, 0x4d,
      0x7d, 0x19, 0x6a, 0x74, 0x46, 0xa8, 0x6b, 0x58,
      0x00, 0x9e, 0x63, 0x6b, 0x61, 0x1d, 0xb1, 0x62,
      0x11, 0xb6, 0x5a, 0x9a, 0xad, 0xff, 0x29, 0xc5]
  | _ => Vector.replicate 32 0

/-- A byte in front of an unchanged block, and the ragged last block behind it. -/
theorem applyDelta_computeDelta_shifted :
    applyDelta [1, 2, 3] (computeDelta sha256Sample [9, 1, 2, 3]
      (computeSignatures sha256Sample [1, 2, 3] 2)).1 2 = .ok [9, 1, 2, 3] := by
  refine applyDelta_computeDelta sha256Sample [9, 1, 2, 3] [1, 2, 3] 2 (by decide) (by decide) ?_
  intro i hi j hj
  have hi' : i ≤ 2 := by simpa using hi
  have hj' : j ≤ 1 := by
    have : j * 2 < 3 := hj
    omega
  interval_cases i <;> interval_cases j <;> decide

end AeroFtp.DeltaEngine

/-! ### Applying block by block

Both paths write the same bytes for an instruction they accept.  They differ in what
they accept: the bulk path wants a block to start before the end of the baseline, the
streaming path also takes one that starts at it.
-/

namespace AeroFtp.EngineAdapter

open DeltaEngine List

/-- The bytes an instruction stands for, over the baseline `dest`. -/
def opBytes (dest : List UInt8) (n : Nat) : EngineDeltaOp → List UInt8
  | .copyBlock i => blockAt dest n i.toNat
  | .literal bytes => bytes

/-- Where the blocks a plan refers to start. -/
def copyOffsets (n : Nat) (ops : List EngineDeltaOp) : List Nat :=
  ops.filterMap fun
    | .copyBlock i => some (i.toNat * n)
    | .literal _ => none

@[simp] theorem copyOffsets_copyBlock (n : Nat) (i : UInt32) (ops : List EngineDeltaOp) :
    copyOffsets n (.copyBlock i :: ops) = i.toNat * n :: copyOffsets n ops := rfl

/-- What reading a source has to do to be a source over `dest`. -/
structure Reads {σ : Type} [BaselineSource σ] (baseline : σ) (dest : List UInt8) : Prop where
  inside : ∀ i n : UInt32, n ≠ 0 → i.toNat * n.toNat ≤ dest.length →
    BaselineSource.readBlock baseline i n = .ok (blockAt dest n.toNat i.toNat)
  outside : ∀ i n : UInt32, n ≠ 0 → dest.length < i.toNat * n.toNat →
    ∃ e, BaselineSource.readBlock baseline i n = .error e

theorem baselineBlockBounds_inside {i n : UInt32} {len : Nat} (hn : n ≠ 0)
    (h : i.toNat * n.toNat ≤ len) : baselineBlockBounds i n len
      = .ok (i.toNat * n.toNat, min (i.toNat * n.toNat + n.toNat) len - i.toNat * n.toNat) := by
  unfold baselineBlockBounds
  rw [if_neg hn]
  exact if_neg (by omega)

theorem baselineBlockBounds_outside {i n : UInt32} {len : Nat} (hn : n ≠ 0)
    (h : len < i.toNat * n.toNat) : ∃ e, baselineBlockBounds i n len = .error e := by
  unfold baselineBlockBounds
  rw [if_neg hn]
  exact ⟨_, if_pos h⟩

variable {dest : List UInt8} {n : Nat}

theorem blockAt_eq_nil {i : Nat}
    (h : min (i * n + n) dest.length - i * n = 0) : blockAt dest n i = [] := by
  rw [← length_eq_zero_iff]
  unfold blockAt
  rw [length_take, length_drop]
  omega

variable (dest) in
theorem reads_memory : Reads (MemoryBaseline.mk dest) dest := by
  refine ⟨?_, ?_⟩
  · intro i n hn hle
    show MemoryBaseline.readBlock _ i n = _
    unfold MemoryBaseline.readBlock
    rw [baselineBlockBounds_inside hn hle]
    by_cases hz : min (i.toNat * n.toNat + n.toNat) dest.length - i.toNat * n.toNat = 0
    · simp only [if_pos hz, blockAt_eq_nil hz]
    · have hs :
          i.toNat * n.toNat + (min (i.toNat * n.toNat + n.toNat) dest.length - i.toNat * n.toNat)
          = min (i.toNat * n.toNat + n.toNat) dest.length := by omega
      simp only [if_neg hz, hs, blockAt_eq_extract]
  · intro i n hn hlt
    obtain ⟨e, he⟩ := baselineBlockBounds_outside hn hlt
    refine ⟨e, ?_⟩
    show MemoryBaseline.readBlock _ i n = _
    unfold MemoryBaseline.readBlock
    rw [he]

variable (dest) in
theorem readBlock_file {i n : UInt32} (hn : n ≠ 0) :
    BaselineSource.readBlock (FileBaseline.open dest) i n
      = BaselineSource.readBlock (MemoryBaseline.mk dest) i n := by
  show FileBaseline.readBlock _ i n = MemoryBaseline.readBlock _ i n
  unfold FileBaseline.readBlock FileBaseline.open MemoryBaseline.readBlock
  by_cases hle : i.toNat * n.toNat ≤ dest.length
  · rw [baselineBlockBounds_inside hn hle]
    dsimp only
    rw [if_neg (by omega : ¬ dest.length < _), extract_eq_take_drop, Nat.add_sub_cancel_left]
  · obtain ⟨e, he⟩ := baselineBlockBounds_outside hn (Nat.lt_of_not_le hle)
    rw [he]

variable (dest) in
theorem reads_file : Reads (FileBaseline.open dest) dest where
  inside i n hn hle := (readBlock_file dest hn).trans ((reads_memory dest).inside i n hn hle)
  outside i n hn hlt := by
    rw [readBlock_file dest hn]
    exact (reads_memory dest).outside i n hn hlt

section Streaming

variable {σ : Type} [BaselineSource σ] {baseline : σ} {n : UInt32}

variable (hreads : Reads baseline dest)
include hreads

theorem applyOps_inside (hn : n ≠ 0) :
    ∀ (ops : List EngineDeltaOp) (written : List UInt8) (count : Nat),
      (∀ o ∈ copyOffsets n.toNat ops, o ≤ dest.length) → applyOps baseline n ops written count
        = (written ++ ops.flatMap (opBytes dest n.toNat),
          .ok (count + (ops.flatMap (opBytes dest n.toNat)).length)) := by
  -- Skipping an empty write is writing nothing.
  have hw : ∀ (bytes written : List UInt8) (count : Nat) (ops : List EngineDeltaOp),
      (if bytes.isEmpty then applyOps baseline n ops written count
        else applyOps baseline n ops (written ++ bytes) (count + bytes.length))
      = applyOps baseline n ops (written ++ bytes) (count + bytes.length) := by
    intro bytes written count ops
    cases bytes with
    | nil => simp
    | cons x xs => rfl
  intro ops
  induction ops with
  | nil =>
    intro written count _
    simp [applyOps]
  | cons op ops ih =>
    intro written count hin
    cases op with
    | literal bytes =>
      rw [applyOps, hw, ih _ _ hin]
      simp [opBytes, Nat.add_assoc]
    | copyBlock i =>
      rw [copyOffsets_copyBlock, forall_mem_cons] at hin
      obtain ⟨hi, hrest⟩ := hin
      rw [applyOps, hreads.inside i n hn hi]
      simp only [hw]
      rw [ih _ _ hrest]
      simp [opBytes, Nat.add_assoc]

theorem applyOps_outside (hn : n ≠ 0) :
    ∀ (ops : List EngineDeltaOp) (written : List UInt8) (count : Nat),
      (∃ o ∈ copyOffsets n.toNat ops, dest.length < o) →
      ∃ e, (applyOps baseline n ops written count).2 = .error e := by
  intro ops
  induction ops with
  | nil =>
    rintro written count ⟨o, ho, _⟩
    cases ho
  | cons op ops ih =>
    intro written count hout
    cases op with
    | literal bytes =>
      rw [applyOps]
      split
      · exact ih _ _ hout
      · exact ih _ _ hout
    | copyBlock i =>
      rw [applyOps]
      by_cases hi : i.toNat * n.toNat ≤ dest.length
      · have hrest : ∃ o ∈ copyOffsets n.toNat ops, dest.length < o := by
          obtain ⟨o, ho, hlt⟩ := hout
          rw [copyOffsets_copyBlock, mem_cons] at ho
          rcases ho with rfl | ho
          · omega
          · exact ⟨o, ho, hlt⟩
        rw [hreads.inside i n hn hi]
        dsimp only
        split
        · exact ih _ _ hrest
        · exact ih _ _ hrest
      · obtain ⟨e, he⟩ := hreads.outside i n hn (by omega)
        rw [he]
        exact ⟨e, rfl⟩

theorem applyOps_ok_iff (hn : n ≠ 0) (ops : List EngineDeltaOp) :
    (∃ count, (applyOps baseline n ops [] 0).2 = .ok count)
      ↔ ∀ o ∈ copyOffsets n.toNat ops, o ≤ dest.length := by
  constructor
  · rintro ⟨count, hok⟩
    by_contra hnot
    push Not at hnot
    obtain ⟨e, he⟩ := applyOps_outside hreads hn ops [] 0 hnot
    rw [hok] at he
    cases he
  · intro hin
    rw [applyOps_inside hreads hn ops [] 0 hin]
    exact ⟨_, rfl⟩

end Streaming

theorem applyDelta_inside :
    ∀ (ops : List EngineDeltaOp) (out : List UInt8), (∀ o ∈ copyOffsets n ops, o < dest.length) →
      (ops.map EngineDeltaOp.toDeltaOp).foldlM (applyOp dest n) out
        = .ok (out ++ ops.flatMap (opBytes dest n)) := by
  intro ops
  induction ops with
  | nil =>
    intro out _
    rw [flatMap_nil, append_nil]
    rfl
  | cons op ops ih =>
    intro out hin
    rw [flatMap_cons, ← append_assoc]
    cases op with
    | literal bytes =>
      exact ih (out ++ bytes) hin
    | copyBlock i =>
      rw [copyOffsets_copyBlock, forall_mem_cons] at hin
      obtain ⟨hi, hr⟩ := hin
      show (applyOp dest n out (.copyBlock i) >>= _) = _
      rw [applyOp_copy hi rfl]
      exact ih (out ++ blockAt dest n i.toNat) hr

theorem applyDelta_outside :
    ∀ (ops : List EngineDeltaOp) (out : List UInt8), (∃ o ∈ copyOffsets n ops, dest.length ≤ o) →
      ∃ e, (ops.map EngineDeltaOp.toDeltaOp).foldlM (applyOp dest n) out = .error e := by
  intro ops
  induction ops with
  | nil =>
    rintro out ⟨o, ho, _⟩
    cases ho
  | cons op ops ih =>
    intro out hout
    cases op with
    | literal bytes =>
      exact ih (out ++ bytes) hout
    | copyBlock i =>
      show ∃ e, (applyOp dest n out (.copyBlock i) >>= _) = .error e
      by_cases hi : i.toNat * n < dest.length
      · have hr : ∃ o ∈ copyOffsets n ops, dest.length ≤ o := by
          obtain ⟨o, ho, hle⟩ := hout
          rw [copyOffsets_copyBlock, mem_cons] at ho
          rcases ho with rfl | ho
          · omega
          · exact ⟨o, ho, hle⟩
        rw [applyOp_copy hi rfl]
        exact ih (out ++ blockAt dest n i.toNat) hr
      · simp only [applyOp]
        rw [if_pos (by omega)]
        exact ⟨_, rfl⟩

theorem applyDelta_ok_iff (n : Nat) (ops : List EngineDeltaOp) :
    (∃ out, applyDelta dest (ops.map EngineDeltaOp.toDeltaOp) n = .ok out)
      ↔ ∀ o ∈ copyOffsets n ops, o < dest.length := by
  unfold applyDelta
  constructor
  · rintro ⟨out, hok⟩
    by_contra hnot
    push Not at hnot
    obtain ⟨e, he⟩ := applyDelta_outside ops [] hnot
    rw [hok] at he
    cases he
  · intro hin
    exact ⟨_, applyDelta_inside ops [] hin⟩

/-- Streaming and bulk reconstruction agree: they succeed on the same plans, and then
the writer has received what the bulk path returns. -/
def AgreesWithBulk {σ : Type} [BaselineSource σ] (baseline : σ) (dest : List UInt8)
    (ops : List EngineDeltaOp) (blockSize : Nat) : Prop :=
  ((∃ count, (applyDeltaStreaming baseline ops blockSize).2 = .ok count)
      ↔ ∃ out, applyDelta dest (ops.map EngineDeltaOp.toDeltaOp) blockSize = .ok out) ∧
    ∀ count, (applyDeltaStreaming baseline ops blockSize).2 = .ok count →
      applyDelta dest (ops.map EngineDeltaOp.toDeltaOp) blockSize
        = .ok (applyDeltaStreaming baseline ops blockSize).1

theorem agreesWithBulk_iff {σ : Type} [BaselineSource σ] {baseline : σ}
    (hreads : Reads baseline dest) (ops : List EngineDeltaOp) (hn : 0 < n) (hmax : n < 2 ^ 32) :
    AgreesWithBulk baseline dest ops n
      ↔ (dest.length ∈ copyOffsets n ops → ∃ o ∈ copyOffsets n ops, dest.length < o) := by
  have hsize : (UInt32.ofNat n).toNat = n := Nat.mod_eq_of_lt hmax
  have hne : UInt32.ofNat n ≠ 0 := by
    intro h
    rw [h] at hsize
    simp at hsize
    omega
  have hstr := applyOps_ok_iff hreads hne ops
  have hinside := applyOps_inside hreads hne ops [] 0
  rw [hsize] at hstr hinside
  unfold AgreesWithBulk applyDeltaStreaming
  rw [if_neg (by omega), hstr, applyDelta_ok_iff]
  constructor
  · rintro ⟨hiff, _⟩ hmem
    by_contra hnot
    push Not at hnot
    exact absurd (hiff.mp hnot _ hmem) (Nat.lt_irrefl _)
  · intro hc
    have hlt : (∀ o ∈ copyOffsets n ops, o ≤ dest.length) →
        ∀ o ∈ copyOffsets n ops, o < dest.length := by
      intro hle o ho
      refine Nat.lt_of_le_of_ne (hle o ho) ?_
      rintro rfl
      obtain ⟨o', ho', hgt⟩ := hc ho
      exact absurd (hle o' ho') (by omega)
    refine ⟨⟨hlt, fun h o ho => Nat.le_of_lt (h o ho)⟩, ?_⟩
    intro count hok
    have hle := hstr.mp ⟨count, hok⟩
    rw [hinside hle]
    exact applyDelta_inside ops [] (hlt hle)

/-- **Where the two paths agree.**  Over a baseline in memory or in a file, block by
block reconstruction agrees with the bulk one exactly on the plans that do not refer
to the block just past the end of the baseline, unless they also refer to one further
out, on which both fail. -/
theorem streaming_agrees_iff (dest : List UInt8) (ops : List EngineDeltaOp) (n : Nat) (hn : 0 < n)
    (hmax : n < 2 ^ 32) :
    (AgreesWithBulk (MemoryBaseline.mk dest) dest ops n
        ↔ (dest.length ∈ copyOffsets n ops → ∃ o ∈ copyOffsets n ops, dest.length < o)) ∧
      (AgreesWithBulk (FileBaseline.open dest) dest ops n
        ↔ (dest.length ∈ copyOffsets n ops → ∃ o ∈ copyOffsets n ops, dest.length < o)) :=
  ⟨agreesWithBulk_iff (reads_memory dest) ops hn hmax,
    agreesWithBulk_iff (reads_file dest) ops hn hmax⟩

/-- Two blocks and a literal, the second block ragged. -/
theorem streaming_agrees_ragged :
    AgreesWithBulk (MemoryBaseline.mk [1, 2, 3]) [1, 2, 3]
      [.copyBlock 1, .literal [9], .copyBlock 0] 2 :=
  ((streaming_agrees_iff [1, 2, 3] [.copyBlock 1, .literal [9], .copyBlock 0] 2
    (by decide) (by decide)).1).mpr (by decide)

/-- Block 1 of a baseline that is exactly one block long: the streaming path writes
nothing and succeeds, the bulk path refuses. -/
theorem streaming_disagrees_past_end :
    applyDeltaStreaming (MemoryBaseline.mk [7, 7]) [.copyBlock 1] 2 = ([], .ok 0) ∧
      applyDeltaStreaming (FileBaseline.open [7, 7]) [.copyBlock 1] 2 = ([], .ok 0) ∧
      applyDelta [7, 7] [.copyBlock 1] 2
        = .error "CopyBlock index 1 out of range (dest size: 2)" ∧
      ¬ AgreesWithBulk (MemoryBaseline.mk [7, 7]) [7, 7] [.copyBlock 1] 2 ∧
      ¬ AgreesWithBulk (FileBaseline.open [7, 7]) [7, 7] [.copyBlock 1] 2 := by
  have hbulk : ¬ ∃ out, applyDelta [7, 7] [.copyBlock 1] 2 = .ok out := by
    rintro ⟨out, h⟩
    cases h
  refine ⟨rfl, rfl, rfl, ?_, ?_⟩
  · rintro ⟨hiff, _⟩
    exact hbulk (hiff.mp ⟨0, rfl⟩)
  · rintro ⟨hiff, _⟩
    exact hbulk (hiff.mp ⟨0, rfl⟩)

end AeroFtp.EngineAdapter
