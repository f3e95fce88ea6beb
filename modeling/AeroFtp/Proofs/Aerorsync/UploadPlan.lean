/-
How much of the source an upload plan covers.

The receiver knows its last block is `remainder_length` long; the sender gives every
block the full length and never compares lengths when it matches a window.  So a plan
covers the source, reference for reference, unless a window is taken for the short
last block -- which needs a coincidence of the truncated hash, but no more than that:
leading zeros do not move the rolling checksum.
-/
import Mathlib.Algebra.Order.BigOperators.Group.List
import AeroFtp.Aerorsync.NativeDriver
import AeroFtp.Proofs.Aerorsync.ChunkedPlan

namespace AeroFtp.NativeDriver

open Greedy List EngineAdapter RealWire RollingDeltaPlanProducer

variable {head : SumHead}

/-! ### What a received signature guarantees -/

/-- The bounds `decode_sum_head` checks. -/
structure ValidHead (head : SumHead) : Prop where
  count : 0 ≤ head.count.toInt
  blockLength : 0 ≤ head.blockLength.toInt
  remainder : 0 ≤ head.remainderLength.toInt
  remainder_le : head.remainderLength.toInt ≤ head.blockLength.toInt

variable {n : Nat} {buf : List UInt8}

theorem decodeSumHead_valid
    (h : decodeSumHead buf = .ok (head, n)) : ValidHead head := by
  unfold decodeSumHead at h
  by_cases hlen : buf.length < 16
  · rw [if_pos hlen] at h
    cases h
  · rw [if_neg hlen] at h
    dsimp only at h
    split at h
    · cases h
    · rename_i hc
      split at h
      · cases h
      · rename_i hb
        split at h
        · cases h
        · split at h
          · cases h
          · rename_i hrem
            cases h
            rw [not_not] at hb hrem
            refine ⟨?_, ?_, ?_, ?_⟩
            · exact Int32.le_iff_toInt_le.mp (Int32.not_lt.mp hc)
            · exact Int32.le_iff_toInt_le.mp hb.1
            · exact Int32.le_iff_toInt_le.mp hrem.1
            · exact Int32.le_iff_toInt_le.mp hrem.2

theorem decodeSignature_valid {blocks : List SumBlock}
    (h : decodeSignature buf = .ok ((head, blocks), n)) : ValidHead head := by
  unfold decodeSignature at h
  cases hh : decodeSumHead buf with
  | error e => simp [hh] at h
  | ok r =>
    simp only [hh] at h
    split at h
    · cases h
    · cases h
      exact decodeSumHead_valid hh

/-! ### The length of a plan -/

/-- How long block `i` is in the receiver's baseline. -/
def receiverBlockLength (head : SumHead) (i : UInt32) : Nat :=
  if i.toNat + 1 = head.count.toInt.toNat ∧ head.remainderLength ≠ 0 then
    head.remainderLength.toInt.toNat
  else head.blockLength.toInt.toNat

/-- The bytes an instruction stands for at the receiver. -/
def opLength (head : SumHead) : EngineDeltaOp → Nat
  | .copyBlock i => receiverBlockLength head i
  | .literal bytes => bytes.length

/-- The bytes a plan stands for at the receiver. -/
def planLength (head : SumHead) (ops : List EngineDeltaOp) : Nat := (ops.map (opLength head)).sum

/-- The same for an event. -/
def eventLength (head : SumHead) : Event UInt8 UInt32 → Nat
  | .copy i _ => receiverBlockLength head i
  | .lit _ => 1

theorem planLength_eq (head : SumHead) (ops : List EngineDeltaOp) :
    planLength head ops = ((ops.flatMap opEvents).map (eventLength head)).sum := by
  unfold planLength
  induction ops with
  | nil => rfl
  | cons op ops ih =>
    rw [map_cons, sum_cons, ih, flatMap_cons, map_append, sum_append]
    cases op with
    | copyBlock i => simp [opEvents, opLength, eventLength]
    | literal bytes =>
      induction bytes with
      | nil => rfl
      | cons x xs ihxs =>
        simp only [opEvents, opLength, map_cons, sum_cons, length_cons, eventLength] at ihxs ⊢
        omega

theorem eventLength_bare (head : SumHead) (e : Event UInt8 UInt32) :
    eventLength head (bare e) = eventLength head e := by
  cases e with
  | lit x => rfl
  | copy i w => rfl

private theorem sum_map_eq_iff {β : Type} {f g : β → Nat} {l : List β}
    (h : ∀ e ∈ l, f e ≤ g e) : (l.map f).sum = (l.map g).sum ↔ ∀ e ∈ l, f e = g e := by
  induction l with
  | nil => simp
  | cons x xs ih =>
    obtain ⟨hx, hxs⟩ := forall_mem_cons.mp h
    have hle : (xs.map f).sum ≤ (xs.map g).sum := sum_le_sum hxs
    rw [map_cons, map_cons, sum_cons, sum_cons, forall_mem_cons, ← ih hxs]
    omega

/-! ### A reference is short only to the last block -/

theorem receiverBlockLength_le (hv : ValidHead head) (i : UInt32) :
    receiverBlockLength head i ≤ head.blockLength.toInt.toNat := by
  have h := hv.remainder_le
  unfold receiverBlockLength
  split
  · omega
  · exact Nat.le_refl _

theorem receiverBlockLength_eq_iff (hv : ValidHead head) (i : UInt32) :
    receiverBlockLength head i = head.blockLength.toInt.toNat ↔
      (i.toNat + 1 = head.count.toInt.toNat →
        head.remainderLength = 0 ∨ head.remainderLength = head.blockLength) := by
  have hrem := hv.remainder
  have hle := hv.remainder_le
  unfold receiverBlockLength
  by_cases hlast : i.toNat + 1 = head.count.toInt.toNat
  · by_cases hz : head.remainderLength = 0
    · simp [hz]
    · rw [if_pos ⟨hlast, hz⟩]
      constructor
      · intro heq _
        refine .inr (Int32.toInt_inj.mp ?_)
        omega
      · intro h
        rcases h hlast with h | h
        · exact absurd h hz
        · rw [h]
  · rw [if_neg (fun h => hlast h.1)]
    exact ⟨fun _ h => absurd h hlast, fun _ => rfl⟩

variable (hashes : HashFns) (algo : BlockStrongAlgo)

theorem planLength_run (head : SumHead)
    (sigs : List EngineSignatureBlock) (hn : 0 < n) (chunks : List (List UInt8 × Bool)) :
    planLength head ((withStrongAlgo n sigs algo).run hashes chunks).2
      = ((walk n (matchIndex hashes algo sigs) (chunks.map Prod.fst).flatten).map
        (eventLength head)).sum := by
  obtain ⟨_, _, hev, _, _⟩ := run_spec hashes sigs algo hn chunks
  rw [planLength_eq, hev, map_map]
  congr 1
  exact map_congr_left fun e _ => eventLength_bare head e

/-- Whatever the signatures are, a plan is as long as the source if and only if no
reference to a short last block is in it. -/
theorem planLength_run_iff
    (hv : ValidHead head) (hlen : 0 < head.blockLength) (sigs : List EngineSignatureBlock)
    (chunks : List (List UInt8 × Bool)) :
    let blockSize := head.blockLength.toInt.toNat
    let source := (chunks.map Prod.fst).flatten
    planLength head
        ((withStrongAlgo blockSize sigs algo).run hashes chunks).2
        = source.length
      ↔ (head.remainderLength = 0 ∨ head.remainderLength = head.blockLength ∨
        ∀ w, Examines blockSize (matchIndex hashes algo sigs) source w →
          ∀ i, matchIndex hashes algo sigs w = some i →
            i.toNat + 1 ≠ head.count.toInt.toNat) := by
  intro blockSize source
  have hn : 0 < blockSize := by
    have := Int32.lt_iff_toInt_lt.mp hlen
    have hz : (0 : Int32).toInt = 0 := rfl
    show 0 < head.blockLength.toInt.toNat
    omega
  have hs : source.length
      = ((walk blockSize (matchIndex hashes algo sigs) source).map (·.span.length)).sum := by
    conv_lhs => rw [← @flatMap_span_walk UInt8 UInt32 blockSize
      (matchIndex hashes algo sigs) hn source]
    rw [length_flatMap]
  have hcopy : ∀ i w, .copy i w ∈ walk blockSize (matchIndex hashes algo sigs) source →
      w.length = blockSize := by
    intro i w hmem
    exact ((copy_mem_walk hn).mp hmem).1.window.1
  have hb : ∀ e ∈ walk blockSize (matchIndex hashes algo sigs) source,
      eventLength head e ≤ e.span.length := by
    intro e he
    cases e with
    | lit x => exact Nat.le_refl 1
    | copy i w =>
      show receiverBlockLength head i ≤ w.length
      rw [hcopy i w he]
      exact receiverBlockLength_le hv i
  rw [planLength_run hashes algo head sigs hn chunks, hs, sum_map_eq_iff hb]
  constructor
  · intro heq
    by_cases hf : head.remainderLength = 0 ∨ head.remainderLength = head.blockLength
    · rcases hf with h | h
      · exact .inl h
      · exact .inr (.inl h)
    · refine .inr (.inr ?_)
      intro w hex i hi hlast
      have hmem := (copy_mem_walk hn).mpr ⟨hex, hi⟩
      have hlength : receiverBlockLength head i = w.length := heq _ hmem
      rw [hcopy i w hmem] at hlength
      exact hf ((receiverBlockLength_eq_iff hv i).mp hlength hlast)
  · intro hcond e he
    cases e with
    | lit x => rfl
    | copy i w =>
      show receiverBlockLength head i = w.length
      rw [hcopy i w he]
      refine (receiverBlockLength_eq_iff hv i).mpr ?_
      intro hlast
      rcases hcond with h | h | h
      · exact .inl h
      · exact .inr h
      · obtain ⟨hex, hi⟩ := (copy_mem_walk hn).mp he
        exact absurd hlast (h w hex i hi)

/-- **When an upload plan covers the source.**  For every received signature, every
source and every way it is read, the literals of the plan and the receiver's blocks
it refers to add up to the source if and only if the last block is full, or no window
the planner asks about is answered by the last block. -/
theorem uploadPlan_covers_iff (buf : List UInt8) (head : SumHead) (blocks : List SumBlock) (n : Nat)
    (hreceived : decodeSignature buf = .ok ((head, blocks), n)) (hlen : 0 < head.blockLength)
    (chunks : List (List UInt8 × Bool)) :
    let blockSize := head.blockLength.toInt.toNat
    let source := (chunks.map Prod.fst).flatten
    ∃ sigs, AerorsyncDriver.wireSigsToEngine ⟨some head, blocks⟩ = .ok sigs ∧
      (planLength head
          ((withStrongAlgo blockSize sigs algo).run hashes chunks).2
          = source.length
        ↔ (head.remainderLength = 0 ∨ head.remainderLength = head.blockLength ∨
          ∀ w, Examines blockSize (matchIndex hashes algo sigs) source w →
            ∀ i, matchIndex hashes algo sigs w = some i →
              i.toNat + 1 ≠ head.count.toInt.toNat)) := by
  intro blockSize source
  have hvalid := decodeSignature_valid hreceived
  exact ⟨_, rfl, planLength_run_iff hashes algo hvalid hlen _ chunks⟩

/-- MD5 on the byte strings of the two examples below; no other hash is asked for. -/
def md5Sample : HashFns :=
  { sha256 := fun _ => Vector.replicate 32 0
    xxh3_128 := fun _ => 0
    xxh3_128_with_seed := fun _ _ => 0
    xxh64 := fun _ _ => 0
    xxh3_64_with_seed := fun _ _ => 0
    md5 := fun
      | [1, 84, 19] => #v[0x63, 0xd8, 0xe6, 0x5d, 0x66, 0x71, 0x24, 0x4d,
      0x85, 0xa2, 0x2b, 0x58, 0xc0, 0x13, 0xff, 0x73]
      | [0, 1, 84, 19] => #v[0x63, 0xd8, 0xfd, 0x4b, 0x8a, 0xe3, 0xb6, 0xd8,
      0x16, 0x3b, 0xc2, 0x9d, 0xde, 0x71, 0xbe, 0xdc]
      | _ => Vector.replicate 16 0
    md4 := fun _ => Vector.replicate 16 0
    sha1 := fun _ => Vector.replicate 20 0 }

/-- One block `[1, 84, 19]` that is full, behind a new first byte. -/
theorem uploadPlan_covers_full_block :
    ∃ sigs, AerorsyncDriver.wireSigsToEngine
        ⟨some ⟨1, 3, 2, 0⟩, [⟨0x00be0068, [0x63, 0xd8]⟩]⟩ = .ok sigs ∧
      planLength ⟨1, 3, 2, 0⟩ ((RollingDeltaPlanProducer.withStrongAlgo 3 sigs
        (.md5 0 true)).run md5Sample [([9, 1], true), ([84, 19], false)]).2 = 4 := by
  obtain ⟨sigs, hsigs, hiff⟩ := uploadPlan_covers_iff md5Sample (.md5 0 true)
    [1, 0, 0, 0, 3, 0, 0, 0, 2, 0, 0, 0, 0, 0, 0, 0, 0x68, 0, 0xbe, 0, 0x63, 0xd8]
    ⟨1, 3, 2, 0⟩ [⟨0x00be0068, [0x63, 0xd8]⟩] 22 (by decide) (by decide)
    [([9, 1], true), ([84, 19], false)]
  exact ⟨sigs, hsigs, hiff.mpr (.inl rfl)⟩

/-- The receiver's only block is `[1, 84, 19]`, one byte short of the block length, and
two bytes of MD5 are on the wire.  The source is that block behind a zero byte: both
checksums agree, and the plan is the block alone, three bytes for a source of four. -/
theorem uploadPlan_short_last_block :
    decodeSignature
        [1, 0, 0, 0, 4, 0, 0, 0, 2, 0, 0, 0, 3, 0, 0, 0, 0x68, 0, 0xbe, 0, 0x63, 0xd8]
        = .ok ((⟨1, 4, 2, 3⟩, [⟨0x00be0068, [0x63, 0xd8]⟩]), 22) ∧
      ∃ sigs, AerorsyncDriver.wireSigsToEngine
          ⟨some ⟨1, 4, 2, 3⟩, [⟨0x00be0068, [0x63, 0xd8]⟩]⟩ = .ok sigs ∧
        ((RollingDeltaPlanProducer.withStrongAlgo 4 sigs (.md5 0 true)).run md5Sample
          [([0, 1, 84, 19], false)]).2 = [.copyBlock 0] ∧
        planLength ⟨1, 4, 2, 3⟩ ((RollingDeltaPlanProducer.withStrongAlgo 4 sigs
          (.md5 0 true)).run md5Sample [([0, 1, 84, 19], false)]).2 = 3 ∧
        planLength ⟨1, 4, 2, 3⟩ ((RollingDeltaPlanProducer.withStrongAlgo 4 sigs
          (.md5 0 true)).run md5Sample [([0, 1, 84, 19], false)]).2
          ≠ ([0, 1, 84, 19] : List UInt8).length :=
  ⟨by decide, _, rfl, by decide, by decide, by decide⟩

end AeroFtp.NativeDriver
