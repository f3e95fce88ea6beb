/-
What the chunk-fed planner does with one chunk.

Between two chunks a producer has settled a prefix of the source and holds the rest
in its buffer.  `Fed` says this with `Greedy.advance`: the buffer is what `advance`
leaves of everything fed so far, and the counters are those of the events it settled.
One chunk extends it (`driveChunk_fed`), a flush keeps it, and `finalize` turns the
rest into literals, which is how the walk ends.  Where the chunks were cut drops out,
because `advance_append` holds at every cut.
-/
import AeroFtp.Aerorsync.EngineAdapter
import AeroFtp.Proofs.Aerorsync.DeltaEngine

namespace AeroFtp.EngineAdapter

open Greedy List Option DeltaEngine EngineDeltaOp

section Matching

variable (hashes : HashFns)

/-- The signature a window is taken for: the first whose rolling checksum is the
window's and whose strong prefix is confirmed. -/
def matchBlock (algo : BlockStrongAlgo) (sigs : List EngineSignatureBlock)
    (window : List UInt8) : Option EngineSignatureBlock :=
  if algo = .unknown then none
  else
    sigs.find? fun sig => sig.rolling == (RollingChecksum.new window).value &&
      RollingDeltaPlanProducer.confirms (algo.digest hashes window) sig

/-- The block index a window is replaced by. -/
def matchIndex (algo : BlockStrongAlgo) (sigs : List EngineSignatureBlock)
    (window : List UInt8) : Option UInt32 :=
  (matchBlock hashes algo sigs window).map (·.index)

end Matching

namespace RollingDeltaPlanProducer

/-! ### A rolling hit is the first confirmed signature -/

abbrev windowSum (p : RollingDeltaPlanProducer) : UInt32 := (RollingChecksum.new p.window).value

section Hits

variable (hashes : HashFns) {p : RollingDeltaPlanProducer}

variable (hlook : p.lookup = buildLookup (p.signatures.map (·.rolling)))
include hlook

theorem findMatch_bind :
    (p.findMatch hashes p.windowSum).bind (p.signatures[·]?)
      = matchBlock hashes p.strongAlgo p.signatures p.window := by
  have hs := (buildLookup_spec (·.rolling) p.signatures p.windowSum).2
  unfold findMatch matchBlock
  by_cases hu : p.strongAlgo = .unknown
  · rw [if_pos hu]
    cases p.lookup p.windowSum with
    | none => rfl
    | some candidates => simp only [if_pos hu, bind_none]
  · rw [if_neg hu]
    have hf : (p.signatures.find? fun sig =>
        sig.rolling == p.windowSum && confirms (p.strongAlgo.digest hashes p.window) sig)
        = (((p.lookup p.windowSum).getD []).filterMap (p.signatures[·]?)).find?
          (confirms (p.strongAlgo.digest hashes p.window)) := by
      rw [hlook, hs, find?_filter]
      simp only [Bool.decide_and, Bool.decide_eq_true]
    rw [hf]
    cases p.lookup p.windowSum with
    | none => rfl
    | some candidates =>
      simp only [if_neg hu, getD_some]
      exact find?_filterMap.symm

theorem findMatch_some {idx : Nat} (h : p.findMatch hashes p.windowSum = some idx) :
    matchIndex hashes p.strongAlgo p.signatures p.window
      = some (((p.signatures[idx]?).map (·.index)).getD 0) := by
  have hb := findMatch_bind hashes hlook
  rw [h, bind_some] at hb
  unfold matchIndex
  rw [← hb]
  cases hidx : p.signatures[idx]? with
  | some sig => rfl
  | none =>
    -- A candidate that names no signature is never confirmed.
    unfold findMatch at h
    cases hcand : p.lookup p.windowSum with
    | none => simp [hcand] at h
    | some candidates =>
      rw [hcand] at h
      dsimp only at h
      split at h
      · cases h
      · have hconf := find?_some h
        rw [hidx] at hconf
        cases hconf

theorem findMatch_none (h : p.findMatch hashes p.windowSum = none) :
    matchIndex hashes p.strongAlgo p.signatures p.window = none := by
  have hb := findMatch_bind hashes hlook
  rw [h] at hb
  unfold matchIndex
  rw [← hb]
  rfl

end Hits

/-! ### Flushing -/

theorem flushLiteral_out (p : RollingDeltaPlanProducer) (out : List EngineDeltaOp) :
    (p.flushLiteral out).2 = out ++ flush .literal p.literalBuf := by
  unfold flushLiteral
  cases h : p.literalBuf with
  | nil => simp
  | cons x xs => rfl

theorem flushLiteral_state (p : RollingDeltaPlanProducer) (out : List EngineDeltaOp) :
    (p.flushLiteral out).1 = { p with
      stats := { p.stats with literalBytes := p.stats.literalBytes + p.literalBuf.length }
      literalBuf := []
      hasEmitted := p.hasEmitted || !p.literalBuf.isEmpty } := by
  unfold flushLiteral
  cases h : p.literalBuf with
  | nil =>
    cases p
    simp_all
  | cons x xs => simp

/-! ### The loop of `drive_chunk` advances -/

/-- The window's checksum, if there is one, is up to date. -/
structure InSync (p : RollingDeltaPlanProducer) : Prop where
  lookup : p.lookup = buildLookup (p.signatures.map (·.rolling))
  pos : p.pos ≤ p.sourceBuf.length
  rolling : ∀ r, p.rolling = some r →
    p.pos + p.blockSize ≤ p.sourceBuf.length ∧ r = .new p.window

/-- What driving did: the events it settled and the bytes it left undecided. -/
structure Advanced (p q : RollingDeltaPlanProducer) (es : List (Event UInt8 UInt32))
    (rest : List UInt8) : Prop where
  blockSize : q.blockSize = p.blockSize
  signatures : q.signatures = p.signatures
  strongAlgo : q.strongAlgo = p.strongAlgo
  sourceBuf : q.sourceBuf = p.sourceBuf
  finalized : q.finalized = p.finalized
  consumed : q.stats.sourceBytesConsumed = p.stats.sourceBytesConsumed
  inSync : InSync q
  undecided : q.sourceBuf.drop q.pos = rest
  literalBuf : q.literalBuf = (emit EngineDeltaOp.literal .copyBlock p.literalBuf es).2
  copyBlocks : q.stats.copyBlocks = p.stats.copyBlocks + UInt32.ofNat (copyCount es)
  literalBytes : q.stats.literalBytes + q.literalBuf.length
    = p.stats.literalBytes + p.literalBuf.length + litCount es

section Loop

variable (hashes : HashFns)

/-- The matcher a producer walks with. -/
abbrev hit (p : RollingDeltaPlanProducer) : List UInt8 → Option UInt32 :=
  matchIndex hashes p.strongAlgo p.signatures

theorem window_eq_take (p : RollingDeltaPlanProducer) :
    p.window = (p.sourceBuf.drop p.pos).take p.blockSize := by
  unfold window
  rw [extract_eq_take_drop, Nat.add_sub_cancel_left]

variable {p : RollingDeltaPlanProducer}

theorem initRolling_eq (hs : InSync p) :
    p.initRolling = if p.blockSize ≤ (p.sourceBuf.drop p.pos).length
      then some (.new p.window) else none := by
  unfold initRolling
  rw [length_drop]
  cases hr : p.rolling with
  | none => rfl
  | some r =>
    obtain ⟨hle, hnew⟩ := hs.rolling r hr
    rw [hnew, if_pos (by omega)]

theorem copy_advanced (hs : InSync p) (hle : p.blockSize ≤ (p.sourceBuf.drop p.pos).length)
    {idx : Nat} (out : List EngineDeltaOp) : Advanced p (p.copy idx out).1
      [.copy (((p.signatures[idx]?).map (·.index)).getD 0) p.window]
      (p.sourceBuf.drop (p.pos + p.blockSize)) := by
  have hpos := hs.pos
  rw [length_drop] at hle
  simp only [copy, flushLiteral_state]
  refine ⟨rfl, rfl, rfl, rfl, rfl, rfl, ⟨hs.lookup, ?_, ?_⟩, rfl, rfl, ?_, ?_⟩
  · show p.pos + p.blockSize ≤ p.sourceBuf.length
    omega
  · intro r hr
    cases hr
  · rfl
  · rfl

theorem copy_out (p : RollingDeltaPlanProducer) (idx : Nat) (out : List EngineDeltaOp) :
    (p.copy idx out).2 = out ++ (emit .literal .copyBlock p.literalBuf
      [.copy (((p.signatures[idx]?).map (·.index)).getD 0) p.window]).1 := by
  simp only [copy, flushLiteral_state, flushLiteral_out]
  simp [emit]

theorem roll_advanced (hs : InSync p) (hn : 0 < p.blockSize)
    {x : UInt8} {xs : List UInt8} (hbuf : p.sourceBuf.drop p.pos = x :: xs)
    (hlt : p.blockSize < (x :: xs).length) : Advanced p (p.roll (.new p.window)) [.lit x] xs := by
  obtain ⟨m, hm⟩ := Nat.exists_eq_succ_of_ne_zero (Nat.ne_of_gt hn)
  have hlen : (x :: xs).length = p.sourceBuf.length - p.pos := by
    rw [← hbuf, length_drop]
  have hget : ∀ k, p.sourceBuf[p.pos + k]? = (x :: xs)[k]? := by
    intro k
    rw [← hbuf, getElem?_drop]
  have hold : p.sourceBuf.getD p.pos 0 = x := by
    rw [getD_eq_getElem?_getD, ← Nat.add_zero p.pos, hget 0]
    rfl
  have hxs : p.sourceBuf.drop (p.pos + 1) = xs := by
    rw [← drop_drop, hbuf]
    rfl
  have hnew : xs[m]? = some (p.sourceBuf.getD (p.pos + p.blockSize) 0) := by
    have hk : (x :: xs)[p.blockSize]? = xs[m]? := by rw [hm]; rfl
    have hin : m < xs.length := by
      rw [length_cons] at hlt
      omega
    rw [getD_eq_getElem?_getD, hget, hk, getElem?_eq_getElem hin]
    rfl
  refine ⟨rfl, rfl, rfl, rfl, rfl, rfl, ⟨hs.lookup, ?_, ?_⟩, hxs, ?_, ?_, ?_⟩
  · show p.pos + 1 ≤ p.sourceBuf.length
    omega
  · intro r hr
    refine ⟨?_, ?_⟩
    · show p.pos + 1 + p.blockSize ≤ p.sourceBuf.length
      omega
    · cases hr
      rw [window_eq_take, window_eq_take, hbuf, hold]
      show _ = RollingChecksum.new ((p.sourceBuf.drop (p.pos + 1)).take p.blockSize)
      rw [hxs, hm]
      rw [hm] at hnew
      exact RollingChecksum.roll_window hnew
  · show p.literalBuf ++ [p.sourceBuf.getD p.pos 0] = p.literalBuf ++ [x]
    rw [hold]
  · simp [roll, copyCount]
    rfl
  · rw [litCount_lit]
    simp only [roll, length_append, length_singleton, litCount, countP_nil]
    omega

theorem Advanced.trans {p q r : RollingDeltaPlanProducer} {es fs : List (Event UInt8 UInt32)}
    {mid rest : List UInt8} (h1 : Advanced p q es mid) (h2 : Advanced q r fs rest) :
    Advanced p r (es ++ fs) rest := by
  refine ⟨h2.blockSize.trans h1.blockSize, h2.signatures.trans h1.signatures,
    h2.strongAlgo.trans h1.strongAlgo, h2.sourceBuf.trans h1.sourceBuf,
    h2.finalized.trans h1.finalized, h2.consumed.trans h1.consumed, h2.inSync, h2.undecided,
    ?_, ?_, ?_⟩
  · rw [emit_append, h2.literalBuf, h1.literalBuf]
  · rw [h2.copyBlocks, h1.copyBlocks, copyCount_append, UInt32.ofNat_add, UInt32.add_assoc]
  · rw [h2.literalBytes, h1.literalBytes, litCount_append, Nat.add_assoc]

theorem advanced_window (hs : InSync p) (hle : p.blockSize ≤ (p.sourceBuf.drop p.pos).length) :
    Advanced p { p with rolling := some (.new p.window) } []
      (p.sourceBuf.drop p.pos) := by
  have hpos := hs.pos
  rw [length_drop] at hle
  refine ⟨rfl, rfl, rfl, rfl, rfl, rfl, ⟨hs.lookup, hpos, ?_⟩, rfl, rfl, ?_, rfl⟩
  · intro r hr
    cases hr
    refine ⟨?_, rfl⟩
    show p.pos + p.blockSize ≤ p.sourceBuf.length
    omega
  · simp [copyCount]

/-- One iteration: it breaks where `advance` has nothing to settle, and otherwise
moves on and settles one event. -/
theorem driveStep_spec {q : RollingDeltaPlanProducer} (hn : 0 < q.blockSize) (hs : InSync q)
    (hle : q.blockSize ≤ (q.sourceBuf.drop q.pos).length) (out : List EngineDeltaOp) :
    let undecided := q.sourceBuf.drop q.pos
    (q.driveStep hashes (.new q.window) out = none ∧
        advance q.blockSize (q.hit hashes) undecided = ([], undecided)) ∨
      ∃ next e rest,
        q.driveStep hashes (.new q.window) out
          = some (next, out ++ (emit .literal .copyBlock q.literalBuf [e]).1) ∧
        q.pos < next.pos ∧ Advanced q next [e] rest ∧
        advance q.blockSize (q.hit hashes) undecided
          = (e :: (advance q.blockSize (q.hit hashes) rest).1,
            (advance q.blockSize (q.hit hashes) rest).2) := by
  intro undecided
  unfold driveStep
  cases hmatch : q.findMatch hashes q.windowSum with
  | some idx =>
    have hindex := findMatch_some hashes hs.lookup hmatch
    rw [window_eq_take] at hindex
    refine .inr ⟨_, _, _, congrArg some (Prod.ext rfl (copy_out q idx out)), ?_,
      copy_advanced hs hle out, ?_⟩
    · simp only [copy, flushLiteral_state]
      omega
    · rw [advance_hit hn hle hindex, window_eq_take, drop_drop]
  | none =>
    have hmiss := findMatch_none hashes hs.lookup hmatch
    rw [window_eq_take] at hmiss
    by_cases hw : q.sourceBuf.length - q.pos < q.blockSize + 1
    · have heq : undecided.length = q.blockSize := by
        rw [length_drop] at hle ⊢
        omega
      rw [take_of_length_le (Nat.le_of_eq heq)] at hmiss
      exact Or.inl ⟨if_pos hw, advance_wait heq hmiss⟩
    · cases hr : q.sourceBuf.drop q.pos with
      | nil =>
        rw [hr] at hle
        simp only [length_nil] at hle
        omega
      | cons x xs =>
        have hlt : q.blockSize < (x :: xs).length := by
          rw [← hr, length_drop]
          omega
        rw [hr] at hmiss
        refine .inr ⟨_, .lit x, xs, ?_, Nat.lt_succ_self q.pos, roll_advanced hs hn hr hlt, ?_⟩
        · rw [if_neg hw]
          simp [emit]
        · show advance q.blockSize (q.hit hashes) (q.sourceBuf.drop q.pos) = _
          rw [hr]
          exact advance_miss hlt hmiss

/-- **What the loop of `drive_chunk` does.**  With enough fuel it settles what
`advance` settles of the undecided bytes, and emits the instructions these events
complete. -/
theorem driveLoop_spec :
    ∀ (fuel : Nat) (p : RollingDeltaPlanProducer) (out : List EngineDeltaOp),
      0 < p.blockSize → InSync p → p.sourceBuf.length < p.pos + fuel →
      let step := advance p.blockSize (p.hit hashes) (p.sourceBuf.drop p.pos)
      Advanced p (driveLoop hashes fuel p out).1 step.1 step.2 ∧
        (driveLoop hashes fuel p out).2
          = out ++ (emit .literal .copyBlock p.literalBuf step.1).1 := by
  intro fuel
  induction fuel with
  | zero =>
    intro p out _ hsync hf
    have := hsync.pos
    omega
  | succ fuel ih =>
    intro p out hn hsync hf
    rw [driveLoop, initRolling_eq hsync]
    by_cases hle : p.blockSize ≤ (p.sourceBuf.drop p.pos).length
    · have hwin := advanced_window hsync hle
      rw [if_pos hle]
      dsimp only
      rcases driveStep_spec hashes
          (q := { p with rolling := some (.new p.window) }) hn hwin.inSync hle out with
        ⟨hb, hadv⟩ | ⟨next, e, rest, hnext, hpos, hone, hadv⟩
      · -- The window misses and the byte behind it has not arrived.
        have hb' : driveStep hashes { p with rolling := some (.new p.window) }
            (.new p.window) out = none := hb
        have hadv' : advance p.blockSize (p.hit hashes) (p.sourceBuf.drop p.pos)
            = ([], p.sourceBuf.drop p.pos) := hadv
        rw [hb', hadv']
        exact ⟨hwin, by simp [emit]⟩
      · have hnext' : driveStep hashes { p with rolling := some (.new p.window) }
            (.new p.window) out
            = some (next, out ++ (emit .literal .copyBlock p.literalBuf [e]).1) := hnext
        have hadv' : advance p.blockSize (p.hit hashes) (p.sourceBuf.drop p.pos)
            = (e :: (advance p.blockSize (p.hit hashes) rest).1,
              (advance p.blockSize (p.hit hashes) rest).2) := hadv
        have hstep := hwin.trans hone
        have hhit : next.hit hashes = p.hit hashes := by
          unfold hit
          rw [hstep.strongAlgo, hstep.signatures]
        have hm : p.pos < next.pos := hpos
        obtain ⟨hr, hout⟩ := ih next (out ++ (emit .literal .copyBlock p.literalBuf [e]).1)
          (by rw [hstep.blockSize]; exact hn) hstep.inSync
          (by rw [hstep.sourceBuf]; omega)
        rw [hstep.undecided, hstep.blockSize, hhit] at hr hout
        rw [hnext', hadv']
        refine ⟨hstep.trans hr, ?_⟩
        show (driveLoop hashes fuel next _).2 = _
        rw [hout, hstep.literalBuf, append_assoc]
        exact congrArg (out ++ ·) (congrArg Prod.fst
          (emit_append literal copyBlock p.literalBuf [e] _)).symm
    · -- The window is not complete.
      rw [if_neg hle, advance_short (by omega)]
      refine ⟨⟨rfl, rfl, rfl, rfl, rfl, rfl, hsync, rfl, rfl, ?_, rfl⟩, ?_⟩
      · simp [copyCount]
      · simp [emit]

end Loop

/-! ### Between two chunks -/

/-- What a producer holds after it was fed `s`: the buffer is what `advance` leaves of
`s`, and the counters are those of the events it settled. -/
structure Fed (hashes : HashFns) (n : Nat) (sigs : List EngineSignatureBlock)
    (algo : BlockStrongAlgo) (s : List UInt8) (p : RollingDeltaPlanProducer) : Prop where
  blockSize : p.blockSize = n
  signatures : p.signatures = sigs
  strongAlgo : p.strongAlgo = algo
  finalized : p.finalized = false
  pos : p.pos = 0
  inSync : InSync p
  consumed : p.stats.sourceBytesConsumed = s.length
  sourceBuf : p.sourceBuf = (advance n (matchIndex hashes algo sigs) s).2
  copyBlocks : p.stats.copyBlocks
    = UInt32.ofNat (copyCount (advance n (matchIndex hashes algo sigs) s).1)
  literalBytes : p.stats.literalBytes + p.literalBuf.length
    = litCount (advance n (matchIndex hashes algo sigs) s).1
  -- An untouched producer has nothing pending and has emitted nothing.
  silent : s = [] → p.literalBuf = [] ∧ p.hasEmitted = false

section Feeding

variable {hashes : HashFns} {n : Nat} {sigs : List EngineSignatureBlock}
  {algo : BlockStrongAlgo} {s : List UInt8} {p : RollingDeltaPlanProducer}

theorem fed_withStrongAlgo : Fed hashes n sigs algo [] (withStrongAlgo n sigs algo) := by
  refine ⟨rfl, rfl, rfl, rfl, rfl, ⟨rfl, Nat.le_refl _, ?_⟩, rfl, rfl, rfl, rfl, ?_⟩
  · intro r hr
    cases hr
  · intro _
    exact ⟨rfl, rfl⟩

theorem inSync_drain (hs : InSync p) :
    InSync { p with sourceBuf := p.sourceBuf.drop p.pos, pos := 0 } := by
  refine ⟨hs.lookup, Nat.zero_le _, ?_⟩
  intro r hr
  obtain ⟨hle, hnew⟩ := hs.rolling r hr
  refine ⟨?_, ?_⟩
  · show 0 + p.blockSize ≤ (p.sourceBuf.drop p.pos).length
    rw [length_drop]
    omega
  · rw [hnew, window_eq_take, window_eq_take]
    rfl

/-- The producer with a chunk in its buffer, as the loop starts on it. -/
def fill (p : RollingDeltaPlanProducer) (chunk : List UInt8) : RollingDeltaPlanProducer :=
  { p with
    sourceBuf := p.sourceBuf ++ chunk
    stats := { p.stats with
      sourceBytesConsumed := p.stats.sourceBytesConsumed + chunk.length } }

theorem inSync_fill (hs : InSync p) (hpos : p.pos = 0) (chunk : List UInt8) :
    InSync (p.fill chunk) := by
  refine ⟨hs.lookup, ?_, ?_⟩
  · show p.pos ≤ (p.sourceBuf ++ chunk).length
    rw [hpos]
    exact Nat.zero_le _
  · intro r hr
    obtain ⟨hle, hnew⟩ := hs.rolling r hr
    refine ⟨?_, ?_⟩
    · show p.pos + p.blockSize ≤ (p.sourceBuf ++ chunk).length
      rw [length_append]
      omega
    · rw [hnew, window_eq_take, window_eq_take]
      show RollingChecksum.new ((p.sourceBuf.drop p.pos).take p.blockSize)
        = RollingChecksum.new (((p.sourceBuf ++ chunk).drop p.pos).take p.blockSize)
      rw [hpos, drop_zero, drop_zero, take_append_of_le_length (by omega)]

/-- Draining a buffer at position zero does nothing, so the test at the end of
`drive_chunk` is no case. -/
theorem driveChunk_eq (hf : p.finalized = false) {chunk : List UInt8} (hne : chunk ≠ [])
    (out : List EngineDeltaOp) :
    let driven := driveLoop hashes ((p.sourceBuf ++ chunk).length + 1) (p.fill chunk) out
    p.driveChunk hashes chunk out
      = ({ driven.1 with sourceBuf := driven.1.sourceBuf.drop driven.1.pos, pos := 0 },
        driven.2) := by
  intro driven
  have hgo : (p.finalized || chunk.isEmpty) = false := by
    rw [hf]
    simpa using hne
  unfold driveChunk
  rw [if_neg (by rw [hgo]; exact Bool.false_ne_true)]
  show (if driven.1.pos > 0 then _ else (driven.1, driven.2)) = _
  split
  · rfl
  · have hpos : driven.1.pos = 0 := by omega
    rw [hpos, drop_zero, ← hpos]

/-- **One chunk.**  Feeding a chunk extends what was fed by it, and emits what the
newly settled events complete. -/
theorem driveChunk_fed (hn : 0 < n) (hfed : Fed hashes n sigs algo s p) (chunk : List UInt8)
    (out : List EngineDeltaOp) :
    let es := (advance n (matchIndex hashes algo sigs) (p.sourceBuf ++ chunk)).1
    Fed hashes n sigs algo (s ++ chunk) (p.driveChunk hashes chunk out).1 ∧
      (p.driveChunk hashes chunk out).2 = out ++ (emit .literal .copyBlock p.literalBuf es).1 ∧
      (p.driveChunk hashes chunk out).1.literalBuf
        = (emit literal .copyBlock p.literalBuf es).2 := by
  intro es
  by_cases hempty : chunk = []
  · -- Nothing arrives: what was left undecided still is.
    have hes : es = [] := by
      show (advance n (matchIndex hashes algo sigs) (p.sourceBuf ++ chunk)).1 = []
      rw [hempty, append_nil, hfed.sourceBuf, advance_of_rest (advance_rest hn s)]
    have hsame : p.driveChunk hashes chunk out = (p, out) := by
      unfold driveChunk
      rw [if_pos (by simp [hempty])]
    rw [hsame, hes, hempty, append_nil]
    refine ⟨hfed, ?_, rfl⟩
    simp [emit]
  · have hpos : (p.fill chunk).pos = 0 := hfed.pos
    have hsize : (p.fill chunk).blockSize = n := hfed.blockSize
    have hhit : (p.fill chunk).hit hashes = matchIndex hashes algo sigs := by
      show matchIndex hashes p.strongAlgo p.signatures = _
      rw [hfed.strongAlgo, hfed.signatures]
    obtain ⟨hadv, hout⟩ := driveLoop_spec hashes ((p.sourceBuf ++ chunk).length + 1) (p.fill chunk)
      out (by rw [hsize]; exact hn) (inSync_fill hfed.inSync hfed.pos chunk)
      (by rw [hpos, Nat.zero_add]; exact Nat.lt_succ_self _)
    rw [hsize, hhit, hpos] at hadv hout
    rw [driveChunk_eq hfed.finalized hempty]
    have hset := @advance_append UInt8 UInt32 n (matchIndex hashes algo sigs) hn s chunk
    rw [← hfed.sourceBuf] at hset
    refine ⟨⟨?_, ?_, ?_, ?_, rfl, inSync_drain hadv.inSync, ?_, ?_, ?_, ?_, ?_⟩, hout,
      hadv.literalBuf⟩
    · exact hadv.blockSize.trans hsize
    · exact hadv.signatures.trans hfed.signatures
    · exact hadv.strongAlgo.trans hfed.strongAlgo
    · exact hadv.finalized.trans hfed.finalized
    · refine hadv.consumed.trans ?_
      rw [length_append, ← hfed.consumed]
      rfl
    · rw [hset]
      exact hadv.undecided
    · rw [hset, copyCount_append, UInt32.ofNat_add, ← hfed.copyBlocks]
      exact hadv.copyBlocks
    · rw [hset, litCount_append, ← hfed.literalBytes]
      exact hadv.literalBytes
    · intro hnil
      exact absurd (append_eq_nil_iff.mp hnil).2 hempty

theorem flushPendingLiteral_fed (hfed : Fed hashes n sigs algo s p) (out : List EngineDeltaOp) :
    Fed hashes n sigs algo s (p.flushPendingLiteral out).1 ∧
      (p.flushPendingLiteral out).2 = out ++ flush .literal p.literalBuf ∧
      (p.flushPendingLiteral out).1.literalBuf = [] := by
  unfold flushPendingLiteral
  rw [flushLiteral_state]
  refine ⟨⟨hfed.blockSize, hfed.signatures, hfed.strongAlgo, hfed.finalized, hfed.pos,
    ⟨hfed.inSync.lookup, hfed.inSync.pos, hfed.inSync.rolling⟩, hfed.consumed, hfed.sourceBuf,
    hfed.copyBlocks, hfed.literalBytes, ?_⟩, flushLiteral_out p out, rfl⟩
  intro hnil
  obtain ⟨hlit, he⟩ := hfed.silent hnil
  refine ⟨rfl, ?_⟩
  rw [hlit, he]
  rfl

/-- At the end the rest becomes literal; an empty source gets its one empty literal. -/
theorem finalize_fed (hfed : Fed hashes n sigs algo s p) (hn : 0 < n) (out : List EngineDeltaOp) :
    (p.finalize out).2
        = (if s = [] then out ++ [.literal []]
          else out ++ flush .literal (p.literalBuf ++ p.sourceBuf)) ∧
      (p.finalize out).1.stats.copyBlocks
        = UInt32.ofNat (copyCount (walk n (matchIndex hashes algo sigs) s)) ∧
      (p.finalize out).1.stats.literalBytes
        = litCount (walk n (matchIndex hashes algo sigs) s) := by
  -- Appending an empty rest is appending nothing, so that test is no case either.
  have ht : (if p.sourceBuf.length > p.pos
        then { p with literalBuf := p.literalBuf ++ p.sourceBuf.drop p.pos } else p)
      = { p with literalBuf := p.literalBuf ++ p.sourceBuf } := by
    have hd : p.sourceBuf.drop p.pos = p.sourceBuf := by rw [hfed.pos, drop_zero]
    rw [hd]
    by_cases hbuf : p.sourceBuf.length > p.pos
    · rw [if_pos hbuf]
    · have hnil : p.sourceBuf = [] := by
        rw [hfed.pos] at hbuf
        exact length_eq_zero_iff.mp (by omega)
      have happ : p.literalBuf ++ p.sourceBuf = p.literalBuf := by rw [hnil, append_nil]
      rw [if_neg hbuf, happ]
  have hc := hfed.consumed
  have hw := @walk_eq_advance UInt8 UInt32 n (matchIndex hashes algo sigs) hn s
  rw [← hfed.sourceBuf] at hw
  unfold finalize
  rw [if_neg (by rw [hfed.finalized]; exact Bool.false_ne_true)]
  simp only [ht, flushLiteral_state, flushLiteral_out]
  refine ⟨?_, ?_, ?_⟩
  · by_cases hnil : s = []
    · obtain ⟨hlit, he⟩ := hfed.silent hnil
      have hbuf : p.sourceBuf = [] := by
        rw [hfed.sourceBuf, hnil]
        rfl
      rw [hlit, he, hbuf, hc]
      simp
    · have hlen : s.length ≠ 0 := fun h => hnil (length_eq_zero_iff.mp h)
      rw [if_neg hnil, hc]
      simp [hlen]
  · rw [hw, copyCount_append, (count_lits _).2]
    exact hfed.copyBlocks
  · rw [hw, litCount_append, (count_lits _).1, length_append, ← hfed.literalBytes]
    omega

end Feeding

end RollingDeltaPlanProducer

end AeroFtp.EngineAdapter
