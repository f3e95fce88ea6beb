/-
The chunk-fed planner makes the plan of the bulk planner.

`Producer.lean` says what one chunk does; this file is about whole runs.  Without
flushes the instructions are those of `emit`, chunk after chunk, and `emit_append`
puts the chunks together.

Flushing the pending literal early splits a literal in two.  `opEvents` reads an
instruction list back as events, and there a split literal and a whole one are the
same; `mergeLiterals_eq` goes back from events to merged instructions.
-/
import AeroFtp.Proofs.Aerorsync.Producer
import AeroFtp.Proofs.Aerorsync.Reconstruction

namespace AeroFtp.EngineAdapter

open Greedy List EngineDeltaOp RollingDeltaPlanProducer DeltaEngine

variable {p : RollingDeltaPlanProducer} {out : List EngineDeltaOp}

/-! ### Instructions read as events -/

/-- The events an instruction stands for. -/
def opEvents : EngineDeltaOp → List (Event UInt8 UInt32)
  | .copyBlock i => [.copy i []]
  | .literal bytes => bytes.map .lit

/-- An event without the window it was settled on. -/
def bare : Event UInt8 UInt32 → Event UInt8 UInt32
  | .lit x => .lit x
  | .copy i _ => .copy i []

theorem flatMap_opEvents_flush (p : List UInt8) :
    (flush literal p).flatMap opEvents = p.map .lit := by
  cases p with
  | nil => rfl
  | cons x xs => simp [flush, opEvents]

theorem flatMap_opEvents_emit (p : List UInt8) (es : List (Event UInt8 UInt32)) :
    (emit .literal .copyBlock p es).1.flatMap opEvents
        ++ (emit literal .copyBlock p es).2.map .lit = p.map .lit ++ es.map bare := by
  induction es generalizing p with
  | nil => simp [emit]
  | cons e es ih =>
    cases e with
    | lit x =>
      show (emit _ _ (p ++ [x]) es).1.flatMap opEvents ++ _ = _
      rw [emit, ih]
      simp [bare]
    | copy i w =>
      simp only [emit, flatMap_append, flatMap_cons, flatMap_opEvents_flush, append_assoc,
        ih, map_cons]
      rfl

theorem plan_bare (p : List UInt8) (es : List (Event UInt8 UInt32)) :
    plan literal .copyBlock p (es.map bare) = plan .literal .copyBlock p es := by
  induction es generalizing p with
  | nil => rfl
  | cons e es ih =>
    cases e with
    | lit x => exact ih (p ++ [x])
    | copy i w =>
      rw [plan_copy]
      show plan _ _ p (.copy i [] :: es.map bare) = _
      rw [plan_copy, ih []]

/-- Put literal bytes in front of an instruction list, into its first literal if it
starts with one. -/
def joinLiteral (bytes : List UInt8) : List EngineDeltaOp → List EngineDeltaOp
  | .literal more :: ops => .literal (bytes ++ more) :: ops
  | ops => .literal bytes :: ops

/-- Merge every run of adjacent literals into one. -/
def mergeLiterals : List EngineDeltaOp → List EngineDeltaOp
  | [] => []
  | .literal bytes :: ops => joinLiteral bytes (mergeLiterals ops)
  | .copyBlock i :: ops => .copyBlock i :: mergeLiterals ops

theorem plan_joinLiteral {bytes : List UInt8} (hne : bytes ≠ []) (p : List UInt8)
    (es : List (Event UInt8 UInt32)) : plan .literal .copyBlock (bytes ++ p) es
      = joinLiteral bytes (plan .literal .copyBlock p es) := by
  have hne' : ∀ q : List UInt8, bytes ++ q ≠ [] := fun q h => hne (append_eq_nil_iff.mp h).1
  induction es generalizing p with
  | nil =>
    rw [plan_nil, plan_nil, flush_of_ne_nil _ (hne' p)]
    cases p with
    | nil => simp [joinLiteral]
    | cons x xs => rfl
  | cons e es ih =>
    cases e with
    | lit x =>
      rw [plan_lit, append_assoc]
      exact ih (p ++ [x])
    | copy i w =>
      rw [plan_copy, plan_copy, flush_of_ne_nil _ (hne' p)]
      cases p with
      | nil => simp [joinLiteral]
      | cons x xs => rfl

theorem plan_lits (p bytes : List UInt8) (es : List (Event UInt8 UInt32)) :
    plan literal .copyBlock p (bytes.map .lit ++ es)
      = plan .literal .copyBlock (p ++ bytes) es := by
  unfold plan
  rw [emit_append, emit_lits]
  rfl

/-- Merging is planning the events afresh. -/
theorem mergeLiterals_eq {ops : List EngineDeltaOp} (hne : literal [] ∉ ops) :
    mergeLiterals ops = plan .literal .copyBlock [] (ops.flatMap opEvents) := by
  induction ops with
  | nil => rfl
  | cons op ops ih =>
    obtain ⟨hop, hops⟩ := not_or.mp (fun h => hne (mem_cons.mpr h))
    rw [flatMap_cons]
    cases op with
    | literal bytes =>
      have hb : bytes ≠ [] := fun h => hop (by rw [h])
      rw [mergeLiterals, ih hops]
      show _ = plan _ _ [] (bytes.map .lit ++ _)
      rw [plan_lits, ← plan_joinLiteral hb, nil_append, append_nil]
    | copyBlock i =>
      rw [mergeLiterals, ih hops]
      show _ = plan _ _ [] (.copy i [] :: _)
      rfl

theorem literal_nil_not_mem_flush (p : List UInt8) : literal [] ∉ flush .literal p := by
  cases p with
  | nil => simp
  | cons x xs => simp [flush]

theorem literal_nil_not_mem_emit (p : List UInt8) (es : List (Event UInt8 UInt32)) :
    literal [] ∉ (emit .literal .copyBlock p es).1 := by
  induction es generalizing p with
  | nil => simp [emit]
  | cons e es ih =>
    cases e with
    | lit x => exact ih (p ++ [x])
    | copy i w =>
      intro hmem
      simp only [emit, mem_append, mem_cons] at hmem
      rcases hmem with hmem | hmem | hmem
      · exact literal_nil_not_mem_flush p hmem
      · cases hmem
      · exact ih [] hmem

/-! ### Whole runs -/

section Runs

variable {hashes : HashFns} {n : Nat} {sigs : List EngineSignatureBlock}
  {algo : BlockStrongAlgo}

open RollingDeltaPlanProducer

/-- What has been emitted after feeding `s`, up to where literals were split. -/
structure Emitted (hashes : HashFns) (n : Nat) (sigs : List EngineSignatureBlock)
    (algo : BlockStrongAlgo) (s : List UInt8) (p : RollingDeltaPlanProducer)
    (out : List EngineDeltaOp) : Prop where
  fed : Fed hashes n sigs algo s p
  events : out.flatMap opEvents ++ p.literalBuf.map .lit
    = (advance n (matchIndex hashes algo sigs) s).1.map bare
  nonempty : EngineDeltaOp.literal [] ∉ out

variable {s : List UInt8}

theorem emitted_driveChunk (hn : 0 < n) (h : Emitted hashes n sigs algo s p out)
    (chunk : List UInt8) :
    Emitted hashes n sigs algo (s ++ chunk) (p.driveChunk hashes chunk out).1
      (p.driveChunk hashes chunk out).2 := by
  obtain ⟨hfed, hout, hlit⟩ := driveChunk_fed hn h.fed chunk out
  have hs := @advance_append UInt8 UInt32 n (matchIndex hashes algo sigs) hn s chunk
  rw [← h.fed.sourceBuf] at hs
  refine ⟨hfed, ?_, ?_⟩
  · rw [hout, hlit, flatMap_append, append_assoc, flatMap_opEvents_emit,
      ← append_assoc, h.events, hs, map_append]
  · rw [hout, mem_append]
    rintro (hmem | hmem)
    · exact h.nonempty hmem
    · exact literal_nil_not_mem_emit _ _ hmem

theorem emitted_flush (h : Emitted hashes n sigs algo s p out) :
    Emitted hashes n sigs algo s (p.flushPendingLiteral out).1 (p.flushPendingLiteral out).2 := by
  obtain ⟨hfed, hout, hlit⟩ := flushPendingLiteral_fed h.fed out
  refine ⟨hfed, ?_, ?_⟩
  · rw [hout, hlit, flatMap_append, flatMap_opEvents_flush, map_nil, append_nil]
    exact h.events
  · rw [hout, mem_append]
    rintro (hmem | hmem)
    · exact h.nonempty hmem
    · exact literal_nil_not_mem_flush _ hmem

theorem emitted_driveChunks (hn : 0 < n) :
    ∀ (chunks : List (List UInt8 × Bool)) (s : List UInt8) (p : RollingDeltaPlanProducer)
      (out : List EngineDeltaOp), Emitted hashes n sigs algo s p out →
      Emitted hashes n sigs algo (s ++ (chunks.map Prod.fst).flatten)
        (driveChunks hashes chunks p out).1 (driveChunks hashes chunks p out).2 := by
  intro chunks
  induction chunks with
  | nil =>
    intro s p out h
    rw [map_nil, flatten_nil, append_nil]
    exact h
  | cons c chunks ih =>
    intro s p out h
    obtain ⟨chunk, flushAfter⟩ := c
    have hd := emitted_driveChunk hn h chunk
    rw [map_cons, flatten_cons, ← append_assoc]
    cases flushAfter with
    | false => exact ih _ _ _ hd
    | true => exact ih _ _ _ (emitted_flush hd)

/-- The events of all that is emitted, with what is pending or undecided as literals. -/
theorem Emitted.events_walk (hn : 0 < n) (h : Emitted hashes n sigs algo s p out) :
    out.flatMap opEvents ++ (p.literalBuf ++ p.sourceBuf).map .lit
      = (walk n (matchIndex hashes algo sigs) s).map bare := by
  rw [walk_eq_advance hn, ← h.fed.sourceBuf, map_append, ← append_assoc, h.events,
    map_append, map_map]
  rfl

theorem eq_nil_of_no_events (hne : literal [] ∉ out)
    (h : out.flatMap opEvents = []) : out = [] := by
  rw [flatMap_eq_nil_iff] at h
  refine eq_nil_iff_forall_not_mem.mpr ?_
  intro op hop
  have hev := h op hop
  cases op with
  | copyBlock i => cases hev
  | literal bytes =>
    rw [opEvents, map_eq_nil_iff] at hev
    subst hev
    exact hne hop

/-- Without flushes the instructions are `emit`'s, literal for literal. -/
theorem driveChunks_unflushed (hashes : HashFns) (sigs : List EngineSignatureBlock)
    (algo : BlockStrongAlgo) (hn : 0 < n) :
    ∀ (chunks : List (List UInt8 × Bool)) (s : List UInt8) (p : RollingDeltaPlanProducer)
      (out : List EngineDeltaOp), (∀ c ∈ chunks, c.2 = false) → Fed hashes n sigs algo s p →
      (out, p.literalBuf) = emit .literal .copyBlock []
        (advance n (matchIndex hashes algo sigs) s).1 →
      ((driveChunks hashes chunks p out).2, (driveChunks hashes chunks p out).1.literalBuf)
        = emit .literal .copyBlock []
          (advance n (matchIndex hashes algo sigs) (s ++ (chunks.map Prod.fst).flatten)).1 := by
  intro chunks
  induction chunks with
  | nil =>
    intro s p out _ _ he
    rw [map_nil, flatten_nil, append_nil]
    exact he
  | cons c chunks ih =>
    intro s p out hflags hfed he
    obtain ⟨chunk, flushAfter⟩ := c
    have hflag : flushAfter = false := hflags _ mem_cons_self
    subst hflag
    obtain ⟨hfed', hout, hlit⟩ := driveChunk_fed hn hfed chunk out
    have hs := @advance_append UInt8 UInt32 n (matchIndex hashes algo sigs) hn s chunk
    rw [← hfed.sourceBuf] at hs
    rw [map_cons, flatten_cons, ← append_assoc]
    refine ih _ _ _ (fun c hc => hflags c (mem_cons_of_mem _ hc)) hfed' ?_
    have hout' := congrArg Prod.fst he
    have hlit' := congrArg Prod.snd he
    rw [hs, emit_append, ← hout', ← hlit']
    exact Prod.ext hout hlit

/-- A whole run, from a fresh producer: its instructions merge to the plan of the
walk, they are that plan if nothing was flushed early, and the counters are the
walk's. -/
theorem run_spec (hashes : HashFns) (sigs : List EngineSignatureBlock)
    (algo : BlockStrongAlgo) (hn : 0 < n) (chunks : List (List UInt8 × Bool)) :
    let source := (chunks.map Prod.fst).flatten
    let es := walk n (matchIndex hashes algo sigs) source
    let ops := if source = [] then [literal []] else plan .literal .copyBlock [] es
    let r := (withStrongAlgo n sigs algo).run hashes chunks
    ((∀ c ∈ chunks, c.2 = false) → r.2 = ops) ∧ mergeLiterals r.2 = ops ∧
      r.2.flatMap opEvents = es.map bare ∧
      r.1.stats.copyBlocks = UInt32.ofNat (copyCount es) ∧
      r.1.stats.literalBytes = litCount es := by
  intro source es ops r
  have hs : Emitted hashes n sigs algo [] (withStrongAlgo n sigs algo) [] :=
    ⟨fed_withStrongAlgo, rfl, not_mem_nil⟩
  have hd := emitted_driveChunks hn chunks _ _ _ hs
  rw [nil_append] at hd
  have hfed := hd.fed
  obtain ⟨hops, hc, hlit⟩ := finalize_fed hfed hn
    (driveChunks hashes chunks (withStrongAlgo n sigs algo) []).2
  have hevents := hd.events_walk hn
  by_cases hnil : source = []
  · have hesnil : es = [] := by
      show walk n _ source = []
      rw [hnil, walk_nil]
    have hout : (driveChunks hashes chunks (withStrongAlgo n sigs algo) []).2 = [] := by
      refine eq_nil_of_no_events hd.nonempty (append_eq_nil_iff.mp (hevents.trans ?_)).1
      show es.map bare = []
      rw [hesnil, map_nil]
    have hrun : r.2 = [.literal []] := by
      show (finalize _ _).2 = _
      rw [hops, if_pos hnil, hout, nil_append]
    have hopsnil : ops = [.literal []] := if_pos hnil
    rw [hrun, hopsnil, hesnil]
    rw [show walk n (matchIndex hashes algo sigs) source = [] from hesnil] at hc hlit
    exact ⟨fun _ => rfl, rfl, rfl, hc, hlit⟩
  · have hrun : r.2 = (driveChunks hashes chunks (withStrongAlgo n sigs algo) []).2
        ++ flush .literal ((driveChunks hashes chunks (withStrongAlgo n sigs algo) []).1.literalBuf
          ++ (driveChunks hashes chunks (withStrongAlgo n sigs algo) []).1.sourceBuf) := by
      show (finalize _ _).2 = _
      rw [hops, if_neg hnil]
    have hopsne : ops = plan .literal .copyBlock [] es := if_neg hnil
    have hflat : r.2.flatMap opEvents = es.map bare := by
      rw [hrun, flatMap_append, flatMap_opEvents_flush, hevents]
    refine ⟨?_, ?_, hflat, hc, hlit⟩
    · intro hflags
      have hexact := driveChunks_unflushed hashes sigs algo hn chunks []
        (withStrongAlgo n sigs algo) [] hflags fed_withStrongAlgo rfl
      rw [nil_append] at hexact
      have hout := congrArg Prod.fst hexact
      have hbuf := congrArg Prod.snd hexact
      have hw := @walk_eq_advance UInt8 UInt32 n (matchIndex hashes algo sigs) hn source
      rw [← hfed.sourceBuf] at hw
      rw [hrun, hopsne, show es = _ from hw, plan, emit_append, emit_lits, append_nil,
        ← hbuf, ← hout]
    · rw [mergeLiterals_eq, hflat, plan_bare, hopsne]
      rw [hrun, mem_append]
      rintro (hmem | hmem)
      · exact hd.nonempty hmem
      · exact literal_nil_not_mem_flush _ hmem

end Runs

/-! ### The bulk planner makes the same walk -/

theorem confirms_full {sig : EngineSignatureBlock} (h : sig.strongLen = 32) (computed : Digest) :
    confirms computed sig = (sig.strong == computed) := by
  have hlen : ∀ d : Digest, d.toList.take 32 = d.toList := by
    intro d
    exact take_of_length_le (by rw [Vector.length_toList])
  unfold confirms
  rw [h]
  show (decide (32 > 0) && sig.strong.toList.take 32 == computed.toList.take 32) = _
  rw [hlen, hlen]
  simp

theorem matchIndex_sha256 (hashes : HashFns) {sigs : List EngineSignatureBlock}
    (hstrong : ∀ sig ∈ sigs, sig.strongLen = 32) (window : List UInt8) :
    matchIndex hashes .sha256 sigs window
      = (matchWindow hashes.sha256 (sigs.map (·.toBlockSignature)) window).map (·.index) := by
  have hf : (sigs.find? fun sig => sig.rolling == (RollingChecksum.new window).value &&
      confirms (hashes.sha256 window) sig)
      = sigs.find? fun sig => sig.rolling == (RollingChecksum.new window).value &&
        sig.strong == hashes.sha256 window := by
    refine find?_congr fun sig hsig => ?_
    rw [confirms_full (hstrong sig hsig)]
  unfold matchIndex matchBlock matchWindow
  rw [find?_map, Option.map_map]
  show (sigs.find? fun sig => sig.rolling == (RollingChecksum.new window).value &&
    confirms (hashes.sha256 window) sig).map _ = _
  rw [hf]
  rfl

/-- **Chunk-fed planning is bulk planning.**  However the source is cut into chunks,
the producer emits the instructions of `compute_delta` and counts what it counts.
Flushing the pending literal after some of the chunks only splits literals: merged
again, the instructions are the same. -/
theorem run_eq_computeDelta (hashes : HashFns) (sigs : List EngineSignatureBlock)
    (hstrong : ∀ sig ∈ sigs, sig.strongLen = 32) (n : Nat) (hn : 0 < n) (fileSize : Nat)
    (chunks : List (List UInt8 × Bool)) :
    let bulk := computeDelta hashes.sha256 (chunks.map Prod.fst).flatten
      { blockSize := n, fileSize := fileSize, signatures := sigs.map (·.toBlockSignature) }
    let r := (new n sigs).run hashes chunks
    ((∀ c ∈ chunks, c.2 = false) → r.2 = bulk.1.map ofDeltaOp) ∧
      mergeLiterals r.2 = bulk.1.map ofDeltaOp ∧
      r.1.stats.copyBlocks = bulk.2.copyBlocks ∧
      r.1.stats.literalBytes = bulk.2.literalBytes := by
  intro bulk r
  obtain ⟨hexact, hmerge, _, hcopy, hlit⟩ :=
    run_spec hashes sigs .sha256 hn chunks
  obtain ⟨hops, hcopies, hliterals⟩ := computeDelta_spec hashes.sha256 (chunks.map Prod.fst).flatten
    { blockSize := n, fileSize := fileSize, signatures := sigs.map (·.toBlockSignature) } hn
  have hhit : matchIndex hashes .sha256 sigs
      = fun w => (matchWindow hashes.sha256 (sigs.map (·.toBlockSignature)) w).map (·.index) :=
    funext (matchIndex_sha256 hashes hstrong)
  have hbulk : bulk.1.map ofDeltaOp
      = if (chunks.map Prod.fst).flatten = [] then [.literal []]
        else plan .literal .copyBlock []
          (walk n (matchIndex hashes .sha256 sigs) (chunks.map Prod.fst).flatten) := by
    show (computeDelta _ _ _).1.map _ = _
    rw [hops, hhit]
    by_cases hnil : (chunks.map Prod.fst).flatten = []
    · rw [if_pos hnil, if_pos hnil]
      rfl
    · rw [if_neg hnil, if_neg hnil]
      exact map_plan _ _ ofDeltaOp [] _
  refine ⟨?_, ?_, ?_, ?_⟩
  · intro hflags
    rw [hbulk]
    exact hexact hflags
  · rw [hbulk]
    exact hmerge
  · show r.1.stats.copyBlocks = (computeDelta _ _ _).2.copyBlocks
    rw [hcopies]
    show _ = UInt32.ofNat (copyCount (walk n _ _))
    rw [← hhit]
    exact hcopy
  · show r.1.stats.literalBytes = (computeDelta _ _ _).2.literalBytes
    rw [hliterals]
    show _ = litCount (walk n _ _)
    rw [← hhit]
    exact hlit

/-- SHA-256 where the example below asks for it; nothing else is asked for. -/
def hashesSample : HashFns :=
  { sha256 := sha256Sample
    xxh3_128 := fun _ => 0
    xxh3_128_with_seed := fun _ _ => 0
    xxh64 := fun _ _ => 0
    xxh3_64_with_seed := fun _ _ => 0
    md5 := fun _ => Vector.replicate 16 0
    md4 := fun _ => Vector.replicate 16 0
    sha1 := fun _ => Vector.replicate 20 0 }

/-- The signatures of a two-block file. -/
def signaturesSample : List EngineSignatureBlock :=
  (computeSignatures sha256Sample [1, 2, 3] 2).signatures.map EngineSignatureBlock.ofBlockSignature

/-- A matched window cut by a chunk boundary, an empty chunk, and two flushes. -/
theorem run_eq_computeDelta_cut :
    mergeLiterals ((RollingDeltaPlanProducer.new 2 signaturesSample).run hashesSample
        [([9, 1], true), ([], false), ([2], true), ([3], false)]).2
      = (computeDelta sha256Sample [9, 1, 2, 3]
        { blockSize := 2, fileSize := 3
          signatures := signaturesSample.map (·.toBlockSignature) }).1.map
        ofDeltaOp :=
  (run_eq_computeDelta hashesSample signaturesSample
    (by
      intro sig hsig
      obtain ⟨bs, _, rfl⟩ := mem_map.mp hsig
      rfl)
    2 (by decide) 3 [([9, 1], true), ([], false), ([2], true), ([3], false)]).2.1

end AeroFtp.EngineAdapter
