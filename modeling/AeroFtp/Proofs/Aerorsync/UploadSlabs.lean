/-
Uploads under `zlibx`, slab after slab.

`LiteralFraming.lean` says that the inflater sees the deflater's output exactly when
no two literals are adjacent.  Within a slab the planner joins them.  Behind every slab
but the last it flushes, so a literal that goes on in the next slab is cut in two; and
without blocks to match, every slab is a literal of its own.

The records are followed through the wire: the receiver's rule is applied to what
`decode_delta_stream` makes of the bytes the sender puts out.
-/
import Mathlib.Data.List.TakeWhile
import AeroFtp.Lib.Segments
import AeroFtp.Proofs.Aerorsync.UploadPlan
import AeroFtp.Proofs.Aerorsync.LiteralFraming

namespace AeroFtp.NativeDriver

open EngineAdapter List EngineAdapter.RollingDeltaPlanProducer Framing Greedy RealWire EngineDeltaOp

variable {z : Deflater}

/-! ### The operations of an upload -/

/-- All operations of an upload: the last slab is finalized, and so is a producer that
has seen none. -/
def uploadOps (hashes : HashFns) :
    Option RollingDeltaPlanProducer → List (List UInt8) → List EngineDeltaOp
  | producer, [] => producer.elim [] fun producer => (producer.finalize []).2
  | producer, [slab] => (slabOps hashes producer slab true).2
  | producer, slab :: next :: slabs =>
    (slabOps hashes producer slab false).2
      ++ uploadOps hashes (slabOps hashes producer slab false).1 (next :: slabs)

theorem appendStreamingDeltaOps_append (a b : List EngineDeltaOp) :
    ∀ {up up' : DeltaUpload z}, appendStreamingDeltaOps a up = some up' →
      appendStreamingDeltaOps (a ++ b) up = appendStreamingDeltaOps b up' := by
  induction a with
  | nil =>
    intro up up' h
    cases h
    rfl
  | cons op a ih =>
    intro up up' h
    cases op with
    | literal raw =>
      rw [cons_append, appendStreamingDeltaOps]
      rw [appendStreamingDeltaOps] at h
      by_cases he : raw.isEmpty
      · rw [if_pos he] at h ⊢
        exact ih h
      · rw [if_neg he] at h ⊢
        dsimp only at h ⊢
        split at h
        · cases h
        · exact ih h
    | copyBlock idx =>
      rw [cons_append, appendStreamingDeltaOps]
      rw [appendStreamingDeltaOps] at h
      split at h
      · cases h
      · exact ih h

variable (hashes : HashFns) (segs : List (List (Event UInt8 UInt32))) {slab : List UInt8}

theorem sendSlabs_cons {sourceLen : Nat} (hs : slab ≠ [])
    (slabs : List (List UInt8)) (st : SendLoop z)
    (hlen : st.totalSourceBytes + slab.length ≤ sourceLen) :
    let observed := st.totalSourceBytes + slab.length
    let planned := slabOps hashes st.producer slab (observed == sourceLen)
    ∃ upload, appendStreamingDeltaOps planned.2 st.upload = some upload ∧
      sendSlabs hashes sourceLen (slab :: slabs) st
        = sendSlabs hashes sourceLen slabs ⟨planned.1, upload, observed,
          st.producerFinalized || (planned.1.isSome && (observed == sourceLen))⟩ := by
  intro observed planned
  obtain ⟨bytes, state, _, happ⟩ := appendStreamingDeltaOps_eq planned.2 st.upload
  refine ⟨_, happ, ?_⟩
  rw [sendSlabs, if_neg (by simpa using hs), if_neg (Nat.not_lt.mpr hlen)]
  dsimp only
  rw [happ]

/-- **The loop writes `uploadOps`**, if the slabs add up to the declared length. -/
theorem sendSlabs_eq (sourceLen : Nat) (slabs : List (List UInt8)) :
    ∀ st : SendLoop z, (∀ slab ∈ slabs, slab ≠ []) → st.producerFinalized = false →
      st.totalSourceBytes + slabs.flatten.length = sourceLen →
      ∃ st' : SendLoop z, sendSlabs hashes sourceLen slabs st = some (.ok st') ∧
        st'.totalSourceBytes = sourceLen ∧
        finalizeTail st' = appendStreamingDeltaOps
          (uploadOps hashes st.producer slabs) st.upload := by
  induction slabs with
  | nil =>
    intro st _ ho hlen
    refine ⟨st, rfl, hlen, ?_⟩
    unfold finalizeTail
    rw [ho]
    cases st.producer with
    | none => rfl
    | some producer => rfl
  | cons slab slabs ih =>
    intro st hslabs ho hlen
    rw [flatten_cons, length_append] at hlen
    obtain ⟨upload, happ, hstep⟩ := sendSlabs_cons hashes (hslabs slab mem_cons_self)
      slabs st (by omega : st.totalSourceBytes + slab.length ≤ sourceLen)
    rw [hstep]
    cases slabs with
    | nil =>
      -- The last slab: nothing is left to finalize.
      have hlast : st.totalSourceBytes + slab.length = sourceLen := hlen
      rw [hlast, beq_self_eq_true] at happ ⊢
      refine ⟨_, rfl, rfl, ?_⟩
      refine Eq.trans ?_ happ.symm
      rw [ho]
      cases hprod : st.producer with
      | none => rfl
      | some producer => rfl
    | cons next slabs =>
      have hn : next ≠ [] := hslabs next (mem_cons_of_mem _ mem_cons_self)
      have hm : (st.totalSourceBytes + slab.length == sourceLen) = false := by
        have hpos := length_pos_of_ne_nil hn
        rw [flatten_cons, length_append] at hlen
        exact beq_false_of_ne (by omega)
      rw [hm] at happ
      rw [hm, ho, Bool.and_false]
      obtain ⟨st', hsend, htotal, htail⟩ := ih
        ⟨(slabOps hashes st.producer slab false).1, upload,
          st.totalSourceBytes + slab.length, false⟩
        (fun slab h => hslabs slab (mem_cons_of_mem _ h)) rfl
        (by rw [← hlen, Nat.add_assoc])
      refine ⟨st', hsend, htotal, ?_⟩
      rw [htail, uploadOps, appendStreamingDeltaOps_append _ _ happ]

/-! ### Slabs as segments -/

section Producer

variable {hashes : HashFns} {n : Nat} {sigs : List EngineSignatureBlock}
  {algo : BlockStrongAlgo} {s : List UInt8} {p : RollingDeltaPlanProducer}

theorem slabOps_more (hn : 0 < n) (hfed : Fed hashes n sigs algo s p) (hlit : p.literalBuf = [])
    (slab : List UInt8) :
    ∃ q, slabOps hashes (some p) slab false = (some q, plan .literal .copyBlock []
          (advance n (matchIndex hashes algo sigs) (p.sourceBuf ++ slab)).1) ∧
      Fed hashes n sigs algo (s ++ slab) q ∧ q.literalBuf = [] := by
  obtain ⟨hd, hout, hbuf⟩ := driveChunk_fed hn hfed slab []
  obtain ⟨hflushed, hflush, he⟩ := flushPendingLiteral_fed hd (p.driveChunk hashes slab []).2
  refine ⟨_, Prod.ext rfl ?_, hflushed, he⟩
  show ((p.driveChunk hashes slab []).1.flushPendingLiteral (p.driveChunk hashes slab []).2).2 = _
  rw [hflush, hout, hbuf, hlit]
  rfl

theorem slabOps_last (hn : 0 < n) (hfed : Fed hashes n sigs algo s p) (hlit : p.literalBuf = [])
    (hs : slab ≠ []) : (slabOps hashes (some p) slab true).2
      = plan .literal .copyBlock [] (walk n (matchIndex hashes algo sigs)
        (p.sourceBuf ++ slab)) := by
  obtain ⟨hd, hout, hbuf⟩ := driveChunk_fed hn hfed slab []
  have hfinal := (finalize_fed hd hn (p.driveChunk hashes slab []).2).1
  have hne : s ++ slab ≠ [] := fun h => hs (append_eq_nil_iff.mp h).2
  have hr := hd.sourceBuf
  rw [advance_append hn, ← hfed.sourceBuf] at hr
  show ((p.driveChunk hashes slab []).1.finalize (p.driveChunk hashes slab []).2).2 = _
  rw [hfinal, if_neg hne, hout, hbuf, hlit, hr, walk_eq_advance hn, plan, emit_append, emit_lits,
    append_nil]
  rfl

theorem uploadOps_some (hn : 0 < n) (slabs : List (List UInt8)) :
    ∀ (s : List UInt8) (p : RollingDeltaPlanProducer), slabs ≠ [] → (∀ slab ∈ slabs, slab ≠ []) →
      Fed hashes n sigs algo s p → p.literalBuf = [] → uploadOps hashes (some p) slabs
        = (segments n (matchIndex hashes algo sigs) p.sourceBuf slabs).flatMap
          (plan .literal .copyBlock []) := by
  induction slabs with
  | nil =>
    intro s p hne
    exact absurd rfl hne
  | cons slab slabs ih =>
    intro s p _ hs hfed hlit
    cases slabs with
    | nil =>
      rw [uploadOps, slabOps_last hn hfed hlit (hs slab mem_cons_self), segments, flatMap_singleton]
    | cons next slabs =>
      obtain ⟨q, hops, hfed', hlit'⟩ := slabOps_more hn hfed hlit slab
      have hr := hfed'.sourceBuf
      rw [advance_append hn, ← hfed.sourceBuf] at hr
      rw [uploadOps, hops, segments, ← hr]
      exact congrArg _ (ih _ q (cons_ne_nil _ _)
        (fun slab h => hs slab (mem_cons_of_mem _ h)) hfed' hlit')

end Producer

theorem uploadOps_none (slabs : List (List UInt8)) :
    uploadOps hashes none slabs = slabs.map .literal := by
  induction slabs with
  | nil => rfl
  | cons slab slabs ih =>
    cases slabs with
    | nil => rfl
    | cons next slabs =>
      exact congrArg (.literal slab :: ·) ih

theorem literal_nil_not_mem_plans : literal [] ∉ segs.flatMap (plan .literal .copyBlock []) := by
  intro hmem
  obtain ⟨es, _, hmem⟩ := mem_flatMap.mp hmem
  rcases mem_append.mp hmem with hmem | hmem
  · exact literal_nil_not_mem_emit _ _ hmem
  · exact literal_nil_not_mem_flush _ hmem

theorem filter_nonempty {ops : List EngineDeltaOp} (hops : literal [] ∉ ops) :
    ops.filter (· ≠ .literal []) = ops := by
  refine filter_eq_self.mpr fun op hop => decide_eq_true ?_
  intro heq
  exact hops (heq ▸ hop)

theorem kinds_flatMap_plan :
    kinds (segs.flatMap (plan .literal .copyBlock [])) = segs.flatMap (planKinds []) := by
  unfold kinds
  rw [filter_nonempty (literal_nil_not_mem_plans segs), map_flatMap]
  refine flatMap_congr fun es _ => ?_
  exact map_plan _ _ isLiteral [] es

/-! ### What the inflater sees of an upload -/

/-- No literal is cut in two by the end of a slab.  Without blocks to match, every slab
is a literal of its own. -/
def KeepsLiterals (n : Nat) (hit : List UInt8 → Option UInt32) (slabs : List (List UInt8)) : Prop :=
  if n = 0 then slabs.length ≤ 1
  else ∀ k < slabs.length, ¬ CutsLiteral (advance n hit (slabs.take k).flatten).1
    (walk n hit ((advance n hit (slabs.take k).flatten).2 ++ (slabs.drop k).flatten))

instance (n : Nat) (hit : List UInt8 → Option UInt32) (slabs : List (List UInt8)) :
    Decidable (KeepsLiterals n hit slabs) :=
  inferInstanceAs (Decidable (if n = 0 then _ else _))

/-- The producer an upload starts with. -/
def startProducer (n : Nat) (sigs : List EngineSignatureBlock) (algo : BlockStrongAlgo) :
    Option RollingDeltaPlanProducer :=
  if n ≠ 0 then some (withStrongAlgo n sigs algo) else none

variable {slabs : List (List UInt8)}

theorem isChain_kinds_uploadOps_iff (n : Nat) (sigs : List EngineSignatureBlock)
    (algo : BlockStrongAlgo) (hslabs : ∀ slab ∈ slabs, slab ≠ []) :
    (kinds (uploadOps hashes (startProducer n sigs algo) slabs)).IsChain Apart
      ↔ KeepsLiterals n (matchIndex hashes algo sigs) slabs := by
  unfold KeepsLiterals startProducer
  by_cases hn : n = 0
  · have hne : literal [] ∉ slabs.map .literal := by
      intro hmem
      obtain ⟨slab, hslab, heq⟩ := mem_map.mp hmem
      exact hslabs slab hslab (literal.inj heq)
    rw [if_pos hn, if_neg (not_not_intro hn), uploadOps_none, kinds, filter_nonempty hne]
    cases slabs with
    | nil => simp
    | cons slab slabs =>
      cases slabs with
      | nil => simp
      | cons next slabs => simp [Apart, isLiteral]
  · rw [if_neg hn, if_pos hn, ← isChain_segments_iff (Nat.pos_of_ne_zero hn)]
    cases slabs with
    | nil =>
      refine iff_of_true ?_ .nil
      exact .nil
    | cons slab slabs =>
      rw [uploadOps_some (Nat.pos_of_ne_zero hn) (slab :: slabs) [] _ (cons_ne_nil _ _) hslabs
        fed_withStrongAlgo rfl, kinds_flatMap_plan]
      rfl

/-- An upload whose reader delivers what was declared: its bytes are decoded to the
records of `uploadOps`. -/
theorem sendDeltaPhaseStreaming_eq {d : AerorsyncDriver} {sigs : List EngineSignatureBlock}
    (hsigs : d.wireSigsToEngine = .ok sigs) (hashes : HashFns) (algo : BlockStrongAlgo)
    (fileChecksum : List UInt8 → List UInt8) (hslabs : ∀ slab ∈ slabs, slab ≠ []) :
    let records := wireRecords (uploadOps hashes (startProducer d.blockSize sigs algo) slabs)
      (.new : DeflateLiteralStreamEncoder z)
    ∃ bytes, d.sendDeltaPhaseStreaming hashes algo fileChecksum slabs.flatten.length slabs
        = some (.ok (bytes, records.2)) ∧
      decodeDeltaStream bytes (fileChecksum slabs.flatten).length none
        = .ok (⟨records.1, fileChecksum slabs.flatten⟩, bytes.length) := by
  intro records
  obtain ⟨bytes, state, hb, happ⟩ := appendStreamingDeltaOps_eq
    (uploadOps hashes (startProducer d.blockSize sigs algo) slabs) (⟨.new, {}, []⟩ : DeltaUpload z)
  obtain ⟨st, hsend, htotal, htail⟩ := sendSlabs_eq hashes slabs.flatten.length slabs
    (⟨startProducer d.blockSize sigs algo, ⟨.new, {}, []⟩, 0, false⟩ : SendLoop z) hslabs rfl
    (Nat.zero_add _)
  have hr : slabs.takeWhile (!·.isEmpty) = slabs := by
    rw [takeWhile_eq_self_iff]
    intro slab hslab
    simpa using hslabs slab hslab
  refine ⟨bytes ++ tokenEndFlag :: fileChecksum slabs.flatten, ?_, ?_⟩
  · unfold AerorsyncDriver.sendDeltaPhaseStreaming
    rw [hsigs]
    unfold startProducer at hsend
    dsimp only
    rw [hsend]
    dsimp only
    rw [htail, happ]
    dsimp only
    rw [if_neg (not_not_intro htotal), hr]
    rfl
  · obtain ⟨encoded, state', he, hd⟩ := decodeTail_encode (fileChecksum slabs.flatten) []
      records.1 {} (encodable_wireRecords _ _)
    rw [hb] at he
    cases he
    have hok := (hd none).1 (fun _ _ => rfl)
    rw [append_nil] at hok
    exact (decodeDeltaStream_eq _ _ _).trans hok

/-- **What the inflater sees of an upload.**  The stream is decoded to the records that
were sent, and the inflater is given the deflater's output exactly when no literal is
cut in two by the end of a slab. -/
theorem inflaterInput_upload_iff (hz : SyncFlushes z) {d : AerorsyncDriver}
    {sigs : List EngineSignatureBlock} (hsigs : d.wireSigsToEngine = .ok sigs) (hashes : HashFns)
    (algo : BlockStrongAlgo) (fileChecksum : List UInt8 → List UInt8) (slabs : List (List UInt8))
    (hslabs : ∀ slab ∈ slabs, slab ≠ []) :
    ∃ (bytes : List UInt8) (encoder : DeflateLiteralStreamEncoder z) (report : DeltaStreamReport),
      d.sendDeltaPhaseStreaming hashes algo fileChecksum slabs.flatten.length slabs
          = some (.ok (bytes, encoder)) ∧
        decodeDeltaStream bytes (fileChecksum slabs.flatten).length none
          = .ok (report, bytes.length) ∧
        (inflaterInput (literalRunBlobs report.ops) = encoder.output
          ↔ KeepsLiterals d.blockSize (matchIndex hashes algo sigs) slabs) := by
  obtain ⟨bytes, hsend, hdecode⟩ :=
    sendDeltaPhaseStreaming_eq hsigs hashes algo fileChecksum hslabs
  refine ⟨bytes, _, _, hsend, hdecode, ?_⟩
  rw [inflaterInput_eq_output_iff hz]
  exact isChain_kinds_uploadOps_iff hashes d.blockSize sigs algo hslabs

/-- What zlib at its default level makes of the literals of the two examples below,
without the tail.  Any other literal is stored. -/
def zlibBody (history literal : List UInt8) : List UInt8 :=
  if history = [] ∧ literal = [97] then [0x4a, 0x04, 0x00]
  else if history = [97] ∧ literal = [98] then [0x4a, 0x02, 0x00]
  else
    let len := UInt16.ofNat literal.length
    0x00 :: (u16ToLeBytes len ++ u16ToLeBytes (~~~len) ++ literal ++ [0x00])

/-- The state is what has been compressed. -/
def zlibSample : Deflater where
  State := List UInt8
  new := []
  compress history literal :=
    (zlibBody history literal ++ deflateSyncFlushTail, history ++ literal)

theorem syncFlushes_zlibSample : SyncFlushes zlibSample := by
  intro history literal _
  refine ⟨zlibBody history literal, ?_, rfl⟩
  unfold zlibBody
  split
  · exact cons_ne_nil _ _
  · split
    · exact cons_ne_nil _ _
    · exact cons_ne_nil _ _

/-- MD5 of the two sources below. -/
def fileMd5Sample : List UInt8 → List UInt8
  | [97, 98] => [0x18, 0x7e, 0xf4, 0x43, 0x61, 0x22, 0xd1, 0xcc,
      0x2f, 0x40, 0xdc, 0x2b, 0x92, 0xf0, 0xeb, 0xa0]
  | [0, 1, 84, 19, 97] => [0xa5, 0x1f, 0x22, 0xa7, 0x62, 0x56, 0x03, 0x33,
      0x76, 0x38, 0x76, 0x34, 0x6a, 0x3e, 0xc2, 0x1f]
  | _ => List.replicate 16 0

/-- A slab that is a block of the receiver's, and a literal in the next slab. -/
theorem inflaterInput_upload_copy_then_literal :
    ∃ (bytes : List UInt8) (encoder : DeflateLiteralStreamEncoder zlibSample)
        (report : DeltaStreamReport),
      AerorsyncDriver.sendDeltaPhaseStreaming ⟨some ⟨1, 4, 2, 3⟩, [⟨0x00be0068, [0x63, 0xd8]⟩]⟩
          md5Sample (.md5 0 true) fileMd5Sample 5 [[0, 1, 84, 19], [97]]
          = some (.ok (bytes, encoder)) ∧
        decodeDeltaStream bytes 16 none = .ok (report, bytes.length) ∧
        inflaterInput (literalRunBlobs report.ops) = encoder.output := by
  obtain ⟨bytes, encoder, report, hsend, hdecode, hiff⟩ :=
    @inflaterInput_upload_iff zlibSample syncFlushes_zlibSample
      ⟨some ⟨1, 4, 2, 3⟩, [⟨0x00be0068, [0x63, 0xd8]⟩]⟩ _ rfl md5Sample (.md5 0 true) fileMd5Sample
      [[0, 1, 84, 19], [97]] (by decide)
  exact ⟨bytes, encoder, report, hsend, hdecode, hiff.mpr (by decide)⟩

/-- A new file of two bytes, read one byte at a time.  The flush between the two
literals is lost: four bytes of the deflater's output do not reach the inflater. -/
theorem inflaterInput_upload_two_literals :
    ∃ (bytes : List UInt8) (encoder : DeflateLiteralStreamEncoder zlibSample)
        (report : DeltaStreamReport),
      AerorsyncDriver.sendDeltaPhaseStreaming ⟨some ⟨0, 0, 0, 0⟩, []⟩ md5Sample (.md5 0 true)
          fileMd5Sample 2 [[97], [98]] = some (.ok (bytes, encoder)) ∧
        decodeDeltaStream bytes 16 none = .ok (report, bytes.length) ∧
        report.ops = [.literal [0x4a, 0x04, 0x00], .literal [0x4a, 0x02, 0x00]] ∧
        encoder.output
          = [0x4a, 0x04, 0x00, 0x00, 0x00, 0xff, 0xff, 0x4a, 0x02, 0x00, 0x00, 0x00, 0xff, 0xff] ∧
        inflaterInput (literalRunBlobs report.ops)
          = [0x4a, 0x04, 0x00, 0x4a, 0x02, 0x00, 0x00, 0x00, 0xff, 0xff] ∧
        inflaterInput (literalRunBlobs report.ops) ≠ encoder.output :=
  ⟨_, _, _, rfl, rfl, rfl, rfl, rfl, by decide⟩

end AeroFtp.NativeDriver
