/-
The delta phases of the driver, `aerorsync/native_driver.rs`.

Only the fields of the driver that the modelled phases read are kept.  The upload is
followed from the slabs the source reader hands over to the bytes of the delta stream;
the echo of the request in front of them, the counters and the progress reports are
left out, and so are the frames the sender cuts the bytes into.  `none` is a failed
`assert!` or an index out of bounds.
-/
import AeroFtp.Aerorsync.EngineAdapter
import AeroFtp.Aerorsync.RealWire.Signature
import AeroFtp.Aerorsync.RealWire.DeltaToken
import AeroFtp.Aerorsync.RealWire.FileList
import AeroFtp.Aerorsync.RealWire.DeflateLiteral
import AeroFtp.Lib.Framing

namespace AeroFtp.NativeDriver

open EngineAdapter RealWire

/-- `AerorsyncError`, as far as the modelled phases raise it. -/
inductive AerorsyncError where
  | invalidFrame (message : String)
  deriving DecidableEq, Repr

/-- What the signature phase left in the driver. -/
structure AerorsyncDriver where
  receivedSumHead : Option SumHead
  receivedSignatures : List SumBlock
  deriving DecidableEq, Repr

namespace AerorsyncDriver

/-- Rebuild engine signatures from the received `SumBlock`s: the strong bytes are
padded to 32, and every block is given the same length. -/
def wireSigsToEngine (d : AerorsyncDriver) : Except AerorsyncError (List EngineSignatureBlock) :=
  match d.receivedSumHead with
  | none => .error (.invalidFrame "wire_sigs_to_engine: no received sum_head")
  | some head =>
    let blockLen := head.blockLength.toUInt32
    .ok (d.receivedSignatures.zipIdx.map fun (wire, idx) =>
      let take := min wire.strong.length 32
      { index := UInt32.ofNat idx
        rolling := wire.rolling
        strong := digestBuffer (wire.strong.take take)
        strongLen := UInt8.ofNat take
        blockLen := blockLen })

/-- `head.block_length as usize`, zero without a head. -/
def blockSize (d : AerorsyncDriver) : Nat :=
  match d.receivedSumHead with
  | some head => head.blockLength.toInt64.toUInt64.toNat
  | none => 0

end AerorsyncDriver

/-! ### The file list -/

/-- The failures `receive_file_list_single_file` answers by pulling another frame. -/
def needsMoreBytes : RealWireError → Bool
  | .truncatedBuffer .. | .invalidNameLen .. | .invalidAlgoListLen .. => true
  | _ => false

/-! ### The upload -/

/-- What `append_streaming_delta_ops` writes to: the literal encoder, the baseline of
relative tokens and the stream so far. -/
structure DeltaUpload (z : Deflater) where
  encoder : DeflateLiteralStreamEncoder z
  wireState : DeltaStreamState
  payload : List UInt8

section Upload

variable {z : Deflater}

/-- Encode records onto the stream. -/
def DeltaUpload.encode (up : DeltaUpload z) (wireOps : List DeltaOp) : Option (DeltaUpload z) :=
  match encodeDeltaOps wireOps up.wireState with
  | none => none
  | some (bytes, wireState) => some { up with wireState, payload := up.payload ++ bytes }

/-- Compress and encode engine operations.  An empty literal is skipped; a long one
becomes several records. -/
def appendStreamingDeltaOps : List EngineDeltaOp → DeltaUpload z → Option (DeltaUpload z)
  | [], up => some up
  | .literal raw :: ops, up =>
    if raw.isEmpty then appendStreamingDeltaOps ops up
    else
      let (compressed, encoder) := up.encoder.compressLiteral raw
      let records := (Framing.chunks maxDeltaLiteralLen compressed).map DeltaOp.literal
      match { up with encoder }.encode records with
      | none => none
      | some up => appendStreamingDeltaOps ops up
  | .copyBlock idx :: ops, up =>
    match up.encode [.copyRun idx.toInt32 1] with
    | none => none
    | some up => appendStreamingDeltaOps ops up

/-- The variables the loop over the slabs carries. -/
structure SendLoop (z : Deflater) where
  producer : Option RollingDeltaPlanProducer
  upload : DeltaUpload z
  totalSourceBytes : Nat
  producerFinalized : Bool

/-- The operations of one slab.  Without a producer the slab is a literal; otherwise
the pending literal is flushed behind every slab, and the last one is finalized. -/
def slabOps (hashes : HashFns) (producer : Option RollingDeltaPlanProducer) (slab : List UInt8)
    (declaredLastSlab : Bool) : Option RollingDeltaPlanProducer × List EngineDeltaOp :=
  match producer with
  | some producer =>
    let driven := producer.driveChunk hashes slab []
    let kept :=
      if declaredLastSlab then driven.1.finalize driven.2
      else driven.1.flushPendingLiteral driven.2
    (some kept.1, kept.2)
  | none => (none, [.literal slab])

/-- The loop over the slabs.  An empty read ends it. -/
def sendSlabs (hashes : HashFns) (sourceLen : Nat) :
    List (List UInt8) → SendLoop z → Option (Except AerorsyncError (SendLoop z))
  | [], st => some (.ok st)
  | slab :: slabs, st =>
    if slab.isEmpty then some (.ok st)
    else
      let observed := st.totalSourceBytes + slab.length
      if observed > sourceLen then
        some (.error (.invalidFrame
          s!"send_delta_phase_streaming: source exceeded declared source_len {sourceLen} (observed at least {observed} bytes)"))
      else
        let declaredLastSlab := observed == sourceLen
        let (producer, ops) := slabOps hashes st.producer slab declaredLastSlab
        match appendStreamingDeltaOps ops st.upload with
        | none => none
        | some upload =>
          sendSlabs hashes sourceLen slabs
            { producer, upload
              totalSourceBytes := observed
              producerFinalized :=
                st.producerFinalized || (producer.isSome && declaredLastSlab) }

/-- Finalize a producer that has not seen a last slab. -/
def finalizeTail (st : SendLoop z) : Option (DeltaUpload z) :=
  match st.producerFinalized, st.producer with
  | false, some producer => appendStreamingDeltaOps (producer.finalize []).2 st.upload
  | _, _ => some st.upload

/-- The delta stream of an upload, with the encoder as it is left. -/
def AerorsyncDriver.sendDeltaPhaseStreaming (d : AerorsyncDriver) (hashes : HashFns)
    (algo : BlockStrongAlgo) (fileChecksum : List UInt8 → List UInt8) (sourceLen : Nat)
    (slabs : List (List UInt8)) :
    Option (Except AerorsyncError (List UInt8 × DeflateLiteralStreamEncoder z)) :=
  match d.wireSigsToEngine with
  | .error e => some (.error e)
  | .ok engineSigs =>
    let producer :=
      if d.blockSize ≠ 0 then
        some (RollingDeltaPlanProducer.withStrongAlgo d.blockSize engineSigs algo)
      else none
    let start : SendLoop z :=
      { producer, upload := ⟨.new, {}, []⟩, totalSourceBytes := 0, producerFinalized := false }
    match sendSlabs hashes sourceLen slabs start with
    | none => none
    | some (.error e) => some (.error e)
    | some (.ok st) =>
      match finalizeTail st with
      | none => none
      | some upload =>
        let total := st.totalSourceBytes
        if total ≠ sourceLen then
          some (.error (.invalidFrame
            s!"send_delta_phase_streaming: declared source_len {sourceLen} != bytes read {total}"))
        else
          let read := (slabs.takeWhile (!·.isEmpty)).flatten
          some (.ok (upload.payload ++ tokenEndFlag :: fileChecksum read, upload.encoder))

end Upload

/-! ### From wire operations to engine operations -/

/-- The first pass of `delta_wire_to_engine_ops`: consecutive literals are put
together.  `currentRun` is the run so far. -/
def literalRunBlobsFrom : List UInt8 → List DeltaOp → List (List UInt8)
  | currentRun, [] => if currentRun.isEmpty then [] else [currentRun]
  | currentRun, .literal compressedPayload :: wireOps =>
    literalRunBlobsFrom (currentRun ++ compressedPayload) wireOps
  | currentRun, .copyRun _ _ :: wireOps =>
    (if currentRun.isEmpty then [] else [currentRun]) ++ literalRunBlobsFrom [] wireOps

def literalRunBlobs (wireOps : List DeltaOp) : List (List UInt8) := literalRunBlobsFrom [] wireOps

/-- The copy of one block of a run. -/
def copyBlockAt (blockIdx : Int32) : Except AerorsyncError EngineDeltaOp :=
  if blockIdx < 0 then
    .error (.invalidFrame s!"negative block index {blockIdx} in delta CopyRun")
  else .ok (.copyBlock blockIdx.toUInt32)

/-- The blocks of one copy run, as the second pass of `delta_wire_to_engine_ops`
pushes them.  The sum wraps as in a release build. -/
def expandRun (startTokenIndex : Int32) (runLength : UInt16) :
    Except AerorsyncError (List EngineDeltaOp) :=
  (List.range runLength.toNat).mapM fun k => copyBlockAt (startTokenIndex + Int32.ofNat k)

end AeroFtp.NativeDriver
