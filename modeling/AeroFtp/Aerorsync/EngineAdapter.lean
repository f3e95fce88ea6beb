/-
The streaming side of the delta engine, `aerorsync/engine_adapter.rs`.

`RollingDeltaPlanProducer` makes the plan of `compute_delta` from a source that
arrives in chunks, and `apply_delta_streaming` applies a plan to a baseline that is
read block by block.  Both exist so that neither file has to be held in memory.

The hash functions come from other crates and are the fields of `HashFns`.  A method
that takes `&mut self` and `&mut Vec` returns both, so a run is a chain of pairs.
The `f64` fields of `EngineDeltaPlan` are left out, since no modelled function reads
them.
-/
import AeroFtp.Lib.LittleEndian
import AeroFtp.Aerorsync.DeltaEngine

namespace AeroFtp.EngineAdapter

open LittleEndian DeltaEngine

/-- The hash functions the engine takes from other crates. -/
structure HashFns where
  sha256 : List UInt8 → Vector UInt8 32
  xxh3_128 : List UInt8 → BitVec 128
  xxh3_128_with_seed : List UInt8 → UInt64 → BitVec 128
  xxh64 : List UInt8 → UInt64 → UInt64
  xxh3_64_with_seed : List UInt8 → UInt64 → UInt64
  md5 : List UInt8 → Vector UInt8 16
  md4 : List UInt8 → Vector UInt8 16
  sha1 : List UInt8 → Vector UInt8 20

/-- How to recompute the strong checksum of a block. -/
inductive BlockStrongAlgo where
  | sha256
  | xxh128 (seed : UInt64)
  | xxh64 (seed : UInt64)
  | xxh3_64 (seed : UInt64)
  | md5 (seed : UInt32) (properSeedOrder : Bool)
  | md4 (seed : UInt32)
  | sha1 (seed : UInt32)
  | unknown
  deriving DecidableEq, Repr

/-- A 32-byte buffer that starts with `bytes` and is zero behind them. -/
def digestBuffer (bytes : List UInt8) : Digest :=
  ⟨((bytes ++ List.replicate 32 0).take 32).toArray, by simp⟩

/-- `seed.to_le_bytes()`, or nothing when the seed is zero. -/
def seedBytes (seed : UInt32) : List UInt8 :=
  if seed ≠ 0 then toLeBytes 4 seed.toNat else []

/-- 32-byte digest buffer; only the first `strongLen` bytes of it are compared. -/
def BlockStrongAlgo.digest (hashes : HashFns) (data : List UInt8) : BlockStrongAlgo → Digest
  | .sha256 => hashes.sha256 data
  | .xxh128 seed =>
    let hash := if seed = 0 then hashes.xxh3_128 data else hashes.xxh3_128_with_seed data seed
    let lo := hash.toNat % 2 ^ 64
    let hi := hash.toNat / 2 ^ 64
    digestBuffer (toLeBytes 8 lo ++ toLeBytes 8 hi)
  | .xxh64 seed => digestBuffer (toLeBytes 8 (hashes.xxh64 data seed).toNat)
  | .xxh3_64 seed => digestBuffer (toLeBytes 8 (hashes.xxh3_64_with_seed data seed).toNat)
  | .md5 seed properSeedOrder =>
    if properSeedOrder then digestBuffer (hashes.md5 (seedBytes seed ++ data)).toList
    else digestBuffer (hashes.md5 (data ++ seedBytes seed)).toList
  | .md4 seed => digestBuffer (hashes.md4 (data ++ seedBytes seed)).toList
  | .sha1 seed => digestBuffer (hashes.sha1 (seedBytes seed ++ data)).toList
  | .unknown => Vector.replicate 32 0

/-- A block signature; the wire carries only `strongLen` bytes of the strong hash. -/
structure EngineSignatureBlock where
  index : UInt32
  rolling : UInt32
  strong : Digest
  strongLen : UInt8
  blockLen : UInt32
  deriving DecidableEq, Repr

/-- `From<delta_engine::BlockSignature> for EngineSignatureBlock`. -/
def EngineSignatureBlock.ofBlockSignature (bs : BlockSignature) : EngineSignatureBlock :=
  { index := bs.index
    rolling := bs.rolling
    strong := bs.strong
    strongLen := 32
    blockLen := bs.size }

/-- `From<&EngineSignatureBlock> for delta_engine::BlockSignature`. -/
def EngineSignatureBlock.toBlockSignature (eb : EngineSignatureBlock) : BlockSignature :=
  { index := eb.index
    rolling := eb.rolling
    strong := eb.strong
    size := eb.blockLen }

/-- Delta instruction of the adapter. -/
inductive EngineDeltaOp where
  | copyBlock (idx : UInt32)
  | literal (bytes : List UInt8)
  deriving DecidableEq, Repr

/-- `From<delta_engine::DeltaOp> for EngineDeltaOp`. -/
def EngineDeltaOp.ofDeltaOp : DeltaOp → EngineDeltaOp
  | .copyBlock i => .copyBlock i
  | .literal d => .literal d

/-- The conversion back, as `CurrentDeltaSyncBridge::apply_delta` makes it. -/
def EngineDeltaOp.toDeltaOp : EngineDeltaOp → DeltaOp
  | .copyBlock i => .copyBlock i
  | .literal b => .literal b

/-! ### The chunk-fed planner -/

/-- Counters of a producer. -/
structure EngineDeltaStats where
  copyBlocks : UInt32 := 0
  literalBytes : Nat := 0
  sourceBytesConsumed : Nat := 0
  deriving DecidableEq, Repr

/-- The planner's state.  `sourceBuf` holds what is not yet drained, and
`sourceBuf[pos..]` of it is still undecided; `rolling` is `some` once the window at
`pos` has been summed. -/
structure RollingDeltaPlanProducer where
  blockSize : Nat
  signatures : List EngineSignatureBlock
  lookup : RollingLookup
  strongAlgo : BlockStrongAlgo
  sourceBuf : List UInt8
  pos : Nat
  rolling : Option RollingChecksum
  literalBuf : List UInt8
  stats : EngineDeltaStats
  hasEmitted : Bool
  finalized : Bool

namespace RollingDeltaPlanProducer

/-- A producer that confirms rolling hits with the given strong algorithm. -/
def withStrongAlgo (blockSize : Nat) (signatures : List EngineSignatureBlock)
    (strongAlgo : BlockStrongAlgo) : RollingDeltaPlanProducer :=
  { blockSize := blockSize
    signatures := signatures
    lookup := buildLookup (signatures.map (·.rolling))
    strongAlgo := strongAlgo
    sourceBuf := []
    pos := 0
    rolling := none
    literalBuf := []
    stats := {}
    hasEmitted := false
    finalized := false }

/-- A producer for the engine's own SHA-256 signatures. -/
def new (blockSize : Nat) (signatures : List EngineSignatureBlock) : RollingDeltaPlanProducer :=
  withStrongAlgo blockSize signatures .sha256

/-- A producer and the plan it appends to. -/
abbrev Emitting := RollingDeltaPlanProducer × List EngineDeltaOp

variable (p : RollingDeltaPlanProducer) (out : List EngineDeltaOp)

/-- Emit the pending literal, if there is one. -/
def flushLiteral : Emitting :=
  if p.literalBuf.isEmpty then (p, out)
  else
    ({ p with
        stats := { p.stats with literalBytes := p.stats.literalBytes + p.literalBuf.length }
        literalBuf := []
        hasEmitted := true },
      out ++ [.literal p.literalBuf])

/-- Bound a caller's unmatched literal run without touching the window. -/
def flushPendingLiteral : Emitting :=
  p.flushLiteral out

/-- The window at `pos`. -/
def window : List UInt8 :=
  p.sourceBuf.extract p.pos (p.pos + p.blockSize)

/-- The comparison of one candidate with the recomputed strong checksum.  An empty
strong never confirms. -/
def confirms (computed : Digest) (sig : EngineSignatureBlock) : Bool :=
  let n := min sig.strongLen.toNat 32
  n > 0 && sig.strong.toList.take n == computed.toList.take n

section Hashing

variable (hashes : HashFns)

variable (p : RollingDeltaPlanProducer) (rolling : RollingChecksum) (out : List EngineDeltaOp)

/-- Linear scan over the candidates with this rolling checksum; the position in the
signature list of the first that is confirmed. -/
def findMatch (rollingVal : UInt32) : Option Nat :=
  match p.lookup rollingVal with
  | none => none
  | some candidates =>
    if p.strongAlgo = .unknown then none
    else
      let computed := p.strongAlgo.digest hashes p.window
      candidates.find? fun idx => (p.signatures[idx]?).any (confirms computed)

/-- The checksum of the window at `pos`, summed afresh if there is none yet; `none`
if the window is not complete. -/
def initRolling : Option RollingChecksum :=
  match p.rolling with
  | some rolling => some rolling
  | none =>
    if p.sourceBuf.length - p.pos ≥ p.blockSize then some (RollingChecksum.new p.window)
    else none

/-- The matching branch of the loop in `drive_chunk`. -/
def copy (sigIdx : Nat) (out : List EngineDeltaOp) : Emitting :=
  let flushed := p.flushLiteral out
  let p := flushed.1
  let copyIdx := ((p.signatures[sigIdx]?).map (·.index)).getD 0
  ({ p with
      stats := { p.stats with copyBlocks := p.stats.copyBlocks + 1 }
      hasEmitted := true
      pos := p.pos + p.blockSize
      rolling := none },
    flushed.2 ++ [.copyBlock copyIdx])

/-- The rolling branch of the loop in `drive_chunk`. -/
def roll : RollingDeltaPlanProducer :=
  let oldByte := p.sourceBuf.getD p.pos 0
  let newByte := p.sourceBuf.getD (p.pos + p.blockSize) 0
  { p with
    literalBuf := p.literalBuf ++ [oldByte]
    rolling := some (rolling.roll oldByte newByte)
    pos := p.pos + 1 }

/-- The loop's body once the window is summed; `none` is its `break`. -/
def driveStep : Option Emitting :=
  match p.findMatch hashes rolling.value with
  | some sigIdx => some (p.copy sigIdx out)
  | none =>
    -- Rolling on needs the byte behind the window; without it, wait.
    if p.sourceBuf.length - p.pos < p.blockSize + 1 then none
    else some (p.roll rolling, out)

/-- The `loop` of `drive_chunk`.  A positive block size moves `pos` in every
iteration that does not break. -/
def driveLoop : Nat → RollingDeltaPlanProducer → List EngineDeltaOp → Emitting
  | 0, p, out => (p, out)
  | fuel + 1, p, out =>
    match p.initRolling with
    | none => (p, out)
    | some rolling =>
      let p := { p with rolling := some rolling }
      match p.driveStep hashes rolling out with
      | none => (p, out)
      | some (p, out) => driveLoop fuel p out

/-- Drive one source chunk through the planner. -/
def driveChunk (chunk : List UInt8) (out : List EngineDeltaOp) : Emitting :=
  if p.finalized || chunk.isEmpty then (p, out)
  else
    let p :=
      { p with
        sourceBuf := p.sourceBuf ++ chunk
        stats := { p.stats with
          sourceBytesConsumed := p.stats.sourceBytesConsumed + chunk.length } }
    let driven := driveLoop hashes (p.sourceBuf.length + 1) p out
    let p := driven.1
    if p.pos > 0 then ({ p with sourceBuf := p.sourceBuf.drop p.pos, pos := 0 }, driven.2)
    else (p, driven.2)

/-- Drain what is left at the end of the source. -/
def finalize : Emitting :=
  if p.finalized then (p, out)
  else
    let p :=
      if p.sourceBuf.length > p.pos then
        { p with literalBuf := p.literalBuf ++ p.sourceBuf.drop p.pos }
      else p
    let flushed := p.flushLiteral out
    let p := flushed.1
    -- The bulk planner sends one empty literal for an empty source.
    let quirk := !p.hasEmitted && p.stats.sourceBytesConsumed == 0
    let p := { p with
      hasEmitted := p.hasEmitted || quirk, sourceBuf := [], pos := 0, rolling := none
      finalized := true }
    (p, if quirk then flushed.2 ++ [.literal []] else flushed.2)

/-- Drive a list of chunks, with a `flush_pending_literal` after each chunk that is
marked for one. -/
def driveChunks : List (List UInt8 × Bool) → RollingDeltaPlanProducer → List EngineDeltaOp →
    Emitting
  | [], p, out => (p, out)
  | (chunk, flushAfter) :: chunks, p, out =>
    let driven := p.driveChunk hashes chunk out
    let kept := if flushAfter then driven.1.flushPendingLiteral driven.2 else driven
    driveChunks chunks kept.1 kept.2

/-- Drive all chunks of a source, then finalize. -/
def run (chunks : List (List UInt8 × Bool)) : Emitting :=
  let driven := driveChunks hashes chunks p []
  driven.1.finalize driven.2

end Hashing

end RollingDeltaPlanProducer

/-! ### The block-wise baseline -/

/-- `std::io::ErrorKind`, as far as it is raised here. -/
inductive ErrorKind where
  | invalidInput
  | unexpectedEof
  deriving DecidableEq, Repr

/-- `std::io::Error`. -/
structure IoError where
  kind : ErrorKind
  message : String
  deriving DecidableEq, Repr

/-- The `(offset, len)` pair of a block in a baseline of length `totalLen`. -/
def baselineBlockBounds (blockIdx blockSize : UInt32) (totalLen : Nat) :
    Except IoError (Nat × Nat) :=
  if blockSize = 0 then
    if blockIdx = 0 then .ok (0, 0)
    else
      .error ⟨.invalidInput,
        s!"BaselineSource::read_block: block_size == 0 with block_idx {blockIdx} > 0"⟩
  else
    let offset := blockIdx.toNat * blockSize.toNat
    if offset > totalLen then
      .error ⟨.invalidInput,
        s!"BaselineSource::read_block: offset {offset} > baseline len {totalLen} " ++
          s!"(block_idx={blockIdx}, block_size={blockSize})"⟩
    else
      let stop := min (offset + blockSize.toNat) totalLen
      .ok (offset, stop - offset)

/-- Random-access reads over the download-side baseline. -/
class BaselineSource (σ : Type) where
  len : σ → Nat
  readBlock : σ → UInt32 → UInt32 → Except IoError (List UInt8)

/-- A baseline held in memory. -/
structure MemoryBaseline where
  data : List UInt8

/-- `self.data[start..start + len].to_vec()`. -/
def MemoryBaseline.readBlock (b : MemoryBaseline) (blockIdx blockSize : UInt32) :
    Except IoError (List UInt8) :=
  match baselineBlockBounds blockIdx blockSize b.data.length with
  | .error e => .error e
  | .ok (offset, len) =>
    if len = 0 then .ok []
    else .ok (b.data.extract offset (offset + len))

instance : BaselineSource MemoryBaseline where
  len b := b.data.length
  readBlock := MemoryBaseline.readBlock

/-- A file opened for reading, with the length it had then. -/
structure FileBaseline where
  file : List UInt8
  len : Nat

/-- `File::open` and `metadata().len()`. -/
def FileBaseline.open (content : List UInt8) : FileBaseline :=
  { file := content, len := content.length }

/-- `seek` to the offset, then `read_exact`, which fails on a file that has become
shorter than it was when it was opened. -/
def FileBaseline.readBlock (b : FileBaseline) (blockIdx blockSize : UInt32) :
    Except IoError (List UInt8) :=
  match baselineBlockBounds blockIdx blockSize b.len with
  | .error e => .error e
  | .ok (offset, len) =>
    if len = 0 then .ok []
    else if b.file.length < offset + len then .error ⟨.unexpectedEof, "early eof"⟩
    else .ok ((b.file.drop offset).take len)

instance : BaselineSource FileBaseline where
  len b := b.len
  readBlock := FileBaseline.readBlock

/-! ### Applying a plan block by block -/

section Apply

variable {σ : Type} [BaselineSource σ]

/-- The `for op in ops` loop of `apply_delta_streaming`.  `written` is what the
writer has received; it keeps it when the loop fails. -/
def applyOps (baseline : σ) (blockSize : UInt32) :
    List EngineDeltaOp → List UInt8 → Nat → List UInt8 × Except IoError Nat
  | [], written, bytesWritten => (written, .ok bytesWritten)
  | .literal bytes :: ops, written, bytesWritten =>
    if bytes.isEmpty then applyOps baseline blockSize ops written bytesWritten
    else applyOps baseline blockSize ops (written ++ bytes) (bytesWritten + bytes.length)
  | .copyBlock idx :: ops, written, bytesWritten =>
    match BaselineSource.readBlock baseline idx blockSize with
    | .error e => (written, .error e)
    | .ok block =>
      if block.isEmpty then applyOps baseline blockSize ops written bytesWritten
      else applyOps baseline blockSize ops (written ++ block) (bytesWritten + block.length)

/-- Streaming counterpart of `apply_delta`, over a writer that accepts every write:
the bytes written and the returned count. -/
def applyDeltaStreaming (baseline : σ) (ops : List EngineDeltaOp) (blockSize : Nat) :
    List UInt8 × Except IoError Nat :=
  if blockSize > 2 ^ 32 - 1 then
    ([], .error ⟨.invalidInput,
      s!"apply_delta_streaming: block_size {blockSize} exceeds u32::MAX; " ++
        "cannot address baseline blocks at this stride"⟩)
  else applyOps baseline (UInt32.ofNat blockSize) ops [] 0

end Apply

end AeroFtp.EngineAdapter
