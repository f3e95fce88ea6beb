/-
The delta engine, `aerorsync/delta_engine.rs`.

The destination cuts its file into blocks and describes each by a rolling checksum
and a strong hash.  The source slides a window over its own file, replaces every
window whose two checksums are in the table by the block's index, and sends the
bytes in between as literals.  The destination rebuilds the file from that.

The strong hash is SHA-256, which is not part of the repository: it is a parameter
here.  `usize` and `u64` counters are `Nat`; the checksum's two sums, the block
index and the copy counter keep the width the source gives them.  The two `f64`
fields of `DeltaResult` are left out, since no modelled function reads them.
-/
import Mathlib.Logic.Function.Basic

namespace AeroFtp.DeltaEngine

/-- `[u8; 32]`, the strong hash of a block. -/
abbrev Digest := Vector UInt8 32

/-- Rolling Adler-32 checksum for a window. -/
structure RollingChecksum where
  a : UInt32
  b : UInt32
  windowSize : Nat
  deriving DecidableEq, Repr

/-- `(byte as i8 as i32) as u32`: rsync sums signed bytes. -/
def rsyncSignedByte (byte : UInt8) : UInt32 := byte.toInt8.toInt32.toUInt32

namespace RollingChecksum

/-- One byte of `RollingChecksum::new`'s loop, on the pair of sums. -/
def sumByte (ab : UInt32 × UInt32) (byte : UInt8) : UInt32 × UInt32 :=
  let a := ab.1 + rsyncSignedByte byte
  (a, ab.2 + a)

/-- Initialize from a data block. -/
def new (data : List UInt8) : RollingChecksum :=
  let ab := data.foldl sumByte (0, 0)
  { a := ab.1, b := ab.2, windowSize := data.length }

/-- The current checksum value: the low halves of the two sums. -/
def value (r : RollingChecksum) : UInt32 :=
  ((r.b &&& 0xFFFF) <<< 16) ||| (r.a &&& 0xFFFF)

/-- Roll the window: remove `oldByte` from the front, add `newByte` to the end. -/
def roll (r : RollingChecksum) (oldByte newByte : UInt8) : RollingChecksum :=
  let old := rsyncSignedByte oldByte
  let new := rsyncSignedByte newByte
  let a := r.a + new - old
  { r with
    a := a
    b := r.b + a - UInt32.ofNat r.windowSize * old }

end RollingChecksum

/-- A block signature: rolling checksum, strong hash and block index. -/
structure BlockSignature where
  index : UInt32
  rolling : UInt32
  strong : Digest
  size : UInt32
  deriving DecidableEq, Repr

/-- Signature table for a file, computed on the destination side. -/
structure SignatureTable where
  blockSize : Nat
  fileSize : Nat
  signatures : List BlockSignature
  deriving DecidableEq, Repr

/-- Delta instruction. -/
inductive DeltaOp where
  /-- Copy block `idx` from the destination file. -/
  | copyBlock (idx : UInt32)
  /-- Literal bytes that match no block. -/
  | literal (bytes : List UInt8)
  deriving DecidableEq, Repr

/-- The counters `compute_delta` returns next to the instructions. -/
structure DeltaResult where
  blockSize : Nat
  sourceSize : Nat
  destSize : Nat
  copyBlocks : UInt32
  literalBytes : Nat
  totalDeltaBytes : Nat
  deriving DecidableEq, Repr

section Hashing

variable (strongHash : List UInt8 → Digest)

/-- The `while offset < data.len()` loop of `compute_signatures`.  A positive block
size moves `offset` in every iteration, so `data.length` iterations suffice; with
block size zero the source loops forever. -/
def signaturesFrom (data : List UInt8) (blockSize : Nat) :
    Nat → Nat → UInt32 → List BlockSignature
  | 0, _, _ => []
  | fuel + 1, offset, index =>
    if offset < data.length then
      let stop := min (offset + blockSize) data.length
      let block := data.extract offset stop
      { index := index
        rolling := (RollingChecksum.new block).value
        strong := strongHash block
        size := UInt32.ofNat block.length } :: signaturesFrom data blockSize fuel stop (index + 1)
    else []

/-- Compute block signatures for a file (destination side). -/
def computeSignatures (data : List UInt8) (blockSize : Nat) : SignatureTable :=
  { blockSize := blockSize
    fileSize := data.length
    signatures := signaturesFrom strongHash data blockSize data.length 0 0 }

/-- `HashMap<u32, Vec<usize>>`, as the function its `get` computes. -/
abbrev RollingLookup := UInt32 → Option (List Nat)

/-- `map.entry(rolling).or_default().push(i)`. -/
def pushEntry (map : RollingLookup) (rolling : UInt32) (i : Nat) : RollingLookup :=
  Function.update map rolling (some ((map rolling).getD [] ++ [i]))

/-- A lookup table from the rolling checksums of a list of signatures to their
positions in it. -/
def buildLookup (rollings : List UInt32) : RollingLookup :=
  rollings.zipIdx.foldl (fun map entry => pushEntry map entry.1 entry.2) (fun _ => none)

/-- Build a lookup table from rolling checksums to signature indices. -/
def buildRollingLookup (sigs : List BlockSignature) : RollingLookup :=
  buildLookup (sigs.map (·.rolling))

/-- The candidates the rolling value selects, tried in order against the strong
hash of the window; the first that agrees. -/
def findSignature (sigs : List BlockSignature) (lookup : RollingLookup)
    (rollingVal : UInt32) (window : List UInt8) : Option BlockSignature :=
  match lookup rollingVal with
  | none => none
  | some candidates =>
    let strong := strongHash window
    (candidates.filterMap (sigs[·]?)).find? fun sig => sig.strong == strong

/-- The variables `compute_delta`'s loop carries. -/
structure DeltaLoop where
  ops : List DeltaOp
  literalBuf : List UInt8
  copyBlocks : UInt32
  literalTotal : Nat
  pos : Nat
  rolling : RollingChecksum

/-- `if !literal_buf.is_empty() { literal_total += ..; ops.push(Literal(take(..))) }`. -/
def DeltaLoop.flushLiteral (st : DeltaLoop) : DeltaLoop :=
  if st.literalBuf.isEmpty then st
  else
    { st with
      literalTotal := st.literalTotal + st.literalBuf.length
      ops := st.ops ++ [.literal st.literalBuf]
      literalBuf := [] }

/-- The matching branch of the loop. -/
def DeltaLoop.copy (st : DeltaLoop) (source : List UInt8) (blockSize : Nat)
    (sig : BlockSignature) : DeltaLoop :=
  let st := st.flushLiteral
  let pos := st.pos + blockSize
  { st with
    ops := st.ops ++ [.copyBlock sig.index]
    copyBlocks := st.copyBlocks + 1
    pos := pos
    rolling :=
      if pos + blockSize ≤ source.length then
        RollingChecksum.new (source.extract pos (pos + blockSize))
      else st.rolling }

/-- The `!matched` branch of the loop. -/
def DeltaLoop.skip (st : DeltaLoop) (source : List UInt8) (blockSize : Nat) : DeltaLoop :=
  let byte := source.getD st.pos 0
  { st with
    literalBuf := st.literalBuf ++ [byte]
    rolling :=
      if st.pos + blockSize < source.length then
        st.rolling.roll byte (source.getD (st.pos + blockSize) 0)
      else st.rolling
    pos := st.pos + 1 }

/-- The `loop` of `compute_delta`.  A positive block size moves `pos` in every
iteration, so one iteration more than there are bytes suffices. -/
def deltaLoop (source : List UInt8) (table : SignatureTable) (lookup : RollingLookup) :
    Nat → DeltaLoop → DeltaLoop
  | 0, st => st
  | fuel + 1, st =>
    if st.pos + table.blockSize > source.length then
      { st with literalBuf := st.literalBuf ++ source.drop st.pos }
    else
      let window := source.extract st.pos (st.pos + table.blockSize)
      match findSignature strongHash table.signatures lookup st.rolling.value window with
      | some sig => deltaLoop source table lookup fuel (st.copy source table.blockSize sig)
      | none => deltaLoop source table lookup fuel (st.skip source table.blockSize)

/-- Compute delta between source data and destination signatures. -/
def computeDelta (source : List UInt8) (table : SignatureTable) : List DeltaOp × DeltaResult :=
  let blockSize := table.blockSize
  let lookup := buildRollingLookup table.signatures
  if source.length < blockSize then
    -- File smaller than the block size: send as literal.
    ([.literal source],
      { blockSize := blockSize
        sourceSize := source.length
        destSize := table.fileSize
        copyBlocks := 0
        literalBytes := source.length
        totalDeltaBytes := source.length })
  else
    let st := deltaLoop strongHash source table lookup (source.length + 1)
      { ops := [], literalBuf := [], copyBlocks := 0, literalTotal := 0, pos := 0
        rolling := RollingChecksum.new (source.take (min blockSize source.length)) }
    let st := st.flushLiteral
    (st.ops,
      { blockSize := blockSize
        sourceSize := source.length
        destSize := table.fileSize
        copyBlocks := st.copyBlocks
        literalBytes := st.literalTotal
        totalDeltaBytes := st.literalTotal + st.copyBlocks.toNat * 8 })

end Hashing

/-- One instruction of `apply_delta`, on the output so far. -/
def applyOp (dest : List UInt8) (blockSize : Nat) (output : List UInt8) :
    DeltaOp → Except String (List UInt8)
  | .copyBlock idx =>
    let offset := idx.toNat * blockSize
    let size := dest.length
    if offset ≥ size then
      .error s!"CopyBlock index {idx} out of range (dest size: {size})"
    else
      let stop := min (offset + blockSize) size
      .ok (output ++ dest.extract offset stop)
  | .literal bytes => .ok (output ++ bytes)

/-- Reconstruct a file from the original (destination) data and delta instructions. -/
def applyDelta (dest : List UInt8) (ops : List DeltaOp) (blockSize : Nat) :
    Except String (List UInt8) :=
  ops.foldlM (applyOp dest blockSize) []

end AeroFtp.DeltaEngine
