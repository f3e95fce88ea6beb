/-
The signature header and its blocks, `aerorsync/real_wire.rs` section 6.

The receiver describes its file by a `SumHead` and as many `SumBlock`s as the head
counts.  All blocks are `block_length` long but the last, which is
`remainder_length` long when that is not zero.
-/
import AeroFtp.Aerorsync.RealWire.Primitives

namespace AeroFtp.RealWire

/-- Decoded `sum_head`. -/
structure SumHead where
  count : Int32
  blockLength : Int32
  checksumLength : Int32
  remainderLength : Int32
  deriving DecidableEq, Repr

/-- Decoded signature block: rolling checksum and truncated strong checksum. -/
structure SumBlock where
  rolling : UInt32
  strong : List UInt8
  deriving DecidableEq, Repr

/-- `SUM_HEAD_MAX_BLOCK_LEN_PROTO30PLUS`. -/
def sumHeadMaxBlockLen : Int32 := 131072

def sumHeadMaxDigestLen : Int32 := 20

/-- Decode a `write_sum_head`: four `i32` fields and their bounds. -/
def decodeSumHead (buf : List UInt8) : Except RealWireError (SumHead × Nat) :=
  if buf.length < 16 then .error (.truncatedBuffer "sum_head" 16 buf.length)
  else
    let count := i32FromLeBytes (buf.extract 0 4)
    let blockLength := i32FromLeBytes (buf.extract 4 8)
    let checksumLength := i32FromLeBytes (buf.extract 8 12)
    let remainderLength := i32FromLeBytes (buf.extract 12 16)
    if count < 0 then .error (.sumHeadFieldOutOfRange "count" count Int32.maxValue)
    else if ¬ (0 ≤ blockLength ∧ blockLength ≤ sumHeadMaxBlockLen) then
      .error (.sumHeadFieldOutOfRange "block_length" blockLength sumHeadMaxBlockLen)
    else if ¬ (0 ≤ checksumLength ∧ checksumLength ≤ sumHeadMaxDigestLen) then
      .error (.sumHeadFieldOutOfRange "checksum_length" checksumLength sumHeadMaxDigestLen)
    else if ¬ (0 ≤ remainderLength ∧ remainderLength ≤ blockLength) then
      .error (.sumHeadFieldOutOfRange "remainder_length" remainderLength blockLength)
    else .ok (⟨count, blockLength, checksumLength, remainderLength⟩, 16)

/-- Decode one signature block with `strongLen` bytes of strong checksum. -/
def decodeSumBlock (buf : List UInt8) (strongLen : Nat) : Except RealWireError (SumBlock × Nat) :=
  let needed := 4 + strongLen
  if buf.length < needed then .error (.truncatedBuffer "sum_block" needed buf.length)
  else
    .ok (⟨u32FromLeBytes (buf.extract 0 4), buf.extract 4 (4 + strongLen)⟩, needed)

/-- `count` signature blocks, one behind the other. -/
def decodeSumBlocks (buf : List UInt8) (strongLen : Nat) :
    Nat → Except RealWireError (List SumBlock × Nat)
  | 0 => .ok ([], 0)
  | count + 1 =>
    match decodeSumBlocks buf strongLen count with
    | .error e => .error e
    | .ok (blocks, cursor) =>
      match decodeSumBlock (buf.drop cursor) strongLen with
      | .error e => .error e
      | .ok (block, consumed) => .ok (blocks ++ [block], cursor + consumed)

/-- Head and blocks of one file, in the order they arrive. -/
def decodeSignature (buf : List UInt8) : Except RealWireError ((SumHead × List SumBlock) × Nat) :=
  match decodeSumHead buf with
  | .error e => .error e
  | .ok (head, cursor) =>
    match decodeSumBlocks (buf.drop cursor) head.checksumLength.toInt.toNat
        head.count.toInt.toNat with
    | .error e => .error e
    | .ok (blocks, consumed) => .ok ((head, blocks), cursor + consumed)

end AeroFtp.RealWire
