/-
The delta token stream, `aerorsync/real_wire.rs` section 7.

A file's delta is a sequence of records, ended by a zero byte and the file's strong
checksum.  A literal record carries its own length.  A copy record names a block, or
a run of blocks, either absolutely or relative to the end of the last run, which both
sides keep in a `DeltaStreamState`.  A decoder that takes `&mut state` returns the
new state; it leaves the state alone when it fails.
-/
import AeroFtp.Aerorsync.RealWire.Primitives

namespace AeroFtp.RealWire

def tokenEndFlag : UInt8 := 0x00
def tokenLong : UInt8 := 0x20
def tokenrunLong : UInt8 := 0x21
def tokenDeflatedData : UInt8 := 0x40
def tokenRel : UInt8 := 0x80
def tokenrunRel : UInt8 := 0xC0

/-- Maximum literal payload of a single record. -/
def maxDeltaLiteralLen : Nat := 16383

/-- One decoded delta instruction. -/
inductive DeltaOp where
  /-- One or more consecutive blocks. -/
  | copyRun (startTokenIndex : Int32) (runLength : UInt16)
  /-- An opaque compressed payload. -/
  | literal (compressedPayload : List UInt8)
  deriving DecidableEq, Repr

/-- The baseline relative tokens are resolved against. -/
structure DeltaStreamState where
  lastRunEnd : Int32 := 0
  deriving DecidableEq, Repr

/-- Outcome of a single record. -/
inductive DeltaOpOutcome where
  | op (op : DeltaOp)
  | endFlag
  deriving DecidableEq, Repr

/-- A decoded delta with the trailing file checksum. -/
structure DeltaStreamReport where
  ops : List DeltaOp
  fileChecksum : List UInt8
  deriving DecidableEq, Repr

variable (buf : List UInt8) (x : UInt16)

/-- `u16::saturating_add(1)`. -/
def saturatingSucc : UInt16 := if x = 0xFFFF then x else x + 1

/-- `u16::saturating_sub(1)`. -/
def saturatingPred : UInt16 := if x = 0 then x else x - 1

/-- `i32::from(x)` of a `u16`. -/
def i32FromU16 : Int32 := Int32.ofNat x.toNat

/-- `i32::from(tag & 0x3F)`. -/
def relativeOffset (tag : UInt8) : Int32 := Int32.ofNat (tag &&& 0x3F).toNat

/-- Decode one record. -/
def decodeDeltaOp (state : DeltaStreamState) :
    Except RealWireError ((DeltaOpOutcome × Nat) × DeltaStreamState) :=
  match buf with
  | [] => .error (.deltaTokenTruncated "tag" 1 0)
  | tag :: rest =>
    if tag = tokenEndFlag then .ok ((.endFlag, 1), state)
    else if tag &&& 0xC0 = tokenDeflatedData then
      match rest with
      | [] => .error (.deltaTokenTruncated "deflated_len" 2 buf.length)
      | lo :: body =>
        let hi6 := (tag &&& 0x3F).toNat
        let lo8 := lo.toNat
        let len := (hi6 <<< 8) ||| lo8
        if len = 0 then .error (.deltaTokenTruncated "deflated_len_zero" 1 0)
        else if buf.length < 2 + len then
          .error (.deltaTokenTruncated "deflated_payload" len (buf.length - 2))
        else .ok ((.op (.literal (body.take len)), 2 + len), state)
    else if tag &&& 0xC0 = tokenrunRel then
      -- Before the test for `tokenRel`, since 0xC0 has the 0x80 bit too.
      if buf.length < 3 then .error (.deltaTokenTruncated "tokenrun_rel" 3 buf.length)
      else
        let rel := relativeOffset tag
        let runExtra := u16FromLeBytes (buf.extract 1 3)
        let runLength := saturatingSucc runExtra
        let start := state.lastRunEnd + rel
        .ok ((.op (.copyRun start runLength), 3), ⟨start + i32FromU16 runExtra⟩)
    else if tag &&& 0xC0 = tokenRel then
      let rel := relativeOffset tag
      let start := state.lastRunEnd + rel
      .ok ((.op (.copyRun start 1), 1), ⟨start⟩)
    else if tag = tokenrunLong then
      if buf.length < 7 then .error (.deltaTokenTruncated "tokenrun_long" 7 buf.length)
      else
        let start := i32FromLeBytes (buf.extract 1 5)
        let runExtra := u16FromLeBytes (buf.extract 5 7)
        let runLength := saturatingSucc runExtra
        .ok ((.op (.copyRun start runLength), 7), ⟨start + i32FromU16 runExtra⟩)
    else if tag = tokenLong then
      if buf.length < 5 then .error (.deltaTokenTruncated "token_long" 5 buf.length)
      else
        let start := i32FromLeBytes (buf.extract 1 5)
        .ok ((.op (.copyRun start 1), 5), ⟨start⟩)
    else .error (.deltaTokenTruncated "unknown_tag" 1 1)

/-- Decode the checksum that follows the end flag. -/
def decodeFileChecksum (len : Nat) : Except RealWireError (List UInt8 × Nat) :=
  if buf.length < len then .error (.deltaTokenTruncated "file_checksum" len buf.length)
  else .ok (buf.take len, len)

/-- Encode one instruction; `none` where the source asserts. -/
def encodeDeltaOp (op : DeltaOp) (state : DeltaStreamState) :
    Option (List UInt8 × DeltaStreamState) :=
  match op with
  | .literal payload =>
    let len := payload.length
    if 1 ≤ len ∧ len ≤ maxDeltaLiteralLen then
      let hi6 := UInt8.ofNat ((len >>> 8) &&& 0x3F)
      let lo8 := UInt8.ofNat (len &&& 0xFF)
      some ((tokenDeflatedData ||| hi6) :: lo8 :: payload, state)
    else none
  | .copyRun start runLength =>
    let rel := start - state.lastRunEnd
    let useRel := 0 ≤ rel ∧ rel ≤ 63
    let runExtra := saturatingPred runLength
    let state : DeltaStreamState := ⟨start + i32FromU16 runExtra⟩
    let rel8 := rel.toUInt32.toUInt8
    if useRel ∧ runLength = 1 then some ([tokenRel ||| rel8], state)
    else if useRel then some ((tokenrunRel ||| rel8) :: u16ToLeBytes runExtra, state)
    else if runLength = 1 then some (tokenLong :: i32ToLeBytes start, state)
    else some (tokenrunLong :: (i32ToLeBytes start ++ u16ToLeBytes runExtra), state)

/-- The instructions of a stream, one behind the other. -/
def encodeDeltaOps : List DeltaOp → DeltaStreamState → Option (List UInt8 × DeltaStreamState)
  | [], state => some ([], state)
  | op :: ops, state =>
    match encodeDeltaOp op state with
    | none => none
    | some (bytes, state) =>
      match encodeDeltaOps ops state with
      | none => none
      | some (more, state) => some (bytes ++ more, state)

/-- Encode a complete delta stream. -/
def encodeDeltaStream (report : DeltaStreamReport) : Option (List UInt8) :=
  match encodeDeltaOps report.ops {} with
  | none => none
  | some (bytes, _) => some (bytes ++ tokenEndFlag :: report.fileChecksum)

/-- `i32::checked_add`. -/
def checkedAdd (a b : Int32) : Option Int32 :=
  let sum := a.toInt + b.toInt
  if Int32.minValue.toInt ≤ sum ∧ sum ≤ Int32.maxValue.toInt then some (a + b) else none

/-- The range check on a copy, when the block count is known. -/
def checkTokenRange (sumHeadCount : Option Int32) (op : DeltaOp) : Except RealWireError Unit :=
  match sumHeadCount, op with
  | some count, .copyRun start runLength =>
    match checkedAdd start (i32FromU16 runLength) with
    | none => .error (.deltaTokenOutOfRange start count)
    | some stop =>
      if start < 0 ∨ stop > count then .error (.deltaTokenOutOfRange start count)
      else .ok ()
  | _, _ => .ok ()

/-- The `loop` of `decode_delta_stream`, on `buf[cursor..]`.  Every record consumes a
byte, so one iteration more than there are bytes suffices. -/
def decodeDeltaOps (sumHeadCount : Option Int32) :
    Nat → List UInt8 → DeltaStreamState → Except RealWireError (List DeltaOp × Nat)
  | 0, _, _ => .error (.deltaTokenTruncated "tag" 1 0)
  | fuel + 1, buf, state =>
    match decodeDeltaOp buf state with
    | .error e => .error e
    | .ok ((.endFlag, consumed), _) => .ok ([], consumed)
    | .ok ((.op op, consumed), state) =>
      match checkTokenRange sumHeadCount op with
      | .error e => .error e
      | .ok () =>
        match decodeDeltaOps sumHeadCount fuel (buf.drop consumed) state with
        | .error e => .error e
        | .ok (ops, cursor) => .ok (op :: ops, consumed + cursor)

/-- Decode records until the end flag, then the file checksum. -/
def decodeDeltaStream (checksumLen : Nat) (sumHeadCount : Option Int32) :
    Except RealWireError (DeltaStreamReport × Nat) :=
  match decodeDeltaOps sumHeadCount (buf.length + 1) buf {} with
  | .error e => .error e
  | .ok (ops, cursor) =>
    match decodeFileChecksum (buf.drop cursor) checksumLen with
    | .error e => .error e
    | .ok (fileChecksum, consumed) => .ok (⟨ops, fileChecksum⟩, cursor + consumed)

end AeroFtp.RealWire
