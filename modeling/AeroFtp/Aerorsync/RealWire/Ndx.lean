/-
File indices on the wire, `aerorsync/real_wire.rs` section 6.

An index is written as the difference from the last one, against one baseline for the
indices and one for the negative sentinels, or in full where the difference does not fit.
The differences wrap around.  The negation of a sentinel does not: at `i32::MIN` it
overflows, which panics where overflow is checked.  The state is passed on whatever the
outcome, since the driver calls the decoder again with the same state when it runs short.
-/
import AeroFtp.Aerorsync.RealWire.Primitives

namespace AeroFtp.RealWire

def ndxDone : Int32 := -1

/-- The last index, and the magnitude of the last sentinel. -/
structure NdxState where
  prevPositive : Int32
  prevNegative : Int32
  deriving DecidableEq, Repr

def NdxState.new : NdxState := { prevPositive := -1, prevNegative := 1 }

/-- Why a call ends without a value. -/
inductive NdxFailure where
  | error (err : RealWireError)
  /-- A signed operation that does not wrap has overflowed. -/
  | overflow
  deriving DecidableEq, Repr

/-- `-num`. -/
def negI32 (num : Int32) : Except NdxFailure Int32 :=
  if num = Int32.minValue then .error .overflow else .ok (-num)

def ndxTruncated {α : Type} (form : String) : Except NdxFailure α :=
  .error (.error (.ndxTruncated form))

/-- Update the baseline and finalise the value. -/
def finalize (state : NdxState) (negate : Bool) (num : Int32) :
    Except NdxFailure Int32 × NdxState :=
  if negate then (negI32 num, { state with prevNegative := num })
  else (.ok num, { state with prevPositive := num })

/-- The baseline a difference is added to. -/
def NdxState.baseline (state : NdxState) (negate : Bool) : Int32 :=
  if negate then state.prevNegative else state.prevPositive

/-- What a body holds, with its length. -/
inductive NdxForm where
  | absolute (abs : UInt32)
  | difference (diff : UInt32) (consumed : Nat)
  deriving DecidableEq, Repr

/-- The forms of one, three and five bytes.  The high bit of the second byte tells the last two
apart. -/
def ndxForm : List UInt8 → Except NdxFailure NdxForm
  | [] => ndxTruncated "body_first_byte"
  | first :: rest =>
    if first = 0xFE then
      match rest with
      | second :: b2 :: more =>
        if second &&& 0x80 ≠ 0 then
          match more with
          | b3 :: b4 :: _ =>
            let top := (second &&& 0x7F).toUInt32
            .ok (.absolute
              (b2.toUInt32 ||| (b3.toUInt32 <<< 8) ||| (b4.toUInt32 <<< 16) ||| (top <<< 24)))
          | _ => ndxTruncated "fe_5byte"
        else .ok (.difference ((second.toUInt32 <<< 8) ||| b2.toUInt32) 3)
      | _ => ndxTruncated "fe_prefix"
    else .ok (.difference first.toUInt32 1)

/-- The value a form stands for, and its length. -/
def NdxForm.num (baseline : Int32) : NdxForm → Int32 × Nat
  | .absolute abs => (abs.toInt32, 5)
  | .difference diff consumed => (baseline + diff.toInt32, consumed)

def decodeNdxBody (buf : List UInt8) (negate : Bool) (state : NdxState) :
    Except NdxFailure (Int32 × Nat) × NdxState :=
  match ndxForm buf with
  | .error e => (.error e, state)
  | .ok form =>
    let (num, consumed) := form.num (state.baseline negate)
    let (raw, state) := finalize state negate num
    (raw.map (·, consumed), state)

/-- Decode one index and update the baselines. -/
def decodeNdx (buf : List UInt8) (state : NdxState) : Except NdxFailure (Int32 × Nat) × NdxState :=
  match buf with
  | [] => (ndxTruncated "prefix", state)
  | first :: rest =>
    if first = 0 then (.ok (ndxDone, 1), state)
    else if first = 0xFF then
      if rest = [] then (ndxTruncated "negative_prefix", state)
      else
        let (raw, state) := decodeNdxBody rest true state
        (raw.map fun (raw, consumedBody) => (raw, 1 + consumedBody), state)
    else decodeNdxBody buf false state

/-- The difference if it fits in one byte or two, else the value. -/
def encodeNdxBody (abs diff : Int32) : List UInt8 :=
  if diff > 0 ∧ diff < 0xFE then [diff.toUInt32.toUInt8]
  else if ¬ (0 ≤ diff ∧ diff ≤ 0x7FFF) then
    let absU := abs.toUInt32
    [0xFE, (absU >>> 24).toUInt8 ||| 0x80, (absU &&& 0xFF).toUInt8, ((absU >>> 8) &&& 0xFF).toUInt8,
      ((absU >>> 16) &&& 0xFF).toUInt8]
  else [0xFE, (diff.toUInt32 >>> 8 &&& 0xFF).toUInt8, (diff.toUInt32 &&& 0xFF).toUInt8]

/-- Encode an index against the baselines. -/
def encodeNdx (ndx : Int32) (state : NdxState) : Except NdxFailure (List UInt8) × NdxState :=
  if ndx = ndxDone then (.ok [0], state)
  else if ndx ≥ 0 then
    (.ok (encodeNdxBody ndx (ndx - state.prevPositive)), { state with prevPositive := ndx })
  else
    match negI32 ndx with
    | .error e => (.error e, state)
    | .ok abs =>
      (.ok (0xFF :: encodeNdxBody abs (abs - state.prevNegative)),
        { state with prevNegative := abs })

end AeroFtp.RealWire
