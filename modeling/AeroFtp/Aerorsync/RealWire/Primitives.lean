/-
The integers of the rsync wire, `aerorsync/real_wire.rs` sections 1 and 4.

A decoder takes a byte slice and returns a value with the number of bytes it
consumed, or a `RealWireError`.  Where the source calls one decoder from another, on
`&buf[cursor..]`, and adds what it consumed to its own cursor, both are written as
readers of one buffer with one cursor.  Only the error variants that a modelled
decoder or the driver's retry loop names are listed.  `usize` is `Nat`; an `i64` that
came out of a decoder is the `Int` it stands for.
-/
import AeroFtp.Lib.LittleEndian
import AeroFtp.Lib.Reader

namespace AeroFtp.RealWire

open LittleEndian

/-- Why a decoder gave up. -/
inductive RealWireError where
  | truncatedBuffer (at_ : String) (needed available : Nat)
  | invalidProtocolVersion (value : UInt32)
  | invalidAlgoListLen (declared available : Nat)
  | invalidMuxHeader (rawHighByte : UInt8)
  | nonAsciiAlgoList (offset : Nat) (byte : UInt8)
  /-- The first byte claims more extra bytes than the integer can hold. -/
  | varintOverflow (firstByte : UInt8)
  /-- The declared size of a name exceeds the remaining buffer. -/
  | invalidNameLen (declared available : Nat)
  | nonUtf8Name (offset : Nat)
  | sameNameWithoutPrevious
  | sameNamePrefixTooLong (l1 previousLen : Nat)
  /-- `decode_ndx` ran out of bytes; `form` says in which branch. -/
  | ndxTruncated (form : String)
  | sumHeadFieldOutOfRange (field : String) (value max : Int32)
  | deltaTokenTruncated (at_ : String) (needed available : Nat)
  | deltaTokenOutOfRange (tokenIndex blockCount : Int32)
  | xattrAbbrevUnsupported (reference : Int)
  | invalidXattrField (field : String) (declared : Int) (available : Nat)
  | xattrNameNotNulTerminated (nameLen : Nat)
  | xattrDatumSectionInvalid (field : String) (value : Int)
  | xattrDatumUnexpected (name : List UInt8) (reason : String)
  | xattrDatumDigestMismatch (name : List UInt8)
  | invalidAclField (field : String) (declared : Int) (available : Nat)
  | deflateDecompressionFailed (reason : String)
  deriving DecidableEq, Repr

variable (bytes : List UInt8)

def u16FromLeBytes : UInt16 := UInt16.ofNat (fromLeBytes bytes)

def u32FromLeBytes : UInt32 := UInt32.ofNat (fromLeBytes bytes)

def i32FromLeBytes : Int32 := (u32FromLeBytes bytes).toInt32

def i64FromLeBytes : Int64 := (UInt64.ofNat (fromLeBytes bytes)).toInt64

def u16ToLeBytes (x : UInt16) : List UInt8 := toLeBytes 2 x.toNat

def i32ToLeBytes (x : Int32) : List UInt8 := toLeBytes 4 x.toUInt32.toNat

/-- How many bytes follow the first byte of a varint, indexed by `firstByte / 4`. -/
def intByteExtra : List Nat :=
  [0, 0, 0, 0, 0, 0, 0, 0, 0, 0, 0, 0, 0, 0, 0, 0,
   0, 0, 0, 0, 0, 0, 0, 0, 0, 0, 0, 0, 0, 0, 0, 0,
   1, 1, 1, 1, 1, 1, 1, 1, 1, 1, 1, 1, 1, 1, 1, 1,
   2, 2, 2, 2, 2, 2, 2, 2, 3, 3, 3, 3, 4, 4, 5, 6]

/-- `INT_BYTE_EXTRA[(ch / 4) as usize]`. -/
def extraBytes (ch : UInt8) : Nat := intByteExtra.getD (ch.toNat / 4) 0

/-- `ch & (bit - 1)`, the payload bits of a first byte that announces `extra` more. -/
def payloadBits (ch : UInt8) (extra : Nat) : UInt8 :=
  let bit : UInt8 := 1 <<< UInt8.ofNat (8 - extra)
  ch &&& (bit - 1)

/-- A decoder of the wire. -/
abbrev Decoder := Reader RealWireError UInt8

/-- One byte; `at_` is where the buffer ends when there is none. -/
def decodeByte (at_ : String) : Decoder UInt8 := do
  let bytes ← Reader.take (.truncatedBuffer at_ 1) 1
  return bytes.headD 0

/-- Decode a rsync varint. -/
def decodeVarint : Decoder Int := do
  let ch ← decodeByte "varint_first_byte"
  let extra := extraBytes ch
  if extra = 0 then return ch.toNat
  else if extra > 4 then Reader.fail fun _ => .varintOverflow ch
  else
    let payload ← Reader.take (.truncatedBuffer "varint_payload" extra) extra
    -- The array `u` of the source is zero behind these bytes.
    let u := payload ++ (if extra < 4 then [payloadBits ch extra] else [])
    return (i32FromLeBytes u).toInt

/-- Decode a rsync varlong with the given floor of bytes. -/
def decodeVarlong (minBytes : Nat) : Decoder Int :=
  if minBytes = 0 ∨ minBytes > 8 then Reader.fail fun _ => .varintOverflow 0
  else do
    let low ← Reader.take (.truncatedBuffer "varlong_min_bytes" minBytes) minBytes
    let first := low.headD 0
    let extra := extraBytes first
    if minBytes + extra > 9 then Reader.fail fun _ => .varintOverflow first
    else
      let more ← Reader.take
        (fun left => .truncatedBuffer "varlong_extra" (minBytes + extra) (minBytes + left)) extra
      let u := low.drop 1 ++ more ++ [if extra > 0 then payloadBits first extra else first]
      return (i64FromLeBytes (u.take 8)).toInt

/-! ### Encoding -/

def u32ToLeBytes (x : UInt32) : List UInt8 := toLeBytes 4 x.toNat

/-- The loop that drops zero bytes from the top of `le`, down to `floor` bytes. -/
def trimmedLen (le : List UInt8) (floor : Nat) : Nat → Nat
  | 0 => 0
  | cnt + 1 => if cnt + 1 > floor ∧ le.getD cnt 0 = 0 then trimmedLen le floor cnt else cnt + 1

/-- The common end of `encode_varint` and `encode_varlong`: the first byte says in its top
bits how many bytes follow the `floor` ones, and holds the top byte of the number if that
still fits.  The shift is computed in `u8`; where overflow is checked, `7 - 8` panics. -/
def encodeVarnum (le : List UInt8) (floor : Nat) : List UInt8 :=
  let cnt := trimmedLen le floor le.length
  let bit : UInt8 := 1 <<< (7 - UInt8.ofNat cnt + UInt8.ofNat floor)
  let top := le.getD (cnt - 1) 0
  if top ≥ bit then ~~~ (bit - 1) :: le.take cnt
  else if cnt > floor then (top ||| ~~~ (bit * 2 - 1)) :: le.take (cnt - 1)
  else top :: le.take (cnt - 1)

/-- Encode a signed 32-bit value as a rsync varint. -/
def encodeVarint (x : Int32) : List UInt8 := encodeVarnum (i32ToLeBytes x) 1

/-- Encode a signed 64-bit value as a rsync varlong with the given floor of bytes. -/
def encodeVarlong (x : Int64) (minBytes : Nat) : List UInt8 :=
  encodeVarnum (toLeBytes 8 x.toUInt64.toNat) minBytes

/-- No `u8` operation of `encode_varlong` leaves its range, so that a build with overflow checks
does not panic: the difference `7 - cnt`, the sum with the floor, the shift by it, and `bit - 1`
on the branch that takes it.  The source wraps the others itself. -/
def encodeVarlongInRange (x : Int64) (minBytes : Nat) : Bool :=
  let le := toLeBytes 8 x.toUInt64.toNat
  let cnt := trimmedLen le minBytes 8
  let bit : UInt8 := 1 <<< (7 - UInt8.ofNat cnt + UInt8.ofNat minBytes)
  cnt ≤ 7 && 7 - cnt + minBytes ≤ 255 && 7 - cnt + minBytes ≤ 7
    && (le.getD (cnt - 1) 0 < bit || 1 ≤ bit)

end AeroFtp.RealWire
