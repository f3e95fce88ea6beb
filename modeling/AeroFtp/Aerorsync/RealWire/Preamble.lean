/-
The server's preamble, `aerorsync/real_wire.rs` section 1.

Before the multiplexed stream a server sends its protocol version, the compat flags from
protocol 30 on, the lists of algorithms where the flags say that they are negotiated, and the
checksum seed.  The text of a list is its bytes.
-/
import AeroFtp.Aerorsync.RealWire.FileListEncode

namespace AeroFtp.RealWire

open Reader (take fail position)

def rsyncMinProtocolVersion : UInt32 := 20
def rsyncMaxProtocolVersion : UInt32 := 40
def cfVarintFlistFlags : Int32 := (1 : Int32) <<< 7

/-- Whether a compression list follows the checksum list. -/
inductive PreambleCompression where
  | negotiated
  | fixedOrOff
  deriving DecidableEq, Repr

structure ServerHello where
  protocolVersion : UInt32
  compatFlags : Int32
  deriving DecidableEq, Repr

structure ServerPreamble where
  protocolVersion : UInt32
  compatFlags : Int32
  checksumAlgos : List UInt8
  compressionAlgos : List UInt8
  checksumSeed : UInt32
  /-- Where the multiplexed stream begins. -/
  consumed : Nat
  deriving DecidableEq, Repr

/-- The negotiated strings run in this session. -/
def negotiatesStrings (compatFlags : Int32) : Bool := compatFlags &&& cfVarintFlistFlags != 0

/-- `0x20..=0x7E`. -/
def isPrintable (byte : UInt8) : Bool := 0x20 ≤ byte && byte ≤ 0x7E

/-! ### Decoding -/

def decodeProtocolVersion : Decoder UInt32 := do
  let arr ← take (.truncatedBuffer "protocol_version" 4) 4
  let version := u32FromLeBytes arr
  if ¬ (rsyncMinProtocolVersion ≤ version ∧ version ≤ rsyncMaxProtocolVersion) then
    fail fun _ => .invalidProtocolVersion version
  else return version

/-- What is available counts from the length byte on, and the offset from the start. -/
def readU8LenPrefixedAscii (at_ : String) : Decoder (List UInt8) := do
  let len ← decodeByte at_
  let start ← position
  let bytes ← take (fun left => .truncatedBuffer at_ (len.toNat + 1) (left + 1)) len.toNat
  match bytes.findIdx? fun b => !isPrintable b with
  | some i => fail fun _ => .nonAsciiAlgoList (start + i) (bytes.getD i 0)
  | none => return bytes

def decodeServerHello : Decoder ServerHello := do
  let protocolVersion ← decodeProtocolVersion
  -- an older peer sends no flags
  if protocolVersion < 30 then return { protocolVersion, compatFlags := 0 }
  else
    let compatRaw ← decodeVarint
    return { protocolVersion, compatFlags := Int32.ofInt compatRaw }

/-- The two lists, an absent one empty. -/
def decodeAlgos (strings : Bool) (compression : PreambleCompression) :
    Decoder (List UInt8 × List UInt8) :=
  if strings then do
    let checksumAlgos ← readU8LenPrefixedAscii "server_checksum_algos"
    if compression = .negotiated then
      let compressionAlgos ← readU8LenPrefixedAscii "server_compression_algos"
      return (checksumAlgos, compressionAlgos)
    else return (checksumAlgos, [])
  else return ([], [])

/-- The fields of a preamble, `consumed` apart. -/
def serverPreambleFields (compression : PreambleCompression) : Decoder ServerPreamble := do
  let hello ← decodeServerHello
  let (checksumAlgos, compressionAlgos) ← decodeAlgos
      (negotiatesStrings hello.compatFlags) compression
  let seedBytes ← take (.truncatedBuffer "checksum_seed" 4) 4
  return { protocolVersion := hello.protocolVersion, compatFlags := hello.compatFlags,
           checksumAlgos, compressionAlgos, checksumSeed := u32FromLeBytes seedBytes,
           consumed := 0 }

def decodeServerPreambleWith (buf : List UInt8) (compression : PreambleCompression) :
    Except RealWireError ServerPreamble :=
  (serverPreambleFields compression buf 0).map fun (preamble, cursor) =>
    { preamble with consumed := cursor }

/-! ### Encoding -/

def writeU8LenPrefixedAscii (algos : List UInt8) : Option (List UInt8) := do
  assertThat (algos.length ≤ 255)
  assertThat (algos.all isPrintable = true)
  return UInt8.ofNat algos.length :: algos

/-- A list where the shape has one; where it has none a list is refused. -/
def encodeAlgos (present : Bool) (algos : List UInt8) : Option (List UInt8) :=
  if present then writeU8LenPrefixedAscii algos
  else do
    assertThat (algos = [])
    return []

def encodeServerPreambleWith (preamble : ServerPreamble) (compression : PreambleCompression) :
    Option (List UInt8) := do
  let strings := negotiatesStrings preamble.compatFlags
  let checksumAlgos ← encodeAlgos strings preamble.checksumAlgos
  let compressionAlgos ← encodeAlgos
      (strings && compression == .negotiated) preamble.compressionAlgos
  return u32ToLeBytes preamble.protocolVersion ++ (encodeVarint preamble.compatFlags ++
    (checksumAlgos ++ (compressionAlgos ++ u32ToLeBytes preamble.checksumSeed)))

end AeroFtp.RealWire
