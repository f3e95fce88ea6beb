/-
Literals under `zlibx`, `aerorsync/real_wire.rs` section 7.

One raw deflate stream runs through all literals of a file, flushed with
`Z_SYNC_FLUSH` behind each.  A flush leaves the four bytes `00 00 FF FF` at the end;
they are cut off before a literal goes on the wire, and put back before it is
inflated.

The compressor is `flate2`'s and not part of the repository.  It is a parameter: a
state, and what the loop over the staging buffer collects for one literal.
-/
import AeroFtp.Aerorsync.RealWire.Primitives

namespace AeroFtp.RealWire

/-- The four bytes `deflate(Z_SYNC_FLUSH)` leaves at the end of a block. -/
def deflateSyncFlushTail : List UInt8 := [0x00, 0x00, 0xff, 0xff]

/-- `flate2::Compress`, flushed behind every literal. -/
structure Deflater where
  State : Type
  new : State
  compress : State → List UInt8 → List UInt8 × State

/-- The encoder of a file's literals.  `output` is not in the source: it is all the
deflater has put out so far. -/
structure DeflateLiteralStreamEncoder (z : Deflater) where
  deflater : z.State
  output : List UInt8

namespace DeflateLiteralStreamEncoder

variable {z : Deflater}

def new : DeflateLiteralStreamEncoder z where
  deflater := z.new
  output := []

/-- Compress one literal, and strip the tail of its flush. -/
def compressLiteral (encoder : DeflateLiteralStreamEncoder z) (payload : List UInt8) :
    List UInt8 × DeflateLiteralStreamEncoder z :=
  if payload.isEmpty then ([], encoder)
  else
    let (produced, deflater) := z.compress encoder.deflater payload
    let stripped :=
      if deflateSyncFlushTail.isSuffixOf produced then
        produced.take (produced.length - deflateSyncFlushTail.length)
      else produced
    (stripped, { deflater, output := encoder.output ++ produced })

end DeflateLiteralStreamEncoder

/-- What is handed to the inflater for one payload. -/
def framed (payload : List UInt8) : List UInt8 :=
  if payload.isEmpty then [] else payload ++ deflateSyncFlushTail

/-- All that is handed to the inflater for a sequence of payloads. -/
def inflaterInput (payloads : List (List UInt8)) : List UInt8 := payloads.flatMap framed

end AeroFtp.RealWire
