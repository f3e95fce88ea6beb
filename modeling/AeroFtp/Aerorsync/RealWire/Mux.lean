/-
The multiplex framing, `aerorsync/real_wire.rs` sections 2 and 3.

Behind the preamble everything on the wire is a frame: four bytes of header and as
many bytes of payload as its low 24 bits say.  The high byte is the tag plus
`MPLEX_BASE`; a smaller one is no header.  `MuxDemuxer` walks over a buffer that holds
the whole stream.
-/
import AeroFtp.Aerorsync.RealWire.Primitives

namespace AeroFtp.RealWire

def mplexBase : UInt8 := 7

def muxHeaderLen : Nat := 4

/-- What a frame carries; a code the table does not have is kept. -/
inductive MuxTag where
  | data
  | errorXfer
  | info
  | error
  | warning
  | errorSocket
  | log
  | client
  | errorUtf8
  | redo
  | stats
  | ioError
  | ioTimeout
  | noop
  | errorExit
  | success
  | deleted
  | noSend
  | unknown (raw : UInt8)
  deriving DecidableEq, Repr

def MuxTag.fromCode (code : UInt8) : MuxTag :=
  match code with
  | 0 => .data
  | 1 => .errorXfer
  | 2 => .info
  | 3 => .error
  | 4 => .warning
  | 5 => .errorSocket
  | 6 => .log
  | 7 => .client
  | 8 => .errorUtf8
  | 9 => .redo
  | 10 => .stats
  | 22 => .ioError
  | 33 => .ioTimeout
  | 42 => .noop
  | 86 => .errorExit
  | 100 => .success
  | 101 => .deleted
  | 102 => .noSend
  | other => .unknown other

def MuxTag.code : MuxTag → UInt8
  | .data => 0
  | .errorXfer => 1
  | .info => 2
  | .error => 3
  | .warning => 4
  | .errorSocket => 5
  | .log => 6
  | .client => 7
  | .errorUtf8 => 8
  | .redo => 9
  | .stats => 10
  | .ioError => 22
  | .ioTimeout => 33
  | .noop => 42
  | .errorExit => 86
  | .success => 100
  | .deleted => 101
  | .noSend => 102
  | .unknown raw => raw

structure MuxHeader where
  tag : MuxTag
  length : UInt32
  deriving DecidableEq, Repr

/-- Decode the four bytes of a header. -/
def MuxHeader.decode (bytes : List UInt8) : Except RealWireError MuxHeader :=
  let raw := u32FromLeBytes bytes
  let rawHigh := (raw >>> 24).toUInt8
  if rawHigh < mplexBase then .error (.invalidMuxHeader rawHigh)
  else
    let code := rawHigh - mplexBase
    let length := raw &&& 0x00FFFFFF
    .ok { tag := .fromCode code, length }

/-- A reader over a buffer that holds the whole stream. -/
structure MuxDemuxer where
  buf : List UInt8
  pos : Nat
  exhausted : Bool

namespace MuxDemuxer

def new (buf : List UInt8) : MuxDemuxer := ⟨buf, 0, false⟩

/-- `Iterator::next`: the next frame, nothing at the end of the buffer, an error if the
buffer ends inside a frame. -/
def next (d : MuxDemuxer) : Option (Except RealWireError (MuxHeader × List UInt8)) × MuxDemuxer :=
  if d.exhausted then (none, d)
  else if d.pos = d.buf.length then (none, d)
  else if d.buf.length - d.pos < muxHeaderLen then
    (some (.error (.truncatedBuffer "mux_header" muxHeaderLen (d.buf.length - d.pos))),
      { d with exhausted := true })
  else
    match MuxHeader.decode ((d.buf.drop d.pos).take muxHeaderLen) with
    | .error e => (some (.error e), { d with exhausted := true })
    | .ok header =>
      let payloadStart := d.pos + muxHeaderLen
      let payloadEnd := payloadStart + header.length.toNat
      if payloadEnd > d.buf.length then
        (some (.error (.truncatedBuffer "mux_payload" header.length.toNat
            (d.buf.length - payloadStart))),
          { d with exhausted := true })
      else
        let payload := (d.buf.drop payloadStart).take header.length.toNat
        (some (.ok (header, payload)), { d with pos := payloadEnd })

end MuxDemuxer

end AeroFtp.RealWire
