/-
Reassembly of the application stream, `aerorsync/real_wire.rs`.

`reassembleUntilTerminal` takes a buffer that holds the whole stream; `MuxStreamReader`
takes the chunks the transport yields and gives out one frame at a time.  Both collect
the data payloads, classify the rest and stop at the first terminal event.
-/
import AeroFtp.Aerorsync.Events

namespace AeroFtp.RealWire

open Events

structure ClassifiedReassemblyReport where
  appStream : List UInt8
  events : List AerorsyncEvent
  terminal : Option AerorsyncEvent
  consumedBytes : Nat
  framesConsumed : Nat
  deriving DecidableEq, Repr

/-- The `for` loop of `reassembleUntilTerminal`. -/
def reassembleLoop : Nat → MuxDemuxer → ClassifiedReassemblyReport →
    Except RealWireError ClassifiedReassemblyReport
  | 0, _, report => .ok report
  | fuel + 1, demuxer, report =>
    match demuxer.next with
    | (none, _) => .ok report
    | (some (.error e), _) => .error e
    | (some (.ok (header, payload)), demuxer) =>
      let report :=
        { report with
          consumedBytes := report.consumedBytes + (muxHeaderLen + payload.length)
          framesConsumed := report.framesConsumed + 1 }
      match header.tag with
      | .data => reassembleLoop fuel demuxer
          { report with appStream := report.appStream ++ payload }
      | other =>
        let event := classifyOobFrame other payload
        if event.isTerminal then .ok { report with terminal := some event }
        else reassembleLoop fuel demuxer { report with events := report.events ++ [event] }

/-- Classify every frame up to the first terminal one.  Every frame is at least a
header long, so the loop makes fewer turns than there are bytes. -/
def reassembleUntilTerminal (buf : List UInt8) : Except RealWireError ClassifiedReassemblyReport :=
  reassembleLoop (buf.length + 1) (.new buf)
    { appStream := [], events := [], terminal := none, consumedBytes := 0, framesConsumed := 0 }

/-! ### The streaming reader -/

/-- One result of polling the streaming reader. -/
inductive MuxPoll where
  | data (payload : List UInt8)
  | oob (event : AerorsyncEvent)
  | terminal (event : AerorsyncEvent)
  deriving DecidableEq, Repr

/-- The streaming reader; the counter is a `u64` that wraps. -/
structure MuxStreamReader where
  buf : List UInt8
  dataBytesConsumed : UInt64
  terminalSeen : Bool
  deriving DecidableEq, Repr

namespace MuxStreamReader

def new : MuxStreamReader := ⟨[], 0, false⟩

/-- Append a chunk of the transport. -/
def feed (r : MuxStreamReader) (chunk : List UInt8) : MuxStreamReader :=
  { r with buf := r.buf ++ chunk }

/-- Pop one complete frame, if there is one; a malformed header is reported and stays
where it is. -/
def pollFrame (r : MuxStreamReader) : Option (Except RealWireError MuxPoll) × MuxStreamReader :=
  if r.terminalSeen then (none, r)
  else if r.buf.length < muxHeaderLen then (none, r)
  else
    match MuxHeader.decode (r.buf.take muxHeaderLen) with
    | .error e => (some (.error e), r)
    | .ok header =>
      let payloadLen := header.length.toNat
      if r.buf.length < muxHeaderLen + payloadLen then (none, r)
      else
        let payload := (r.buf.drop muxHeaderLen).take payloadLen
        let r := { r with buf := (r.buf.drop muxHeaderLen).drop payloadLen }
        match header.tag with
        | .data =>
          (some (.ok (.data payload)),
            { r with dataBytesConsumed := r.dataBytesConsumed + UInt64.ofNat payload.length })
        | other =>
          let event := classifyOobFrame other payload
          if event.isTerminal then
            (some (.ok (.terminal event)), { r with terminalSeen := true })
          else (some (.ok (.oob event)), r)

/-- Poll until no frame comes. -/
def drainFrom : Nat → MuxStreamReader → List MuxPoll × MuxStreamReader
  | 0, r => ([], r)
  | fuel + 1, r =>
    match r.pollFrame with
    | (some (.ok poll), r) => (poll :: (drainFrom fuel r).1, (drainFrom fuel r).2)
    | (_, r) => ([], r)

/-- Poll until no frame comes; each one that does takes bytes out of the buffer. -/
def drain (r : MuxStreamReader) : List MuxPoll × MuxStreamReader := drainFrom r.buf.length r

/-- Feed chunk after chunk, and drain after each. -/
def feedChunks : MuxStreamReader → List (List UInt8) → List MuxPoll × MuxStreamReader
  | r, [] => ([], r)
  | r, chunk :: chunks =>
    let now := (r.feed chunk).drain
    let later := now.2.feedChunks chunks
    (now.1 ++ later.1, later.2)

end MuxStreamReader

/-- The data payloads among polls, put together. -/
def MuxPoll.appStream : List MuxPoll → List UInt8
  | [] => []
  | .data payload :: polls => payload ++ appStream polls
  | _ :: polls => appStream polls

/-- The events among polls that did not end the session. -/
def MuxPoll.events : List MuxPoll → List AerorsyncEvent
  | [] => []
  | .oob event :: polls => event :: events polls
  | _ :: polls => events polls

/-- The first event among polls that ended the session. -/
def MuxPoll.terminalEvent : List MuxPoll → Option AerorsyncEvent
  | [] => none
  | .terminal event :: _ => some event
  | _ :: polls => terminalEvent polls

end AeroFtp.RealWire
