/-
The streaming demultiplexer is the one-shot one.

Both look at the head of a buffer in the same way; `muxFramer` is that look, and the
library of frame streams does the rest.  The streaming reader gives out the frames of
the stream up to the first terminal one, however the stream is cut; the one-shot
reassembly, on the part of the stream made of those frames, collects the same.
-/
import AeroFtp.Lib.FrameStream
import AeroFtp.Aerorsync.RealWire.MuxStream

namespace AeroFtp.RealWire

open Events List MuxPoll MuxStreamReader

/-! ### The head of a buffer -/

/-- A complete frame: its tag and its payload. -/
structure MuxFrame where
  tag : MuxTag
  payload : List UInt8
  deriving DecidableEq

/-- What the first bytes of a buffer are. -/
def muxHead (buf : List UInt8) : FrameHead MuxFrame RealWireError :=
  if buf.length < muxHeaderLen then .incomplete
  else
    match MuxHeader.decode (buf.take muxHeaderLen) with
    | .error e => .malformed e
    | .ok header =>
      if buf.length < muxHeaderLen + header.length.toNat then .incomplete
      else .frame ⟨header.tag, (buf.drop muxHeaderLen).take header.length.toNat⟩
        (muxHeaderLen + header.length.toNat)

variable {buf : List UInt8}

theorem muxHead_frame {f : MuxFrame} {n : Nat} : muxHead buf = .frame f n ↔
      ∃ header, MuxHeader.decode (buf.take muxHeaderLen) = .ok header ∧
        n = muxHeaderLen + header.length.toNat ∧ n ≤ buf.length ∧
        f = ⟨header.tag, (buf.drop muxHeaderLen).take header.length.toNat⟩ := by
  unfold muxHead
  constructor
  · intro h
    split at h
    · cases h
    · split at h
      · cases h
      next header hd =>
        split at h
        · cases h
        · cases h
          exact ⟨header, hd, rfl, by omega, rfl⟩
  · rintro ⟨header, hd, rfl, hle, rfl⟩
    rw [if_neg (by omega), hd]
    exact if_neg (by omega)

theorem muxHead_stable (h : muxHead buf ≠ .incomplete) (more : List UInt8) :
    muxHead (buf ++ more) = muxHead buf := by
  unfold muxHead at h ⊢
  split at h
  · exact absurd rfl h
  next hlen =>
    have ht : (buf ++ more).take muxHeaderLen = buf.take muxHeaderLen :=
      take_append_of_le_length (by omega)
    have hlen' : (buf ++ more).length = buf.length + more.length := length_append
    rw [if_neg (by omega), if_neg hlen, ht]
    split at h
    next e hd => rfl
    next header hd =>
      split at h
      · exact absurd rfl h
      next hle =>
        rw [if_neg (by omega), if_neg hle, drop_append_of_le_length (by omega),
          take_append_of_le_length (by rw [length_drop]; omega)]

/-- The frames of a multiplex stream. -/
def muxFramer : Framer UInt8 MuxFrame RealWireError where
  head := muxHead
  bounds := by
    intro buf f n h
    obtain ⟨header, _, rfl, hle, _⟩ := muxHead_frame.mp h
    exact ⟨by unfold muxHeaderLen; omega, hle⟩
  stable := muxHead_stable
  alone := by
    intro buf f n h
    obtain ⟨header, hd, rfl, hle, rfl⟩ := muxHead_frame.mp h
    refine muxHead_frame.mpr ⟨header, ?_, rfl, ?_, ?_⟩
    · rw [take_take, Nat.min_eq_left (Nat.le_add_right ..), hd]
    · rw [length_take_of_le hle]
    · rw [drop_take, Nat.add_sub_cancel_left, take_take, Nat.min_self]

/-- What a frame is to the caller of the streaming reader. -/
def MuxFrame.poll (f : MuxFrame) : MuxPoll :=
  match f.tag with
  | .data => .data f.payload
  | other =>
    let event := classifyOobFrame other f.payload
    if event.isTerminal then .terminal event else .oob event

/-- Whether a frame ends the session. -/
def MuxFrame.isTerminal (f : MuxFrame) : Bool :=
  match f.tag with
  | .data => false
  | other => (classifyOobFrame other f.payload).isTerminal

namespace MuxFrame

variable {f : MuxFrame}

theorem poll_of_data (h : f.tag = .data) : f.poll = .data f.payload := by
  simp only [poll, h]

theorem isTerminal_of_data (h : f.tag = .data) : f.isTerminal = false := by
  simp only [isTerminal, h]

theorem poll_of_not_data (h : f.tag ≠ .data) :
    f.poll = if f.isTerminal then .terminal (classifyOobFrame f.tag f.payload)
      else .oob (classifyOobFrame f.tag f.payload) := by
  unfold poll isTerminal
  split
  next htag => exact absurd htag h
  next => rfl

theorem isTerminal_of_not_data (h : f.tag ≠ .data) :
    f.isTerminal = (classifyOobFrame f.tag f.payload).isTerminal := by
  unfold isTerminal
  split
  next htag => exact absurd htag h
  next => rfl

theorem isTerminal_of_poll {e : AerorsyncEvent} (h : f.poll = .terminal e) :
    f.isTerminal = true := by
  by_cases htag : f.tag = .data
  · rw [poll_of_data htag] at h
    cases h
  · rw [poll_of_not_data htag] at h
    split at h
    next ht => exact ht
    next => cases h

end MuxFrame

open MuxFrame

/-! ### The streaming reader -/

namespace MuxStreamReader

variable {r : MuxStreamReader}

theorem pollFrame_frame {f : MuxFrame} {n : Nat} (ho : r.terminalSeen = false)
    (h : muxHead r.buf = .frame f n) : r.pollFrame = (some (.ok f.poll),
      ⟨r.buf.drop n, r.dataBytesConsumed + UInt64.ofNat (appStream [f.poll]).length,
        f.isTerminal⟩) := by
  obtain ⟨header, hd, rfl, hle, hf⟩ := muxHead_frame.mp h
  have hpay : f.payload = (r.buf.drop muxHeaderLen).take header.length.toNat := by rw [hf]
  unfold pollFrame
  rw [ho, if_neg (by simp), if_neg (by omega), hd]
  dsimp only
  rw [if_neg (by omega), ← hpay]
  split
  next htag =>
    have hdata : f.tag = .data := by rw [hf]; exact htag
    rw [poll_of_data hdata, isTerminal_of_data hdata]
    simp [appStream]
  next htag =>
    have hdata : f.tag ≠ .data := by rw [hf]; exact htag
    have htag : header.tag = f.tag := by rw [hf]
    rw [poll_of_not_data hdata, htag, ← isTerminal_of_not_data hdata]
    cases f.isTerminal with
    | true => simp [appStream]
    | false => simp [appStream]

variable (h : r.terminalSeen = true ∨ ∀ f n, muxHead r.buf ≠ .frame f n)
include h

theorem pollFrame_other : (∀ poll, r.pollFrame.1 ≠ some (.ok poll)) ∧ r.pollFrame.2 = r := by
  unfold pollFrame
  split
  · exact ⟨by simp, rfl⟩
  next ho =>
    split
    · exact ⟨by simp, rfl⟩
    next hlen =>
      split
      · exact ⟨by simp, rfl⟩
      next header hd =>
        dsimp only
        split
        · exact ⟨by simp, rfl⟩
        next hle =>
          rcases h with hlocked | hno
          · exact absurd hlocked ho
          · exact absurd (muxHead_frame.mpr ⟨header, hd, rfl, by omega, rfl⟩) (hno _ _)

theorem drainFrom_other (fuel : Nat) : drainFrom fuel r = ([], r) := by
  obtain ⟨hn, hs⟩ := pollFrame_other h
  cases fuel with
  | zero => rfl
  | succ fuel =>
    rw [drainFrom]
    split
    next poll r' heq => exact absurd (by rw [heq]) (hn poll)
    next o r' _ heq => rw [← hs, heq]

end MuxStreamReader

theorem MuxPoll.appStream_append (ps qs : List MuxPoll) :
    appStream (ps ++ qs) = appStream ps ++ appStream qs := by
  induction ps with
  | nil => rfl
  | cons p ps ih =>
    cases p with
    | data payload => simp [appStream, ih]
    | oob event => simp [appStream, ih]
    | terminal event => simp [appStream, ih]

namespace MuxStreamReader

/-- **Draining gives out the frames the buffer holds.** -/
theorem drain_eq {r : MuxStreamReader} (hopen : r.terminalSeen = false) :
    let read := muxFramer.scanned isTerminal r.buf
    r.drain = (read.1.map poll,
      ⟨read.2, r.dataBytesConsumed + UInt64.ofNat (appStream (read.1.map poll)).length,
        read.1.any isTerminal⟩) := by
  unfold drain Framer.scanned
  generalize r.buf.length = fuel
  induction fuel generalizing r with
  | zero => simp [drainFrom, Framer.scan, appStream, ← hopen]
  | succ fuel ih =>
    rw [Framer.scan]
    split
    next f n hh =>
      rw [drainFrom, pollFrame_frame hopen hh]
      dsimp only
      split
      next ht =>
        rw [drainFrom_other (.inl ht)]
        simp
      next ht =>
        have ht : f.isTerminal = false := Bool.eq_false_iff.mpr ht
        have hr := ih (r := ⟨r.buf.drop n,
          r.dataBytesConsumed + UInt64.ofNat (appStream [f.poll]).length, f.isTerminal⟩) ht
        have hs : appStream (f.poll :: (muxFramer.scan isTerminal fuel
            (r.buf.drop n)).1.map poll) = appStream [f.poll] ++ appStream
            ((muxFramer.scan isTerminal fuel (r.buf.drop n)).1.map poll) :=
          appStream_append [f.poll] _
        rw [hr, map_cons, hs, length_append, UInt64.ofNat_add, UInt64.add_assoc,
          any_cons, ht, Bool.false_or]
    next hother =>
      rw [drainFrom_other (.inr fun f n hh => hother f n hh)]
      simp [appStream, ← hopen]

/-- **The chunks do not matter.** -/
theorem feedChunks_eq (r : MuxStreamReader) (chunks : List (List UInt8)) : (r.feedChunks chunks).1
        = (muxFramer.feedAll isTerminal ⟨r.buf, r.terminalSeen⟩ chunks).1.map
          poll ∧
      (r.feedChunks chunks).2.dataBytesConsumed
        = r.dataBytesConsumed + UInt64.ofNat (appStream (r.feedChunks chunks).1).length := by
  induction chunks generalizing r with
  | nil => simp [feedChunks, Framer.feedAll, appStream]
  | cons chunk chunks ih =>
    rw [feedChunks, Framer.feedAll, Framer.feed]
    cases ho : r.terminalSeen with
    | true =>
      have hdrain : (r.feed chunk).drain = ([], r.feed chunk) :=
        drainFrom_other (r := r.feed chunk) (.inl ho) _
      obtain ⟨hp, hdata⟩ := ih (r.feed chunk)
      rw [hdrain]
      refine ⟨?_, hdata⟩
      rw [hp]
      simp [feed, ho]
    | false =>
      have hdrain := drain_eq (r := r.feed chunk) ho
      obtain ⟨hp, hdata⟩ := ih (r.feed chunk).drain.2
      refine ⟨?_, ?_⟩
      · rw [hp, hdrain]
        simp [feed]
      · rw [hdata, appStream_append, length_append, UInt64.ofNat_add, hdrain]
        simp only [feed]
        rw [UInt64.add_assoc]

end MuxStreamReader

/-! ### The one-shot reassembly -/

theorem MuxDemuxer.next_frame {d : MuxDemuxer} {f : MuxFrame} {n : Nat} (hex : d.exhausted = false)
    (h : muxHead (d.buf.drop d.pos) = .frame f n) : ∃ header, header.tag = f.tag ∧
      d.next = (some (.ok (header, f.payload)), { d with pos := d.pos + n }) := by
  obtain ⟨header, hd, rfl, hle, hf⟩ := muxHead_frame.mp h
  rw [length_drop] at hle
  have hpos : 0 < muxHeaderLen := by decide
  refine ⟨header, by rw [hf], ?_⟩
  unfold next
  rw [hex, if_neg (by simp), if_neg (by omega), if_neg (by omega), hd]
  dsimp only
  rw [if_neg (by omega), hf, drop_drop, Nat.add_assoc]

/-- What a list of frames adds to a report. -/
def ClassifiedReassemblyReport.extend (report : ClassifiedReassemblyReport) (frames : List MuxFrame)
    (bytes : Nat) : ClassifiedReassemblyReport where
  appStream := report.appStream ++ MuxPoll.appStream (frames.map poll)
  events := report.events ++ MuxPoll.events (frames.map poll)
  terminal := MuxPoll.terminalEvent (frames.map poll)
  consumedBytes := report.consumedBytes + bytes
  framesConsumed := report.framesConsumed + frames.length

theorem muxHead_length {w : List UInt8} {f : MuxFrame} (h : muxHead w = .frame f w.length) :
    w.length = muxHeaderLen + f.payload.length := by
  obtain ⟨header, _, hlen, _, hf⟩ := muxHead_frame.mp h
  rw [hf, length_take, length_drop]
  omega

variable {fs : List MuxFrame} {p : List UInt8}

section

variable (h : muxFramer.Whole isTerminal fs p)
include h

/-- **The loop collects the frames of the buffer.** -/
theorem reassembleLoop_whole (before : List UInt8)
    (report : ClassifiedReassemblyReport) (hterm : report.terminal = none) (fuel : Nat)
    (hfuel : p.length < fuel) : reassembleLoop fuel ⟨before ++ p, before.length, false⟩ report
      = .ok (report.extend fs p.length) := by
  obtain ⟨hparsed, hlast⟩ := h
  induction hparsed generalizing before report fuel with
  | nil =>
    cases fuel with
    | zero => omega
    | succ fuel =>
      rw [reassembleLoop]
      simp [MuxDemuxer.next, ClassifiedReassemblyReport.extend, appStream, events,
        terminalEvent, ← hterm]
  | @cons w p f fs hhead htail ih =>
    obtain ⟨hw, hf⟩ := Framer.Whole.tail _ htail ⟨.cons hhead htail, hlast⟩
    have hlen := muxHead_length hhead
    have hheader : 0 < muxHeaderLen := by decide
    rw [length_append] at hfuel
    cases fuel with
    | zero => omega
    | succ fuel =>
      have hc : muxHead ((before ++ (w ++ p)).drop before.length) = .frame f w.length := by
        rw [drop_left]
        exact Framer.Parsed.head_append muxFramer hhead
      obtain ⟨header, htag, hnext⟩ :=
        @MuxDemuxer.next_frame ⟨before ++ (w ++ p), before.length, false⟩ f w.length rfl hc
      have hadvance : (⟨before ++ (w ++ p), before.length + w.length, false⟩ : MuxDemuxer)
          = ⟨(before ++ w) ++ p, (before ++ w).length, false⟩ := by
        rw [append_assoc, length_append]
      rw [reassembleLoop, hnext]
      dsimp only
      rw [hadvance]
      split
      next hd =>
        rw [ih (before ++ w) _ (by exact hterm) fuel (by omega) hw.2]
        rw [htag] at hd
        simp only [ClassifiedReassemblyReport.extend, map_cons, poll_of_data hd,
          appStream, events, terminalEvent, append_assoc,
          length_append, length_cons, hlen, Nat.add_assoc, Nat.add_comm 1]
      next hd =>
        have hd : f.tag ≠ .data := by rw [← htag]; exact hd
        have hpoll := poll_of_not_data hd
        rw [htag, ← isTerminal_of_not_data hd]
        cases hterminal : f.isTerminal with
        | true =>
          -- Nothing is behind a terminal frame.
          have hnil : fs = [] := by
            by_contra hne
            rw [hf hne] at hterminal
            cases hterminal
          subst hnil
          cases htail
          rw [hterminal] at hpoll
          simp [ClassifiedReassemblyReport.extend, hpoll, appStream, events,
            terminalEvent, hlen]
        | false =>
          rw [hterminal, if_neg (by simp)] at hpoll
          rw [if_neg (by simp), ih (before ++ w) _ (by exact hterm) fuel (by omega) hw.2]
          simp only [ClassifiedReassemblyReport.extend, map_cons, hpoll, appStream,
            events, terminalEvent, append_assoc, singleton_append,
            length_append, length_cons, hlen, Nat.add_assoc, Nat.add_comm 1]

theorem reassembleUntilTerminal_whole : reassembleUntilTerminal p = .ok
      { appStream := appStream (fs.map poll)
        events := events (fs.map poll)
        terminal := terminalEvent (fs.map poll)
        consumedBytes := p.length
        framesConsumed := fs.length } := by
  have hl := reassembleLoop_whole h [] ⟨[], [], none, 0, 0⟩ rfl (p.length + 1) (Nat.lt_succ_self _)
  simp only [ClassifiedReassemblyReport.extend, Nat.zero_add] at hl
  exact hl

/-! ### Both -/

theorem nothing_after_terminal {before after : List MuxPoll} {e : AerorsyncEvent}
    (hp : fs.map poll = before ++ .terminal e :: after) : after = [] := by
  obtain ⟨_, hl⟩ := h
  obtain ⟨fs₁, rest, rfl, _, hr⟩ := map_eq_append_iff.mp hp
  obtain ⟨f, fs₂, rfl, hf, rfl⟩ := map_eq_cons_iff.mp hr
  cases fs₂ with
  | nil => rfl
  | cons g gs =>
    have hmem : f ∈ (fs₁ ++ f :: g :: gs).dropLast := by
      simp
    have hfalse := hl f hmem
    rw [isTerminal_of_poll hf] at hfalse
    cases hfalse

end

/-- **Streaming demultiplexing is one-shot demultiplexing.**  Whatever the chunks, what
the streaming reader gives out is what the reassembly makes of the longest part of the
stream that is made of complete frames up to the first terminal one. -/
theorem feedChunks_eq_reassembleUntilTerminal (chunks : List (List UInt8)) :
    ∃ p report, muxFramer.Longest MuxFrame.isTerminal p chunks.flatten ∧
      reassembleUntilTerminal p = .ok report ∧
      MuxPoll.appStream (MuxStreamReader.new.feedChunks chunks).1 = report.appStream ∧
      MuxPoll.events (MuxStreamReader.new.feedChunks chunks).1 = report.events ∧
      MuxPoll.terminalEvent (MuxStreamReader.new.feedChunks chunks).1 = report.terminal ∧
      (MuxStreamReader.new.feedChunks chunks).2.dataBytesConsumed
        = UInt64.ofNat report.appStream.length ∧
      ∀ before e after, (MuxStreamReader.new.feedChunks chunks).1 = before ++ .terminal e :: after →
        after = [] := by
  obtain ⟨p, hlongest, hwhole, _⟩ :=
    muxFramer.longest_scanned isTerminal chunks.flatten
  obtain ⟨hpolls, hdata⟩ := new.feedChunks_eq chunks
  have hempty : muxFramer.scanned isTerminal ([] : List UInt8) = ([], []) :=
    muxFramer.scan_nil _ 0
  have hframes := muxFramer.feedAll_eq_scanned [] hempty chunks
  rw [show new.buf = [] from rfl, show new.terminalSeen = false from rfl,
    hframes] at hpolls
  refine ⟨p, _, hlongest, reassembleUntilTerminal_whole hwhole, ?_⟩
  rw [hdata, hpolls]
  refine ⟨rfl, rfl, rfl, ?_, ?_⟩
  · exact UInt64.zero_add _
  · intro before e after h
    exact nothing_after_terminal hwhole h

end AeroFtp.RealWire
