/-
Reading in order yields the object.

A window is sound while the bytes of its buffer up to where it has got are the object's,
and the attempts and reads it has made are paid for: an attempt that moves the mark pays
for the failures that may follow it, and a read that succeeds pays for itself with a byte.
Every step keeps that, so a window that ends well holds its part of the object.  The
windows are handed on in their order, so what has been handed on is the object up to a
window's start, whenever the reading stops.
-/
import AeroFtp.Lib.Tiling
import AeroFtp.Providers.MultiThread

namespace AeroFtp.Providers

open List Option Window

namespace Window

variable {object : List UInt8} {w w' : Window} {cancelled : Bool}

/-! ### One window -/

/-- All that can happen to a window. -/
inductive Move (remotePath : String) (object : List UInt8) (cancelled : Bool) (w : Window) :
    Window → Prop where
  | attempt (h : w.stage = .idle) :
      Move remotePath object cancelled w
        { w with attempts := w.attempts + 1, stage := .reading w.resumeAt w.resumeAt }
  | noWorker (e : ProviderError) (h : w.stage = .idle) :
      Move remotePath object cancelled w
        ({ w with attempts := w.attempts + 1 }.settle w.resumeAt e cancelled)
  | read {offset mark} (answer : Except ProviderError (List UInt8))
      (h : w.stage = .reading offset mark) (hanswer : answers object offset answer = true) :
      Move remotePath object cancelled w (w.read remotePath offset mark cancelled answer)
  | replace {error mark} (error' : ProviderError) (h : w.stage = .replacing error mark) :
      Move remotePath object cancelled w (w.settle mark error' cancelled)
  | wake (h : w.stage = .waiting) : Move remotePath object cancelled w { w with stage := .idle }
  | abandon (h : w.stage = .waiting) :
      Move remotePath object cancelled w { w with stage := .done (.error .cancelled) }

/-- How far the buffer is filled. -/
def progress (w : Window) : Nat :=
  match w.stage with
  | .idle | .waiting | .done (.error _) => w.resumeAt
  | .reading offset _ => offset
  | .replacing _ mark => mark
  | .done (.ok _) => w.last + 1

/-- The mark of an attempt is where it has got. -/
def MarkOk (w : Window) : Prop :=
  match w.stage with
  | .reading offset mark => mark = offset ∧ w.resumeAt ≤ offset ∧ offset ≤ w.last
  | .replacing _ mark => w.resumeAt ≤ mark ∧ mark ≤ w.last
  | _ => True

/-- The attempts and reads are paid for. -/
def Paid (w : Window) : Prop :=
  match w.stage with
  | .idle | .waiting =>
    w.failures ≤ rangeRetries ∧
    w.attempts ≤ rangeRetries * (w.resumeAt - w.start) + w.failures ∧
    w.reads ≤ (w.resumeAt - w.start) + w.attempts
  | .reading offset _ =>
    w.failures ≤ rangeRetries ∧
    w.attempts ≤ rangeRetries * (w.resumeAt - w.start) + w.failures + 1 ∧
    w.reads + 1 ≤ (offset - w.start) + w.attempts
  | .replacing _ mark =>
    w.failures ≤ rangeRetries ∧
    w.attempts ≤ rangeRetries * (w.resumeAt - w.start) + w.failures + 1 ∧
    w.reads ≤ (mark - w.start) + w.attempts
  | .done _ =>
    w.attempts ≤ rangeRetries * (w.last + 1 - w.start) + rangeRetries + 1 ∧
    w.reads ≤ (w.last + 1 - w.start) + w.attempts

/-- What holds of a window of `object` at every moment. -/
structure Sound (object : List UInt8) (w : Window) : Prop where
  order : w.start ≤ w.last
  inside : w.last < object.length
  resume : w.start ≤ w.resumeAt ∧ w.resumeAt ≤ w.last
  length : w.buffer.length = w.last + 1 - w.start
  filled : w.buffer.take (w.progress - w.start) = (object.drop w.start).take (w.progress - w.start)
  mark : w.MarkOk
  paid : w.Paid

theorem sound_new {start last : Nat} (ho : start ≤ last) (hi : last < object.length) :
    Sound object (new start last) := by
  refine ⟨ho, hi, ⟨Nat.le_refl _, ho⟩, ?_, ?_, trivial, ?_⟩
  · simp only [new, length_replicate]
    omega
  · simp [new, progress]
  · simp [new, Paid]

variable {offset : Nat} {data : List UInt8}

theorem receive_filled {n : Nat} (hs : w.start ≤ offset)
    (hlast : offset ≤ w.last) (hlength : w.buffer.length = w.last + 1 - w.start)
    (hb : data <+: object.drop offset)
    (hfilled : w.buffer.take (offset - w.start) = (object.drop w.start).take (offset - w.start))
    (hn : min data.length (w.last - offset + 1) = n) :
    (w.receive offset data).buffer.take (offset + n - w.start) =
      (object.drop w.start).take (offset + n - w.start) := by
  obtain ⟨place, rfl⟩ := Nat.exists_eq_add_of_le hs
  have hp : w.start + place - w.start = place := by omega
  rw [hp] at hfilled
  have hnlen : n ≤ data.length := by omega
  have hu : w.start + place + n - w.start = place + n := by omega
  -- The new bytes are those of the object at the same place.
  have hd : data.take n = (object.drop (w.start + place)).take n := by
    obtain ⟨rest, hr⟩ := hb
    rw [← hr, take_append_of_le_length hnlen]
  have hfront : (w.buffer.take place).length = place := by
    rw [length_take]
    omega
  have hnew : (data.take n).length = n := by
    rw [length_take]
    omega
  rw [hu]
  simp only [receive, hp, hn]
  rw [take_append_of_le_length (by simp only [length_append, hfront, hnew]; omega),
    take_of_length_le (by simp only [length_append, hfront, hnew]; omega),
    hfilled, hd, take_add, drop_drop]

theorem receive_length (data : List UInt8) (hs : w.start ≤ offset)
    (hlast : offset ≤ w.last) (hlength : w.buffer.length = w.last + 1 - w.start) :
    (w.receive offset data).buffer.length = w.last + 1 - w.start := by
  simp only [receive, length_append, length_take, length_drop]
  omega

/-- A window whose attempt has got to `mark` and is over. -/
structure Attempted (object : List UInt8) (w : Window) (mark : Nat) : Prop where
  order : w.start ≤ w.last
  inside : w.last < object.length
  resume : w.start ≤ w.resumeAt ∧ w.resumeAt ≤ mark
  length : w.buffer.length = w.last + 1 - w.start
  filled : w.buffer.take (mark - w.start) = (object.drop w.start).take (mark - w.start)
  failures : w.failures ≤ rangeRetries
  attempts : w.attempts ≤ rangeRetries * (w.resumeAt - w.start) + w.failures + 1
  reads : w.reads ≤ (mark - w.start) + w.attempts

variable {mark : Nat}

/-- An attempt that has failed before the window was full is paid for, whether the window
ends with it or goes on. -/
theorem sound_settle (h : Attempted object w mark) (hmark : mark ≤ w.last)
    (e : ProviderError) (cancelled : Bool) : Sound object (w.settle mark e cancelled) := by
  obtain ⟨ho, hi, ⟨hlo, hhi⟩, hlength, hfilled, hfail, hatt, hreads⟩ := h
  have hreach : w.reached mark = mark := by
    unfold reached
    omega
  -- Up to where the window would resume, the buffer is filled too.
  have hearlier : w.buffer.take (w.resumeAt - w.start) =
      (object.drop w.start).take (w.resumeAt - w.start) := by
    have := congrArg (take (w.resumeAt - w.start)) hfilled
    rwa [take_take, take_take, Nat.min_eq_left (by omega)] at this
  unfold rangeRetries at hfail hatt
  have hended : Paid { w with stage := .done (.error e) } := by
    simp only [Paid, rangeRetries]
    omega
  unfold settle
  by_cases hresumes : (e.isRecoverable && !cancelled) = true
  · simp only [hresumes, if_true, hreach]
    rw [if_neg (by omega)]
    by_cases hg : (if mark > w.resumeAt then 0 else w.failures) + 1 > rangeRetries
    · rw [if_pos hg]
      exact ⟨ho, hi, ⟨hlo, by show w.resumeAt ≤ w.last; omega⟩, hlength, hearlier, trivial, hended⟩
    · rw [if_neg hg]
      refine ⟨ho, hi, ⟨by show w.start ≤ mark; omega, hmark⟩, hlength, hfilled, trivial, ?_⟩
      refine ⟨Nat.le_of_not_lt hg, ?_, hreads⟩
      show w.attempts ≤ rangeRetries * (mark - w.start)
        + ((if mark > w.resumeAt then 0 else w.failures) + 1)
      unfold rangeRetries at hg ⊢
      by_cases hmoved : mark > w.resumeAt
      · omega
      · rw [if_neg hmoved]
        omega
  · simp only [hresumes, Bool.false_eq_true, if_false]
    exact ⟨ho, hi, ⟨hlo, by show w.resumeAt ≤ w.last; omega⟩, hlength, hearlier, trivial, hended⟩

theorem sound_receive (h : Sound object w)
    (hs : w.stage = .reading offset mark) (hd : data ≠ []) (hb : data <+: object.drop offset) :
    Sound object ({ w with reads := w.reads + 1 }.receive offset data) := by
  obtain ⟨horder, hi, ⟨hlo, hhi⟩, hlength, hfilled, hmark, hp⟩ := h
  simp only [progress, MarkOk, Paid, hs] at hfilled hmark hp
  obtain ⟨rfl, hfrom, hlast⟩ := hmark
  obtain ⟨hfail, hatt, hr⟩ := hp
  obtain ⟨n, hn⟩ : ∃ n, min data.length (w.last - mark + 1) = n := ⟨_, rfl⟩
  have hone : 1 ≤ n := by
    have := length_pos_iff.mpr hd
    omega
  have hfilled' := receive_filled (by omega) hlast hlength hb hfilled hn
  have hlength' := receive_length data (by omega) hlast hlength
  by_cases hmore : mark + n ≤ w.last
  · have hs' : ({ w with reads := w.reads + 1 }.receive mark data).stage = .reading (mark + n)
        (mark + n) := by
      simp only [receive, hn, if_pos hmore]
    refine ⟨horder, hi, ⟨hlo, hhi⟩, hlength', ?_, ?_, ?_⟩
    · simp only [progress, hs']
      exact hfilled'
    · simp only [MarkOk, hs']
      exact ⟨trivial, by show w.resumeAt ≤ mark + n; omega, hmore⟩
    · simp only [Paid, hs']
      refine ⟨hfail, hatt, ?_⟩
      show w.reads + 1 + 1 ≤ mark + n - w.start + w.attempts
      omega
  · have hs' : ({ w with reads := w.reads + 1 }.receive mark data).stage = .done (.ok ()) := by
      simp only [receive, hn, if_neg hmore]
    have hfull : mark + n = w.last + 1 := by omega
    refine ⟨horder, hi, ⟨hlo, hhi⟩, hlength', ?_, ?_, ?_⟩
    · simp only [progress, hs']
      rw [hfull] at hfilled'
      exact hfilled'
    · simp only [MarkOk, hs']
    · simp only [Paid, hs']
      unfold rangeRetries at hfail hatt ⊢
      constructor
      · show w.attempts ≤ 3 * (w.last + 1 - w.start) + 3 + 1
        omega
      · show w.reads + 1 ≤ w.last + 1 - w.start + w.attempts
        omega

theorem sound_read (remotePath : String) (h : Sound object w)
    (hstage : w.stage = .reading offset mark) (answer : Except ProviderError (List UInt8))
    (hanswer : answers object offset answer = true) :
    Sound object (w.read remotePath offset mark cancelled answer) := by
  obtain ⟨ho, hi, hres, hl, hfilled, hm, hp⟩ := h
  have hsound : Sound object w := ⟨ho, hi, hres, hl, hfilled, hm, hp⟩
  simp only [progress, MarkOk, Paid, hstage] at hfilled hm hp
  obtain ⟨rfl, hm⟩ := hm
  obtain ⟨hfail, hatt, hreads⟩ := hp
  unfold read
  by_cases hc : cancelled = true
  · rw [if_pos hc]
    refine ⟨ho, hi, hres, hl, hfilled, hm, hfail, hatt, ?_⟩
    exact Nat.le_of_succ_le hreads
  · rw [if_neg hc]
    match answer with
    | .error e => exact ⟨ho, hi, hres, hl, hfilled, hm, hfail, hatt, hreads⟩
    | .ok [] => exact ⟨ho, hi, hres, hl, hfilled, hm, hfail, hatt, hreads⟩
    | .ok (byte :: data) =>
      exact sound_receive hsound hstage (cons_ne_nil byte data)
        (List.isPrefixOf_iff_prefix.mp hanswer)

/-- **Whatever happens to a window, it stays sound.** -/
theorem sound_move {remotePath : String} (h : Sound object w)
    (hmove : Move remotePath object cancelled w w') : Sound object w' := by
  have hsound := h
  obtain ⟨ho, hi, ⟨hlo, hhi⟩, hlength, hfilled, hmark, hp⟩ := h
  cases hmove with
  | attempt hstage =>
    simp only [progress, Paid, hstage] at hfilled hp
    obtain ⟨hfail, hatt, hr⟩ := hp
    refine ⟨ho, hi, ⟨hlo, hhi⟩, hlength, hfilled, ⟨rfl, Nat.le_refl _, hhi⟩, hfail, ?_, ?_⟩
    · exact Nat.succ_le_succ hatt
    · show w.reads + 1 ≤ w.resumeAt - w.start + (w.attempts + 1)
      omega
  | noWorker e hstage =>
    simp only [progress, Paid, hstage] at hfilled hp
    obtain ⟨hfail, hatt, hr⟩ := hp
    refine sound_settle (w := { w with attempts := w.attempts + 1 }) ?_ hhi e cancelled
    refine ⟨ho, hi, ⟨hlo, Nat.le_refl _⟩, hlength, hfilled, hfail, ?_, ?_⟩
    · exact Nat.succ_le_succ hatt
    · show w.reads ≤ w.resumeAt - w.start + (w.attempts + 1)
      omega
  | read answer hstage hanswer => exact sound_read remotePath hsound hstage answer hanswer
  | replace error' hstage =>
    simp only [progress, MarkOk, Paid, hstage] at hfilled hmark hp
    obtain ⟨hfail, hatt, hr⟩ := hp
    exact sound_settle
      ⟨ho, hi, ⟨hlo, hmark.1⟩, hlength, hfilled, hfail, hatt, hr⟩ hmark.2 error' cancelled
  | wake hstage =>
    simp only [progress, Paid, hstage] at hfilled hp
    exact ⟨ho, hi, ⟨hlo, hhi⟩, hlength, hfilled, trivial, hp⟩
  | abandon hstage =>
    simp only [progress, Paid, hstage] at hfilled hp
    refine ⟨ho, hi, ⟨hlo, hhi⟩, hlength, hfilled, trivial, ?_⟩
    unfold rangeRetries at hp
    simp only [Paid, rangeRetries]
    omega

theorem Sound.buffer_eq (h : Sound object w) (hd : w.stage = .done (.ok ())) :
    w.buffer = (object.drop w.start).take (w.last + 1 - w.start) := by
  have hf := h.filled
  simp only [progress, hd] at hf
  rwa [take_of_length_le (by rw [h.length])] at hf

/-- The bytes of a window. -/
def bytes (w : Window) : Nat := w.last + 1 - w.start

/-- **A window makes no more attempts than its bytes and its retries pay for**, counted as
attempts or as calls of `read_range`. -/
theorem Sound.attempts_le (h : Sound object w) :
    w.attempts ≤ w.bytes * (rangeRetries + 1) + rangeRetries + 1 ∧
      w.reads ≤ w.bytes * (rangeRetries + 1) + rangeRetries + 1 := by
  obtain ⟨ho, hi, ⟨hlo, hhi⟩, hlength, hf, hm, hp⟩ := h
  unfold Paid MarkOk at *
  unfold rangeRetries bytes at *
  split at hp
  · omega
  · omega
  · rename_i hs
    simp only [hs] at hm
    omega
  · rename_i hs
    simp only [hs] at hm
    omega
  · omega

end Window

namespace InOrderRead

variable {call : InOrderCall} {object : List UInt8} {s s' : InOrderRead} {e : ReadEvent}

/-! ### All windows -/

/-- All that a step can be. -/
inductive Move (call : InOrderCall) (object : List UInt8) (s : InOrderRead) :
    InOrderRead → Prop where
  | launch (hlen : s.inFlight.length < call.streams) (hnext : s.next < call.windowCount) :
      Move call object s
        { s with next := s.next + 1, inFlight := s.inFlight ++ [call.windowAt s.next] }
  | window {index w w'} (pool : Nat) (hget : s.inFlight[index]? = some w)
      (hmove : Window.Move call.remotePath object s.cancelled w w')
      (hpool : pool + w'.holdsWorker.toNat = s.pool + w.holdsWorker.toNat) :
      Move call object s { s with inFlight := s.inFlight.set index w', pool }
  | cancel : Move call object s { s with cancelled := true }
  | finish (hempty : s.inFlight = []) (hnext : s.next = call.windowCount) :
      Move call object s { s with outcome := some (.ok ()) }
  | pass {w rest} (hhead : s.inFlight = w :: rest) (hdone : w.stage = .done (.ok ())) :
      Move call object s { s with inFlight := rest, consumed := s.consumed ++ [w.buffer] }
  | fail (error : ProviderError) : Move call object s { s with outcome := some (.error error) }

theorem settle_cases (w : Window) (mark : Nat) (e : ProviderError) (cancelled : Bool) :
    ∃ failures resumeAt stage, w.settle mark e cancelled = { w with failures, resumeAt, stage } ∧
      (stage = .waiting ∨ ∃ result, stage = .done result) := by
  unfold settle
  split
  · dsimp only
    split
    · exact ⟨_, _, _, rfl, .inr ⟨_, rfl⟩⟩
    · by_cases hg : (if w.reached mark > w.resumeAt then 0 else w.failures) + 1 > rangeRetries
      · rw [if_pos hg]
        exact ⟨_, _, _, rfl, .inr ⟨_, rfl⟩⟩
      · rw [if_neg hg]
        exact ⟨_, _, _, rfl, .inl rfl⟩
  · exact ⟨_, _, _, rfl, .inr ⟨_, rfl⟩⟩

theorem settle_holds (w : Window) (mark : Nat) (e : ProviderError) (cancelled : Bool) :
    (w.settle mark e cancelled).holdsWorker = false := by
  obtain ⟨failures, resumeAt, stage, h, rfl | ⟨result, rfl⟩⟩ := settle_cases w mark e cancelled
  · rw [h]
    rfl
  · rw [h]
    rfl

theorem step_move (h : s.step call object e = some s') :
    s.outcome = none ∧ Move call object s s' := by
  unfold step at h
  split at h
  · cases h
  rename_i hopen
  refine ⟨by simpa using hopen, ?_⟩
  cases e with
  | launch =>
    simp only at h
    split at h
    · rename_i hc
      cases h
      exact .launch hc.1 hc.2
    · cases h
  | attempt index =>
    obtain ⟨w, hget, h⟩ := bind_eq_some_iff.mp h
    cases hstage : w.stage <;> simp only [hstage, reduceCtorEq] at h
    cases h
    unfold takeWorker
    split
    · refine .window s.pool hget (.noWorker _ hstage) ?_
      rw [settle_holds]
      simp [holdsWorker, hstage]
    · refine .window (s.pool - 1) hget (.attempt hstage) ?_
      simp [holdsWorker, hstage]
      omega
  | read index answer =>
    obtain ⟨w, hget, h⟩ := bind_eq_some_iff.mp h
    cases hstage : w.stage <;> simp only [hstage, reduceCtorEq] at h
    split at h
    · rename_i hanswer
      have hholds : w.holdsWorker = true := by simp [holdsWorker, hstage]
      split at h
      · rename_i hstill
        cases h
        exact .window s.pool hget (.read answer hstage hanswer) (by rw [hholds, hstill])
      · rename_i hl
        cases h
        refine .window (s.pool + 1) hget (.read answer hstage hanswer) ?_
        rw [hholds, Bool.eq_false_iff.mpr hl]
        rfl
    · cases h
  | replaceWorker index clones connect =>
    obtain ⟨w, hget, h⟩ := bind_eq_some_iff.mp h
    cases hstage : w.stage <;> simp only [hstage, reduceCtorEq] at h
    cases h
    refine .window (s.pool + 1) hget (.replace _ hstage) ?_
    rw [settle_holds]
    simp [holdsWorker, hstage]
  | wake index =>
    obtain ⟨w, hget, h⟩ := bind_eq_some_iff.mp h
    cases hstage : w.stage <;> simp only [hstage, reduceCtorEq] at h
    cases h
    exact .window s.pool hget (.wake hstage) (by simp [holdsWorker, hstage])
  | abandon index =>
    obtain ⟨w, hget, h⟩ := bind_eq_some_iff.mp h
    cases hstage : w.stage <;> simp only [hstage, reduceCtorEq] at h
    split at h
    · cases h
      exact .window s.pool hget (.abandon hstage) (by simp [holdsWorker, hstage])
    · cases h
  | cancel =>
    cases h
    exact .cancel
  | deliver =>
    simp only at h
    split at h
    · rename_i he
      split at h
      · rename_i hn
        cases h
        exact .finish he hn
      · cases h
    · rename_i w rest hhead
      split at h
      · rename_i hd
        cases h
        exact .pass hhead hd
      · cases h
        exact .fail _
      · cases h

/-- `w` is the `i`-th window of the object, and sound. -/
structure IsWindow (call : InOrderCall) (object : List UInt8) (i : Nat) (w : Window) : Prop where
  start : w.start = i * call.windowSize
  last : w.last + 1 = min (w.start + call.windowSize) call.size
  sound : w.Sound object

/-- What holds of the reading at every moment. -/
structure Kept (call : InOrderCall) (object : List UInt8) (s : InOrderRead) : Prop where
  numbered : s.next = s.consumed.length + s.inFlight.length
  inCount : s.next ≤ call.windowCount
  windows : ∀ j w, s.inFlight[j]? = some w → IsWindow call object (s.consumed.length + j) w
  handed : s.consumed.flatten = object.take (s.consumed.length * call.windowSize)
  finished : s.outcome = some (.ok ()) → s.consumed.length = call.windowCount

theorem windowSize_pos (call : InOrderCall) : 1 ≤ call.windowSize := Nat.le_max_right ..

theorem lt_windowCount {i : Nat} : i < call.windowCount ↔ i * call.windowSize < call.size := by
  exact lt_ceilDiv (windowSize_pos call)

theorem isWindow_new {i : Nat} (hs : call.size = object.length) (hi : i < call.windowCount) :
    IsWindow call object i (call.windowAt i) := by
  have hlt := lt_windowCount.mp hi
  have hpos := windowSize_pos call
  have hlast : (call.windowAt i).last + 1 = min
      (i * call.windowSize + call.windowSize) call.size := by
    simp only [InOrderCall.windowAt, new]
    omega
  refine ⟨rfl, hlast, sound_new ?_ ?_⟩
  · omega
  · omega

theorem move_range {remotePath : String} {cancelled : Bool} {w w' : Window}
    (h : Window.Move remotePath object cancelled w w') : w'.start = w.start ∧ w'.last = w.last := by
  have hs : ∀ (w : Window) mark e, (w.settle mark e cancelled).start = w.start ∧
      (w.settle mark e cancelled).last = w.last := by
    intro w mark e
    obtain ⟨failures, resumeAt, stage, hs, -⟩ := settle_cases w mark e cancelled
    rw [hs]
    exact ⟨rfl, rfl⟩
  cases h with
  | attempt => exact ⟨rfl, rfl⟩
  | noWorker e => exact hs ..
  | read answer =>
    unfold Window.read
    split
    · exact ⟨rfl, rfl⟩
    · split <;> exact ⟨rfl, rfl⟩
  | replace error' => exact hs ..
  | wake => exact ⟨rfl, rfl⟩
  | abandon => exact ⟨rfl, rfl⟩

theorem kept_step (hsize : call.size = object.length) (h : s.step call object e = some s')
    (hk : Kept call object s) : Kept call object s' := by
  obtain ⟨hopen, hm⟩ := step_move h
  obtain ⟨hnum, hc, hw, hhanded, -⟩ := hk
  have hnone : ∀ {t : InOrderRead}, t.outcome = s.outcome → t.outcome = some (.ok ()) →
      t.consumed.length = call.windowCount := by
    intro t ht hok
    rw [ht, hopen] at hok
    cases hok
  cases hm with
  | launch hlen hnext =>
    refine ⟨?_, hnext, ?_, hhanded, hnone rfl⟩
    · simp only [length_append, length_singleton]
      omega
    · intro j w hj
      by_cases hlt : j < s.inFlight.length
      · rw [getElem?_append_left hlt] at hj
        exact hw j w hj
      · rw [getElem?_append_right (by omega)] at hj
        obtain ⟨hz, rfl⟩ := List.getElem?_eq_some_iff.mp hj
        rw [length_singleton] at hz
        have hplace : s.consumed.length + j = s.next := by omega
        simp only [getElem_singleton, hplace]
        exact isWindow_new hsize hnext
  | @window index w₀ w' pool hget hm hpool =>
    refine ⟨by simpa using hnum, hc, ?_, hhanded, hnone rfl⟩
    intro j w hj
    rw [getElem?_set] at hj
    by_cases hij : index = j
    · subst hij
      obtain ⟨hlt, -⟩ := List.getElem?_eq_some_iff.mp hget
      rw [if_pos rfl, if_pos hlt] at hj
      cases hj
      obtain ⟨hstart, hlast, hsound⟩ := hw index w₀ hget
      obtain ⟨hsame, hsame'⟩ := move_range hm
      exact ⟨hsame ▸ hstart, hsame' ▸ hsame ▸ hlast, sound_move hsound hm⟩
    · rw [if_neg hij] at hj
      exact hw j w hj
  | cancel => exact ⟨hnum, hc, hw, hhanded, hnone rfl⟩
  | finish he hnext =>
    refine ⟨hnum, hc, hw, hhanded, fun _ => ?_⟩
    rw [he] at hnum
    simpa [hnext] using hnum.symm
  | @pass w rest hhead hd =>
    rw [hhead] at hnum hw
    obtain ⟨hstart, hlast, hsound⟩ := hw 0 w rfl
    refine ⟨?_, hc, ?_, ?_, hnone rfl⟩
    · simp only [length_append, length_cons, length_nil] at hnum ⊢
      omega
    · intro j v hj
      have hnext := hw (j + 1) v hj
      show IsWindow call object ((s.consumed ++ [w.buffer]).length + j) v
      rwa [length_append, length_singleton, Nat.add_right_comm]
    · -- The buffer is the object from the window's start, as far as the window goes.
      have hb : w.buffer = (object.drop (s.consumed.length * call.windowSize)).take
          call.windowSize := by
        rw [hsound.buffer_eq hd]
        rw [hlast, hstart, Nat.add_zero]
        rw [take_eq_take_iff, length_drop]
        omega
      simp only [flatten_append, flatten_singleton, length_append, length_singleton]
      rw [hhanded, hb, ← take_add, Nat.add_mul, Nat.one_mul]
  | fail error =>
    refine ⟨hnum, hc, hw, hhanded, fun hok => ?_⟩
    cases hok

theorem kept_start (call : InOrderCall) (object : List UInt8) : Kept call object (start call) := by
  refine ⟨rfl, Nat.zero_le _, by simp [start], by simp [start], ?_⟩
  intro hok
  simp only [start] at hok
  split at hok <;> cases hok

/-! ### The object -/

/-- **Reading in order yields the object.**  For every object, window and number of workers,
and whatever the provider answers: what has been handed on is a prefix of the object, it is
the whole of it when the reading succeeds, and each window stays within its attempts. -/
theorem readInOrder_yields (remotePath : String) (object : List UInt8) (window streams : Nat)
    (events : List ReadEvent) {s : InOrderRead}
    (hrun : Runs.run (step ⟨remotePath, object.length, window, streams⟩ object)
      (start ⟨remotePath, object.length, window, streams⟩) events = some s) :
    s.consumed.flatten <+: object ∧
      (s.outcome = some (.ok ()) → s.consumed.flatten = object) ∧
      ∀ w ∈ s.inFlight,
        w.attempts ≤ w.bytes * (rangeRetries + 1) + rangeRetries + 1 ∧
        w.reads ≤ w.bytes * (rangeRetries + 1) + rangeRetries + 1 := by
  have hkept := Runs.run_invariant (fun _ _ _ => kept_step rfl) hrun (kept_start _ object)
  refine ⟨?_, ?_, ?_⟩
  · rw [hkept.handed]
    exact take_prefix ..
  · intro hok
    rw [hkept.handed, hkept.finished hok]
    refine take_of_length_le ?_
    have := mt lt_windowCount.mpr (Nat.lt_irrefl (InOrderCall.windowCount
      ⟨remotePath, object.length, window, streams⟩))
    exact Nat.le_of_not_lt this
  · intro w hw
    obtain ⟨j, hj⟩ := getElem?_of_mem hw
    exact (hkept.windows j w hj).sound.attempts_le

/-- Three bytes through one worker in windows of two; the first window's second read fails
and it resumes. -/
def resumedOnce : List ReadEvent :=
  [.launch, .attempt 0, .read 0 (.ok [7]), .read 0 (.error .timeout),
    .replaceWorker 0 true (.ok ()), .wake 0, .attempt 0, .read 0 (.ok [8, 9]), .deliver,
    .launch, .attempt 0, .read 0 (.ok [9]), .deliver, .deliver]

theorem readInOrder_yields_resumed :
    ∃ s, Runs.run (step ⟨"o", 3, 2, 1⟩ [7, 8, 9]) (start ⟨"o", 3, 2, 1⟩) resumedOnce = some s ∧
      s.outcome = some (.ok ()) ∧ s.consumed.flatten = [7, 8, 9] := by
  have hends : (Runs.run (step ⟨"o", 3, 2, 1⟩ [7, 8, 9]) (start ⟨"o", 3, 2, 1⟩) resumedOnce).map
      (fun s => s.outcome.map Except.isOk) = some (some true) := by
    decide +kernel
  obtain ⟨s, hs, hok⟩ := map_eq_some_iff.mp hends
  obtain ⟨result, houtcome, hresult⟩ := map_eq_some_iff.mp hok
  cases result with
  | error e => cases hresult
  | ok u =>
    exact ⟨s, hs, houtcome, (readInOrder_yields "o" [7, 8, 9] 2 1 resumedOnce hs).2.1 houtcome⟩

end InOrderRead

end AeroFtp.Providers
