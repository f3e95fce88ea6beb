/-
Out-of-band events, `aerorsync/events.rs`.

A frame that is not data is classified into an event.  Some events end the session;
`severity` says which.  Texts go through `String::from_utf8_lossy`, which replaces each
broken piece by U+FFFD: a piece is as much of a character as was well formed, and at
least one byte.
-/
import AeroFtp.Aerorsync.RealWire.FileList
import AeroFtp.Aerorsync.RealWire.Mux
import Mathlib.Data.List.DropRight

namespace AeroFtp.Events

open RealWire

/-! ### Lossy text -/

/-- Bytes that are one character wherever they stand. -/
structure IsChar (c : List UInt8) : Prop where
  pos : 0 < c.length
  width : ∀ rest, charWidth (c ++ rest) = c.length

/-- The second bytes a three- or four-byte character may have. -/
def secondRange (first : UInt8) : UInt8 × UInt8 :=
  if first = 0xE0 then (0xA0, 0xBF)
  else if first = 0xED then (0x80, 0x9F)
  else if first = 0xF0 then (0x90, 0xBF)
  else if first = 0xF4 then (0x80, 0x8F)
  else (0x80, 0xBF)

/-- How many of `bytes`, which start with no character, one U+FFFD stands for. -/
def brokenLen (bytes : List UInt8) : Nat :=
  match bytes with
  | first :: b1 :: rest =>
    if 0xE0 ≤ first ∧ first ≤ 0xF4 ∧ (secondRange first).1 ≤ b1 ∧ b1 ≤ (secondRange first).2 then
      match rest with
      | b2 :: _ => if 0xF0 ≤ first ∧ isContinuation b2 then 3 else 2
      | [] => 2
    else 1
  | _ => 1

/-- U+FFFD. -/
def replacementChar : List UInt8 := [0xEF, 0xBF, 0xBD]

/-- The characters of `String::from_utf8_lossy`. -/
def lossyChars : Nat → List UInt8 → List (List UInt8)
  | 0, _ => []
  | _ + 1, [] => []
  | fuel + 1, byte :: bytes =>
    match charWidth (byte :: bytes) with
    | 0 => replacementChar :: lossyChars fuel ((byte :: bytes).drop (brokenLen (byte :: bytes)))
    | width => (byte :: bytes).take width :: lossyChars fuel ((byte :: bytes).drop width)

theorem charWidth_take_append {bytes : List UInt8} {w : Nat} (h : charWidth bytes = w)
    (hw : w ≠ 0) : w ≤ bytes.length ∧ ∀ rest, charWidth (bytes.take w ++ rest) = w := by
  unfold charWidth at h
  split at h
  · exact absurd h.symm hw
  next first more =>
    split at h
    next h1 =>
      subst h
      exact ⟨by simp, fun rest => by simp [charWidth, h1]⟩
    next h1 =>
      split at h
      next h2 =>
        split at h
        next b1 more =>
          split at h
          next h3 =>
            subst h
            exact ⟨by simp, fun rest => by simp [charWidth, h1, h2, h3]⟩
          next => exact absurd h.symm hw
        next => exact absurd h.symm hw
      next h2 =>
        split at h
        next h3 =>
          split at h
          next b1 b2 more =>
            rcases ite_eq_iff.mp h with ⟨h4, rfl⟩ | ⟨_, h⟩
            · refine ⟨by simp, fun rest => ?_⟩
              simp only [List.take_succ_cons, List.take_zero, List.cons_append, charWidth]
              rw [if_neg h1, if_neg h2, if_pos h3, if_pos h4]
            · exact absurd h.symm hw
          next => exact absurd h.symm hw
        next h3 =>
          split at h
          next h4 =>
            split at h
            next b1 b2 b3 more =>
              rcases ite_eq_iff.mp h with ⟨h5, rfl⟩ | ⟨_, h⟩
              · refine ⟨by simp, fun rest => ?_⟩
                simp only [List.take_succ_cons, List.take_zero, List.cons_append, charWidth]
                rw [if_neg h1, if_neg h2, if_neg h3, if_pos h4, if_pos h5]
              · exact absurd h.symm hw
            next => exact absurd h.symm hw
          next => exact absurd h.symm hw

theorem isChar_take {bytes : List UInt8} {w : Nat} (h : charWidth bytes = w) (hw : w ≠ 0) :
    IsChar (bytes.take w) := by
  obtain ⟨hle, hwidth⟩ := charWidth_take_append h hw
  have hlen : (bytes.take w).length = w := List.length_take_of_le hle
  exact ⟨by omega, fun rest => by rw [hwidth, hlen]⟩

theorem isChar_replacementChar : IsChar replacementChar :=
  ⟨by decide, fun _ => rfl⟩

theorem isChar_lossyChars (fuel : Nat) (bytes : List UInt8) :
    ∀ c ∈ lossyChars fuel bytes, IsChar c := by
  induction fuel generalizing bytes with
  | zero => simp [lossyChars]
  | succ fuel ih =>
    cases bytes with
    | nil => simp [lossyChars]
    | cons byte bytes =>
      intro c hc
      rw [lossyChars] at hc
      split at hc
      next =>
        rcases List.mem_cons.mp hc with rfl | hc
        · exact isChar_replacementChar
        · exact ih _ c hc
      next hw =>
        rcases List.mem_cons.mp hc with rfl | hc
        · exact isChar_take rfl hw
        · exact ih _ c hc

theorem validUpTo_flatten {cs : List (List UInt8)} (h : ∀ c ∈ cs, IsChar c) :
    validUpTo cs.flatten = cs.flatten.length := by
  have hf : ∀ fuel, cs.flatten.length ≤ fuel →
      validUpToFrom fuel cs.flatten = cs.flatten.length := by
    induction cs with
    | nil =>
      intro fuel _
      cases fuel <;> rfl
    | cons c cs ih =>
      intro fuel hle
      have hc := h c (List.mem_cons_self ..)
      have hpos := hc.pos
      rw [List.flatten_cons, List.length_append] at hle
      cases fuel with
      | zero => omega
      | succ fuel =>
        rw [List.flatten_cons, validUpToFrom, hc.width]
        split
        next h0 => omega
        next =>
          rw [List.drop_left, List.length_append,
            ih (fun c' hc' => h c' (List.mem_cons_of_mem _ hc')) fuel (by omega)]
  exact hf _ (Nat.le_refl _)

/-- `trim_end_matches(['\n', '\r'])`. -/
def trimEnd (cs : List (List UInt8)) : List (List UInt8) :=
  cs.rdropWhile fun c => c = [0x0A] ∨ c = [0x0D]

variable (payload : List UInt8)

/-- UTF-8 lossy decode, without trailing line ends. -/
def decodeText : Utf8String where
  bytes := (trimEnd (lossyChars payload.length payload)).flatten
  valid := validUpTo_flatten fun c hc =>
    isChar_lossyChars _ _ c (( List.rdropWhile_prefix ..).subset hc)

/-! ### Events -/

inductive EventSeverity where
  | info
  | warning
  | error
  | terminal
  deriving DecidableEq, Repr

/-- A classified out-of-band frame. -/
inductive AerorsyncEvent where
  | errorXfer (message : Utf8String)
  | info (message : Utf8String)
  | error (message : Utf8String)
  | warning (message : Utf8String)
  | errorSocket (message : Utf8String)
  | log (message : Utf8String)
  | client (message : Utf8String)
  | errorUtf8 (message : Utf8String)
  | redo (flistIndex : UInt32)
  | stats (totalRead : UInt64)
  | ioError (flags : UInt32)
  | ioTimeout (seconds : UInt32)
  | noop
  | errorExit (code : Option UInt32)
  | success (flistIndex : UInt32)
  | deleted (path : Utf8String)
  | noSend (flistIndex : UInt32)
  | unknown (tag : UInt8) (payload : List UInt8)
  deriving DecidableEq, Repr

namespace AerorsyncEvent

def severity : AerorsyncEvent → EventSeverity
  | .error _ | .errorXfer _ | .errorSocket _ => .terminal
  | .errorExit code =>
    match code with
    | some 0 | none => .info
    | some _ => .terminal
  | .warning _ | .ioError _ | .ioTimeout _ | .errorUtf8 _ => .warning
  | .info _ | .log _ | .client _ | .redo _ | .stats _ | .noop | .success _ | .deleted _
  | .noSend _ | .unknown _ _ => .info

/-- Whether the consumer must abort the session on this event. -/
def isTerminal (event : AerorsyncEvent) : Bool := event.severity = .terminal

end AerorsyncEvent

def stripTrailingNull : List UInt8 :=
  if payload.getLast? = some 0 then payload.take (payload.length - 1) else payload

def readU32LeOrZero : UInt32 :=
  if payload.length < 4 then 0 else u32FromLeBytes (payload.take 4)

def readU64LeOrZero : UInt64 :=
  if payload.length < 8 then 0 else UInt64.ofNat (LittleEndian.fromLeBytes (payload.take 8))

def classifyErrorExitPayload : Option UInt32 :=
  match payload.length with
  | 0 => none
  | 4 => some (readU32LeOrZero payload)
  | _ => none

/-- Decode one out-of-band frame; never fails. -/
def classifyOobFrame (tag : MuxTag) (payload : List UInt8) : AerorsyncEvent :=
  match tag with
  | .data => .unknown tag.code payload
  | .errorXfer => .errorXfer (decodeText payload)
  | .info => .info (decodeText payload)
  | .error => .error (decodeText payload)
  | .warning => .warning (decodeText payload)
  | .errorSocket => .errorSocket (decodeText payload)
  | .log => .log (decodeText payload)
  | .client => .client (decodeText payload)
  | .errorUtf8 => .errorUtf8 (decodeText payload)
  | .deleted => .deleted (decodeText (stripTrailingNull payload))
  | .redo => .redo (readU32LeOrZero payload)
  | .ioError => .ioError (readU32LeOrZero payload)
  | .ioTimeout => .ioTimeout (readU32LeOrZero payload)
  | .success => .success (readU32LeOrZero payload)
  | .noSend => .noSend (readU32LeOrZero payload)
  | .stats => .stats (readU64LeOrZero payload)
  | .noop => .noop
  | .errorExit => .errorExit (classifyErrorExitPayload payload)
  | .unknown raw => .unknown raw payload

end AeroFtp.Events
