/-
Whole delta streams.

`decode_delta_stream` takes record after record until the end flag.  `decodeTail` is
the rest of a stream from any state on, with one equation for the end flag and one for
a record; the loop itself is not looked at again.  The result here is about streams
that stop early: they can be completed, unless they are malformed.
-/
import AeroFtp.Aerorsync.NativeDriver
import AeroFtp.Proofs.Aerorsync.DeltaToken

namespace AeroFtp.RealWire

open LittleEndian List

/-! ### The loop does not depend on its fuel -/

variable {state : DeltaStreamState} {state' : DeltaStreamState}

theorem decodeDeltaOp_consumes {b : List UInt8} {outcome : DeltaOpOutcome} {n : Nat}
    (h : decodeDeltaOp b state = .ok ((outcome, n), state')) : 0 < n ∧ n ≤ b.length := by
  rcases record_cases b with ⟨rest, rfl⟩ | ⟨r, rest, hr, rfl⟩ | hbad | ⟨e, he, hr⟩
  · cases h
    simp
  · obtain ⟨op, next, hdec⟩ := decodeDeltaOp_record hr state
    rw [hdec rest] at h
    cases h
    refine ⟨length_pos_of_ne_nil hr.ne_nil, ?_⟩
    rw [length_append]
    omega
  · obtain ⟨_, _, _, hdec⟩ := decodeDeltaOp_malformed hbad state []
    rw [append_nil, h] at hdec
    cases hdec
  · obtain ⟨_, _, _, hdec⟩ := decodeDeltaOp_incomplete he hr state
    rw [h] at hdec
    cases hdec

theorem decodeDeltaOps_fuel (count : Option Int32) :
    ∀ (fuel fuel' : Nat) (b : List UInt8) (state : DeltaStreamState),
      b.length < fuel → b.length < fuel' →
      decodeDeltaOps count fuel b state = decodeDeltaOps count fuel' b state := by
  intro fuel
  induction fuel with
  | zero =>
    intro fuel' b state hlt
    omega
  | succ fuel ih =>
    intro fuel' b state hlt hlt'
    obtain ⟨fuel', rfl⟩ := Nat.exists_eq_succ_of_ne_zero (Nat.ne_of_gt (Nat.zero_lt_of_lt hlt'))
    rw [decodeDeltaOps, decodeDeltaOps]
    cases hdec : decodeDeltaOp b state with
    | error e => rfl
    | ok r =>
      obtain ⟨⟨outcome, n⟩, state'⟩ := r
      obtain ⟨hpos, hle⟩ := decodeDeltaOp_consumes hdec
      cases outcome with
      | endFlag => rfl
      | op op =>
        have hr : (b.drop n).length < b.length := by
          rw [length_drop]
          omega
        dsimp only
        rw [ih fuel' (b.drop n) state' (by omega) (by omega)]

/-! ### The rest of a stream -/

section Tail

variable (checksumLen : Nat) (count : Option Int32)

/-- `decode_delta_stream` from a state in the middle of a stream. -/
def decodeTail (b : List UInt8) (state : DeltaStreamState) :
    Except RealWireError (DeltaStreamReport × Nat) :=
  match decodeDeltaOps count (b.length + 1) b state with
  | .error e => .error e
  | .ok (ops, cursor) =>
    match decodeFileChecksum (b.drop cursor) checksumLen with
    | .error e => .error e
    | .ok (fileChecksum, consumed) => .ok (⟨ops, fileChecksum⟩, cursor + consumed)

theorem decodeDeltaStream_eq (b : List UInt8) :
    decodeDeltaStream b checksumLen count = decodeTail checksumLen count b {} := rfl

theorem decodeTail_endFlag (rest : List UInt8) (state : DeltaStreamState) :
    decodeTail checksumLen count (tokenEndFlag :: rest) state
      = match decodeFileChecksum rest checksumLen with
        | .error e => .error e
        | .ok (fileChecksum, consumed) => .ok (⟨[], fileChecksum⟩, 1 + consumed) := rfl

theorem decodeTail_record {r : List UInt8} (hne : r ≠ []) {op : DeltaOp} (rest : List UInt8)
    (hdec : decodeDeltaOp (r ++ rest) state = .ok ((.op op, r.length), state')) :
    decodeTail checksumLen count (r ++ rest) state
      = match checkTokenRange count op with
        | .error e => .error e
        | .ok () =>
          match decodeTail checksumLen count rest state' with
          | .error e => .error e
          | .ok (report, n) => .ok (⟨op :: report.ops, report.fileChecksum⟩, r.length + n) := by
  have hlen : rest.length < (r ++ rest).length := by
    rw [length_append]
    have := length_pos_of_ne_nil hne
    omega
  unfold decodeTail
  rw [decodeDeltaOps, hdec]
  dsimp only
  rw [drop_left, decodeDeltaOps_fuel count _ (rest.length + 1) rest state' hlen (by omega)]
  cases checkTokenRange count op with
  | error e => rfl
  | ok u =>
    cases decodeDeltaOps count (rest.length + 1) rest state' with
    | error e => rfl
    | ok s =>
      obtain ⟨ops, cursor⟩ := s
      dsimp only
      rw [← drop_drop, drop_left]
      cases decodeFileChecksum (rest.drop cursor) checksumLen with
      | error e => rfl
      | ok c =>
        dsimp only
        rw [Nat.add_assoc]

end Tail

/-! ### A truncated stream can be completed, unless it is malformed -/

/-- A stream with a bad head behind some complete records. -/
inductive Malformed : List UInt8 → Prop
  | head {b : List UInt8} (h : MalformedHead b) : Malformed b
  | later {r rest : List UInt8} (hr : Record r) (hrest : Malformed rest) : Malformed (r ++ rest)

section Completing

variable {checksumLen : Nat} {count : Option Int32}

theorem checkTokenRange_cases (count : Option Int32) (op : DeltaOp) :
    checkTokenRange count op = .ok () ∨
      ∃ token blocks, checkTokenRange count op = .error (.deltaTokenOutOfRange token blocks) := by
  unfold checkTokenRange
  split
  · split
    · exact .inr ⟨_, _, rfl⟩
    · split
      · exact .inr ⟨_, _, rfl⟩
      · exact .inl rfl
  · exact .inl rfl

theorem isTruncated_tail {b : List UInt8} (h : IsTruncated (decodeDeltaOp b state)) :
    IsTruncated (decodeTail checksumLen count b state) := by
  obtain ⟨at_, needed, available, hdec⟩ := h
  refine ⟨at_, needed, available, ?_⟩
  unfold decodeTail
  rw [decodeDeltaOps, hdec]

theorem isTruncated_record_iff {r : List UInt8} (hne : r ≠ []) {op : DeltaOp} {rest : List UInt8}
    (hdec : decodeDeltaOp (r ++ rest) state = .ok ((.op op, r.length), state')) :
    IsTruncated (decodeTail checksumLen count (r ++ rest) state) ↔
      checkTokenRange count op = .ok () ∧
        IsTruncated (decodeTail checksumLen count rest state') := by
  rw [decodeTail_record checksumLen count hne rest hdec]
  rcases checkTokenRange_cases count op with hok | ⟨token, blocks, herr⟩
  · rw [hok]
    cases decodeTail checksumLen count rest state' with
    | error e =>
      constructor
      · rintro ⟨at_, needed, available, h⟩
        cases h
        exact ⟨rfl, _, _, _, rfl⟩
      · rintro ⟨_, at_, needed, available, h⟩
        cases h
        exact ⟨_, _, _, rfl⟩
    | ok s =>
      constructor
      · rintro ⟨_, _, _, h⟩
        cases h
      · rintro ⟨_, _, _, _, h⟩
        cases h
  · rw [herr]
    constructor
    · rintro ⟨_, _, _, h⟩
      cases h
    · rintro ⟨h, _⟩
      cases h

theorem not_isTruncated_checksum (rest : List UInt8) (state : DeltaStreamState) :
    ¬ IsTruncated (decodeTail checksumLen count
      (tokenEndFlag :: (rest ++ replicate checksumLen 0)) state) := by
  rw [decodeTail_endFlag]
  have hlen : ¬ (rest ++ replicate checksumLen (0 : UInt8)).length < checksumLen := by
    rw [length_append, length_replicate]
    omega
  unfold decodeFileChecksum
  rw [if_neg hlen]
  rintro ⟨_, _, _, h⟩
  cases h

theorem isTruncated_of_malformed {b : List UInt8} (hb : Malformed b) (e : List UInt8) :
    ∀ state, IsTruncated (decodeTail checksumLen count b state) →
      IsTruncated (decodeTail checksumLen count (b ++ e) state) := by
  induction hb with
  | @head b h =>
    intro state _
    exact isTruncated_tail (decodeDeltaOp_malformed h state e)
  | @later r rest hr _ ih =>
    intro state ht
    obtain ⟨op, state', hdec⟩ := decodeDeltaOp_record hr state
    obtain ⟨hok, hrest⟩ := (isTruncated_record_iff hr.ne_nil (hdec rest)).mp ht
    rw [append_assoc]
    exact (isTruncated_record_iff hr.ne_nil (hdec (rest ++ e))).mpr ⟨hok, ih state' hrest⟩

/-- Everything else can be completed to a stream that decodes or is refused. -/
theorem exists_not_isTruncated :
    ∀ (m : Nat) (b : List UInt8) (state : DeltaStreamState), b.length = m → ¬ Malformed b →
      ∃ e, ¬ IsTruncated (decodeTail checksumLen count (b ++ e) state) := by
  intro m
  induction m using Nat.strong_induction_on with
  | _ m ih =>
    intro b state hlen hg
    rcases record_cases b with ⟨rest, rfl⟩ | ⟨r, rest, hr, rfl⟩ | hbad | ⟨e, he, hr⟩
    · exact ⟨replicate checksumLen 0, not_isTruncated_checksum rest state⟩
    · obtain ⟨op, state', hdec⟩ := decodeDeltaOp_record hr state
      have hs : rest.length < m := by
        rw [← hlen, length_append]
        have := length_pos_of_ne_nil hr.ne_nil
        omega
      obtain ⟨e, he⟩ := ih rest.length hs rest state' rfl (fun h => hg (.later hr h))
      refine ⟨e, ?_⟩
      rw [append_assoc, isTruncated_record_iff hr.ne_nil (hdec (rest ++ e))]
      exact fun h => he h.2
    · exact absurd (.head hbad) hg
    · -- Complete the record, then end the stream.
      obtain ⟨op, state', hdec⟩ := decodeDeltaOp_record hr state
      refine ⟨e ++ tokenEndFlag :: replicate checksumLen 0, ?_⟩
      rw [← append_assoc, isTruncated_record_iff hr.ne_nil (hdec _)]
      exact fun h => not_isTruncated_checksum [] state' h.2

/-- **Which truncated streams can be completed.**  When `decode_delta_stream` asks for
more bytes, some bytes make it stop asking if and only if the buffer is not
malformed. -/
theorem truncated_completable_iff (b : List UInt8) (checksumLen : Nat) (count : Option Int32)
    (h : IsTruncated (decodeDeltaStream b checksumLen count)) :
    (∃ e, ¬ IsTruncated (decodeDeltaStream (b ++ e) checksumLen count)) ↔ ¬ Malformed b := by
  constructor
  · rintro ⟨e, he⟩ hbad
    exact he (isTruncated_of_malformed hbad e {} h)
  · intro hgood
    exact exists_not_isTruncated b.length b {} rfl hgood

/-- A literal of three bytes, of which one has arrived. -/
theorem truncated_completable_literal :
    ∃ e, ¬ IsTruncated (decodeDeltaStream ([0x40, 0x03, 0x07] ++ e) 2 none) := by
  refine (truncated_completable_iff [0x40, 0x03, 0x07] 2 none
    ⟨"deflated_payload", 3, 1, rfl⟩).mpr ?_
  intro hbad
  obtain ⟨_, _, _, h⟩ := @isTruncated_of_malformed 2 none _ hbad [0x08, 0x09, 0x00, 0xAA, 0xBB] {}
    ⟨"deflated_payload", 3, 1, rfl⟩
  cases h

/-- A tag no version of the protocol knows, and a literal of length zero: both are
reported as truncated, and stay so whatever follows. -/
theorem truncated_forever :
    (IsTruncated (decodeDeltaStream [0x01] 16 (some 4)) ∧
        ∀ e, IsTruncated (decodeDeltaStream ([0x01] ++ e) 16 (some 4))) ∧
      IsTruncated (decodeDeltaStream [0x40, 0x00] 16 (some 4)) ∧
        ∀ e, IsTruncated (decodeDeltaStream ([0x40, 0x00] ++ e) 16 (some 4)) :=
  ⟨⟨⟨_, _, _, rfl⟩, fun _ => ⟨_, _, _, rfl⟩⟩, ⟨_, _, _, rfl⟩, fun _ => ⟨_, _, _, rfl⟩⟩

end Completing

end AeroFtp.RealWire
