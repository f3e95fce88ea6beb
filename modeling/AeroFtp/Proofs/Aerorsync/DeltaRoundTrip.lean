/-
Decoding what was encoded, and what a copy token says.

Encoder and decoder each keep the end of the last run and resolve relative tokens
against it.  `decodeDeltaOp_encode` shows one instruction coming back together with
the state the encoder is in, so the two states stay equal along the stream and the
round trip is an induction on the instructions.

The run length is where a token can lie.  A sender's run of 65536 blocks has 65535 in
its extra field; the decoder saturates the length and loses the last block, while it
moves its baseline over all of them.
-/
import AeroFtp.Proofs.Aerorsync.DeltaStream

namespace AeroFtp.RealWire

open LittleEndian List NativeDriver

/-! ### Bytes of the tokens -/

@[simp] theorem length_u16ToLeBytes (x : UInt16) : (u16ToLeBytes x).length = 2 :=
  length_toLeBytes 2 _

@[simp] theorem length_i32ToLeBytes (x : Int32) : (i32ToLeBytes x).length = 4 :=
  length_toLeBytes 4 _

theorem u16FromLeBytes_toLeBytes (x : UInt16) : u16FromLeBytes (u16ToLeBytes x) = x := by
  unfold u16FromLeBytes u16ToLeBytes
  rw [fromLeBytes_toLeBytes_of_lt x.toNat_lt, UInt16.ofNat_toNat]

theorem i32FromLeBytes_toLeBytes (x : Int32) : i32FromLeBytes (i32ToLeBytes x) = x := by
  unfold i32FromLeBytes u32FromLeBytes i32ToLeBytes
  rw [fromLeBytes_toLeBytes_of_lt x.toUInt32.toNat_lt, UInt32.ofNat_toNat]
  rfl

theorem relative_tag (x : UInt8) (h : x.toNat < 64) :
    (tokenRel ||| x) &&& 0xC0 = tokenRel ∧ (tokenRel ||| x) &&& 0x3F = x ∧
      (tokenrunRel ||| x) &&& 0xC0 = tokenrunRel ∧ (tokenrunRel ||| x) &&& 0x3F = x := by
  revert x
  decide +kernel

theorem literal_tag (x : UInt8) (h : x.toNat < 64) :
    (tokenDeflatedData ||| x) &&& 0xC0 = tokenDeflatedData ∧
      (tokenDeflatedData ||| x) &&& 0x3F = x := by
  revert x
  decide +kernel

theorem announcedLength_header {len : Nat} (h : len ≤ maxDeltaLiteralLen) :
    (tokenDeflatedData ||| UInt8.ofNat ((len >>> 8) &&& 0x3F)) &&& 0xC0 = tokenDeflatedData ∧
      announcedLength (tokenDeflatedData ||| UInt8.ofNat ((len >>> 8) &&& 0x3F))
        (UInt8.ofNat (len &&& 0xFF)) = len := by
  have hmax : len ≤ 16383 := h
  have hh : (len >>> 8) &&& 0x3F = len / 256 := by
    rw [Nat.shiftRight_eq_div_pow, show 0x3F = 2 ^ 6 - 1 from rfl, Nat.and_two_pow_sub_one_eq_mod]
    exact Nat.mod_eq_of_lt (by omega)
  have hlow : len &&& 0xFF = len % 256 := by
    rw [show 0xFF = 2 ^ 8 - 1 from rfl, Nat.and_two_pow_sub_one_eq_mod]
  have hx : (UInt8.ofNat (len / 256)).toNat = len / 256 := by
    exact Nat.mod_eq_of_lt (by omega)
  have hlo : (UInt8.ofNat (len % 256)).toNat = len % 256 := by
    exact Nat.mod_eq_of_lt (by omega)
  obtain ⟨htag, hb⟩ := literal_tag (UInt8.ofNat (len / 256)) (by omega)
  rw [hh, hlow]
  refine ⟨htag, ?_⟩
  unfold announcedLength
  rw [hb, ← Nat.shiftLeft_add_eq_or_of_lt (by omega)]
  omega

theorem relativeOffset_rel {rel : Int32} (h0 : 0 ≤ rel) (h63 : rel ≤ 63) :
    rel.toUInt32.toUInt8.toNat < 64 ∧ Int32.ofNat rel.toUInt32.toUInt8.toNat = rel := by
  have h0' : 0 ≤ rel.toInt := Int32.le_iff_toInt_le.mp h0
  have h63' : rel.toInt ≤ 63 := Int32.le_iff_toInt_le.mp h63
  have hrel : rel = Int32.ofNat rel.toInt.toNat := by
    rw [← Int32.ofInt_eq_ofNat, Int.toNat_of_nonneg h0', Int32.ofInt_toInt]
  have hlt : rel.toInt.toNat < 64 := by omega
  have hall : ∀ n < 64, (Int32.ofNat n).toUInt32.toUInt8.toNat < 64 ∧
      Int32.ofNat (Int32.ofNat n).toUInt32.toUInt8.toNat = Int32.ofNat n := by decide
  rw [hrel]
  exact hall _ hlt

/-! ### Run lengths -/

variable {x : UInt16}

theorem saturatingSucc_pred (h : x ≠ 0) : saturatingSucc (saturatingPred x) = x := by
  unfold saturatingSucc saturatingPred
  grind

theorem toNat_saturatingSucc (h : x ≠ 0xFFFF) : (saturatingSucc x).toNat = x.toNat + 1 := by
  have hne : x.toNat ≠ 65535 := fun heq => h (UInt16.toNat_inj.mp heq)
  have hlt := x.toNat_lt
  unfold saturatingSucc
  rw [if_neg h]
  exact Nat.mod_eq_of_lt (by show x.toNat + 1 < 65536; omega)

theorem i32FromU16_succ (h : x ≠ 0xFFFF) : i32FromU16 (saturatingSucc x) = i32FromU16 x + 1 := by
  unfold i32FromU16
  rw [toNat_saturatingSucc h, Int32.ofNat_add]
  rfl

theorem single_run_end (start : Int32) : start + i32FromU16 (saturatingPred 1) = start := by
  have hz : i32FromU16 (saturatingPred 1) = 0 := by decide
  rw [hz, Int32.add_zero]

/-! ### One instruction -/

/-- The instructions a sender may put on the wire. -/
def Encodable : DeltaOp → Prop
  | .literal payload => 1 ≤ payload.length ∧ payload.length ≤ maxDeltaLiteralLen
  | .copyRun _ runLength => 1 ≤ runLength

/-- **One instruction comes back**, and leaves the decoder in the encoder's state. -/
theorem decodeDeltaOp_encode {op : DeltaOp} (hop : Encodable op) (state : DeltaStreamState) :
    ∃ bytes state', encodeDeltaOp op state = some (bytes, state') ∧ bytes ≠ [] ∧
      ∀ t, decodeDeltaOp (bytes ++ t) state = .ok ((.op op, bytes.length), state') := by
  cases op with
  | literal payload =>
    obtain ⟨hpos, hmax⟩ := hop
    obtain ⟨htag, hlen⟩ := announcedLength_header hmax
    refine ⟨_, state, if_pos ⟨hpos, hmax⟩, cons_ne_nil _ _, ?_⟩
    intro t
    exact decodeDeltaOp_literal_record htag hlen.symm hpos
  | copyRun start runLength =>
    have hne : runLength ≠ 0 := by
      rintro rfl
      exact absurd (show (1 : UInt16) ≤ 0 from hop) (by decide)
    have hsucc : saturatingSucc (u16FromLeBytes (u16ToLeBytes (saturatingPred runLength)))
        = runLength := by
      rw [u16FromLeBytes_toLeBytes, saturatingSucc_pred hne]
    have hback : state.lastRunEnd + (start - state.lastRunEnd) = start := by grind
    by_cases hrel : 0 ≤ start - state.lastRunEnd ∧ start - state.lastRunEnd ≤ 63
    · obtain ⟨hsix, hoff⟩ := relativeOffset_rel hrel.1 hrel.2
      obtain ⟨htag, hbits, hrunTag, hrunBits⟩ := relative_tag _ hsix
      by_cases hone : runLength = 1
      · subst hone
        refine ⟨_, _, if_pos ⟨hrel, rfl⟩, cons_ne_nil _ _, ?_⟩
        intro t
        rw [singleton_append, decodeDeltaOp_rel htag, relativeOffset, hbits, hoff, hback,
          single_run_end]
        rfl
      · refine ⟨_, _, (if_neg (fun h => hone h.2)).trans (if_pos hrel), cons_ne_nil _ _, ?_⟩
        intro t
        rw [decodeDeltaOp_runRel_record hrunTag (length_u16ToLeBytes _), hsucc,
          u16FromLeBytes_toLeBytes, relativeOffset, hrunBits, hoff, hback]
    · have hno : ¬ ((0 ≤ start - state.lastRunEnd ∧ start - state.lastRunEnd ≤ 63) ∧
          runLength = 1) := fun h => hrel h.1
      by_cases hone : runLength = 1
      · subst hone
        refine ⟨_, _, ((if_neg hno).trans (if_neg hrel)).trans (if_pos rfl), cons_ne_nil _ _, ?_⟩
        intro t
        rw [decodeDeltaOp_long_record (length_i32ToLeBytes _), i32FromLeBytes_toLeBytes,
          single_run_end]
      · refine ⟨_, _, ((if_neg hno).trans (if_neg hrel)).trans (if_neg hone), cons_ne_nil _ _, ?_⟩
        intro t
        have htotal :
            (i32ToLeBytes start ++ u16ToLeBytes (saturatingPred runLength)).length = 6 := by
          rw [length_append, length_i32ToLeBytes, length_u16ToLeBytes]
        rw [decodeDeltaOp_runLong_record htotal, ← length_i32ToLeBytes start, take_left,
          drop_left, hsucc, u16FromLeBytes_toLeBytes, i32FromLeBytes_toLeBytes]

/-! ### The stream -/

/-- The runs a stream refers to lie inside the blocks of the baseline. -/
def InRange (count : Int32) : DeltaOp → Prop
  | .copyRun start runLength => 0 ≤ start.toInt ∧ start.toInt + runLength.toNat ≤ count.toInt
  | .literal _ => True

theorem toInt_i32FromU16 (x : UInt16) : (i32FromU16 x).toInt = x.toNat := by
  have hlt := x.toNat_lt
  exact Int32.toInt_ofNat_of_lt (by omega)

theorem checkedAdd_cases (a b : Int32) :
    (∃ sum, checkedAdd a b = some sum ∧ sum.toInt = a.toInt + b.toInt) ∨ checkedAdd a b = none ∧
        (a.toInt + b.toInt < Int32.minValue.toInt ∨ Int32.maxValue.toInt < a.toInt + b.toInt) := by
  have hmin : Int32.minValue.toInt = -2147483648 := by decide
  have hmax : Int32.maxValue.toInt = 2147483647 := by decide
  by_cases hf : Int32.minValue.toInt ≤ a.toInt + b.toInt ∧ a.toInt + b.toInt ≤ Int32.maxValue.toInt
  · refine .inl ⟨a + b, if_pos hf, ?_⟩
    rw [Int32.toInt_add, Int.bmod_eq_of_le (by omega) (by omega)]
  · refine .inr ⟨if_neg hf, ?_⟩
    omega

/-- The range check is the range: where the checked sum overflows, the run ends past
every block count there is. -/
theorem checkTokenRange_some_iff (count : Int32) (op : DeltaOp) :
    checkTokenRange (some count) op = .ok () ↔ InRange count op := by
  cases op with
  | literal payload => exact ⟨fun _ => trivial, fun _ => rfl⟩
  | copyRun start runLength =>
    have hrun := toInt_i32FromU16 runLength
    have hmin : Int32.minValue.toInt ≤ start.toInt := start.minValue_le_toInt
    have hmax : count.toInt ≤ Int32.maxValue.toInt := count.toInt_le
    unfold checkTokenRange InRange
    dsimp only
    rcases checkedAdd_cases start (i32FromU16 runLength) with ⟨stop, hstop, hsum⟩ | ⟨hn, hover⟩
    · rw [hstop]
      dsimp only
      by_cases hout : start < 0 ∨ stop > count
      · rw [if_pos hout]
        rw [Int32.lt_iff_toInt_lt, gt_iff_lt, Int32.lt_iff_toInt_lt, Int32.toInt_zero] at hout
        refine ⟨fun h => (by cases h), fun h => ?_⟩
        omega
      · rw [if_neg hout]
        rw [Int32.lt_iff_toInt_lt, gt_iff_lt, Int32.lt_iff_toInt_lt, Int32.toInt_zero] at hout
        refine ⟨fun _ => ?_, fun _ => rfl⟩
        omega
    · rw [hn]
      refine ⟨fun h => (by cases h), fun h => ?_⟩
      omega

theorem decodeTail_encode (checksum t : List UInt8) :
    ∀ (ops : List DeltaOp) (state : DeltaStreamState), (∀ op ∈ ops, Encodable op) →
      ∃ bytes state', encodeDeltaOps ops state = some (bytes, state') ∧ ∀ count,
        ((∀ op ∈ ops, checkTokenRange count op = .ok ()) →
          decodeTail checksum.length count (bytes ++ tokenEndFlag :: checksum ++ t) state
            = .ok (⟨ops, checksum⟩, (bytes ++ tokenEndFlag :: checksum).length)) ∧
        ((∃ op ∈ ops, checkTokenRange count op ≠ .ok ()) →
          ∃ e, decodeTail checksum.length count (bytes ++ tokenEndFlag :: checksum ++ t) state
            = .error e) := by
  intro ops
  induction ops with
  | nil =>
    intro state _
    refine ⟨[], state, rfl, fun count => ⟨?_, ?_⟩⟩
    · intro _
      rw [nil_append, cons_append, decodeTail_endFlag]
      unfold decodeFileChecksum
      rw [if_neg (by rw [length_append]; omega), take_left, length_cons, Nat.add_comm]
    · rintro ⟨op, hop, _⟩
      cases hop
  | cons op ops ih =>
    intro state hops
    obtain ⟨hop, hrest⟩ := forall_mem_cons.mp hops
    obtain ⟨bytes, next, henc, hne, hdec⟩ := decodeDeltaOp_encode hop state
    obtain ⟨more, last, hmore, hdecMore⟩ := ih next hrest
    have hs : bytes ++ more ++ tokenEndFlag :: checksum ++ t
        = bytes ++ (more ++ tokenEndFlag :: checksum ++ t) := by
      simp only [append_assoc]
    refine ⟨bytes ++ more, last, ?_, ?_⟩
    · rw [encodeDeltaOps, henc]
      dsimp only
      rw [hmore]
    · intro count
      rw [hs, decodeTail_record checksum.length count hne _ (hdec _)]
      obtain ⟨hok, hbad⟩ := hdecMore count
      refine ⟨?_, ?_⟩
      · intro hrange
        obtain ⟨hh, ht⟩ := forall_mem_cons.mp hrange
        rw [hh, hok ht]
        simp only [length_append, append_assoc]
      · rintro ⟨bad, hmem, hbadRange⟩
        rcases checkTokenRange_cases count op with hh | ⟨token, blocks, herr⟩
        · rcases mem_cons.mp hmem with rfl | hmem
          · exact absurd hh hbadRange
          · obtain ⟨e, he⟩ := hbad ⟨bad, hmem, hbadRange⟩
            rw [hh, he]
            exact ⟨e, rfl⟩
        · rw [herr]
          exact ⟨_, rfl⟩

/-- **A delta stream comes back**, whatever follows it, and a known block count
refuses exactly the streams with a run outside it. -/
theorem decodeDeltaStream_encodeDeltaStream (r : DeltaStreamReport)
    (hops : ∀ op ∈ r.ops, Encodable op) (t : List UInt8) :
    ∃ bytes, encodeDeltaStream r = some bytes ∧
      decodeDeltaStream (bytes ++ t) r.fileChecksum.length none = .ok (r, bytes.length) ∧
      ∀ count,
        (∃ res, decodeDeltaStream (bytes ++ t) r.fileChecksum.length (some count) = .ok res)
          ↔ ∀ op ∈ r.ops, InRange count op := by
  obtain ⟨bytes, state, henc, hdec⟩ := decodeTail_encode r.fileChecksum t r.ops {} hops
  refine ⟨bytes ++ tokenEndFlag :: r.fileChecksum, ?_, ?_, ?_⟩
  · unfold encodeDeltaStream
    rw [henc]
  · exact (hdec none).1 (fun _ _ => rfl)
  · intro count
    simp only [← checkTokenRange_some_iff]
    constructor
    · rintro ⟨res, hres⟩
      by_contra hbad
      push Not at hbad
      obtain ⟨e, he⟩ := (hdec (some count)).2 hbad
      rw [decodeDeltaStream_eq, he] at hres
      cases hres
    · intro hrange
      exact ⟨_, (hdec (some count)).1 hrange⟩

/-- A forward run, a backward one and a literal, before two bytes of the next file. -/
theorem decodeDeltaStream_encodeDeltaStream_backwards :
    ∃ bytes, encodeDeltaStream ⟨[.copyRun 70 3, .literal [9, 8], .copyRun 0 1], [1, 2]⟩
        = some bytes ∧
      decodeDeltaStream (bytes ++ [5, 6]) 2 none
        = .ok (⟨[.copyRun 70 3, .literal [9, 8], .copyRun 0 1], [1, 2]⟩, bytes.length) ∧
      ∀ count, (∃ res, decodeDeltaStream (bytes ++ [5, 6]) 2 (some count) = .ok res)
        ↔ ∀ op ∈ [DeltaOp.copyRun 70 3, .literal [9, 8], .copyRun 0 1], InRange count op :=
  decodeDeltaStream_encodeDeltaStream
    ⟨[.copyRun 70 3, .literal [9, 8], .copyRun 0 1], [1, 2]⟩
    (by simp [Encodable, maxDeltaLiteralLen]) [5, 6]

/-! ### What a copy token says -/

/-- The extra-run field of a copy token, for the two forms that have one. -/
def runExtra? : List UInt8 → Option UInt16
  | [] => none
  | tag :: rest =>
    if tag &&& 0xC0 = tokenrunRel then some (u16FromLeBytes (rest.take 2))
    else if tag = tokenrunLong then some (u16FromLeBytes ((rest.drop 4).take 2))
    else none

/-- How many blocks the sender of the token meant. -/
def encodedBlocks (buf : List UInt8) : Nat := (runExtra? buf).elim 1 (·.toNat + 1)

/-- The copies of `n` consecutive blocks. -/
def copyBlocks (start : Int32) (n : Nat) : List EngineAdapter.EngineDeltaOp :=
  (List.range n).map fun k => .copyBlock (start + Int32.ofNat k).toUInt32

variable {runLength : UInt16}

theorem expandRun_eq {start : Int32}
    {ops : List EngineAdapter.EngineDeltaOp} (h : expandRun start runLength = .ok ops) :
    ops = copyBlocks start runLength.toNat := by
  unfold expandRun at h
  unfold copyBlocks
  generalize range runLength.toNat = ks at h ⊢
  induction ks generalizing ops with
  | nil =>
    cases h
    rfl
  | cons k ks ih =>
    rw [mapM_cons] at h
    by_cases hneg : start + Int32.ofNat k < 0
    · rw [copyBlockAt, if_pos hneg] at h
      cases h
    · rw [copyBlockAt, if_neg hneg] at h
      cases hr : ks.mapM (fun k => copyBlockAt (start + Int32.ofNat k)) with
      | error e =>
        rw [hr] at h
        cases h
      | ok rest =>
        rw [hr] at h
        cases h
        rw [map_cons, ih hr]

/-- The four copy forms, by their extra-run field. -/
theorem copyRun_cases {buf : List UInt8} {state state' : DeltaStreamState} {start : Int32} {n : Nat}
    (h : decodeDeltaOp buf state = .ok ((.op (.copyRun start runLength), n), state')) :
    (runExtra? buf = none ∧ runLength = 1 ∧ state'.lastRunEnd = start) ∨
      ∃ extra, runExtra? buf = some extra ∧ runLength = saturatingSucc extra ∧
        state'.lastRunEnd = start + i32FromU16 extra := by
  rcases record_cases buf with ⟨rest, rfl⟩ | ⟨r, rest, hr, rfl⟩ | hbad | ⟨e, he, hr⟩
  · cases h
  · cases hr with
    | literal htag hlen hpos =>
      rw [decodeDeltaOp_literal_record htag hlen hpos] at h
      cases h
    | @rel tag htag =>
      rw [singleton_append, decodeDeltaOp_rel htag] at h
      cases h
      refine .inl ⟨?_, rfl, rfl⟩
      have hrun : tag &&& 0xC0 ≠ tokenrunRel := by
        rw [htag]
        decide
      have hlong : tag ≠ tokenrunLong := by
        rintro rfl
        exact absurd htag (by decide)
      exact (if_neg hrun).trans (if_neg hlong)
    | @runRel tag body htag hlen =>
      rw [decodeDeltaOp_runRel_record htag hlen] at h
      cases h
      refine .inr ⟨u16FromLeBytes body, ?_, rfl, rfl⟩
      have hextra : (body ++ rest).take 2 = body := by
        rw [← hlen, take_left]
      exact (if_pos htag).trans (congrArg (some ∘ u16FromLeBytes) hextra)
    | long hlen =>
      rw [decodeDeltaOp_long_record hlen] at h
      cases h
      exact .inl ⟨rfl, rfl, rfl⟩
    | @runLong body hlen =>
      rw [decodeDeltaOp_runLong_record hlen] at h
      cases h
      refine .inr ⟨u16FromLeBytes (body.drop 4), ?_, rfl, rfl⟩
      have hextra : ((body ++ rest).drop 4).take 2 = body.drop 4 := by
        rw [drop_append_of_le_length (by omega),
          take_append_of_le_length (by rw [length_drop]; omega)]
        exact take_of_length_le (by rw [length_drop]; omega)
      rw [← hextra]
      rfl
  · obtain ⟨_, _, _, herr⟩ := decodeDeltaOp_malformed hbad state []
    rw [append_nil, h] at herr
    cases herr
  · obtain ⟨_, _, _, herr⟩ := decodeDeltaOp_incomplete he hr state
    rw [h] at herr
    cases herr

/-- **A copy token names the blocks it advances over**, and its expansion has the
blocks the sender meant, exactly when its extra-run field is not the largest one. -/
theorem copyRun_faithful_iff {buf : List UInt8} {state state' : DeltaStreamState}
    {start : Int32} {runLength : UInt16} {n : Nat}
    (h : decodeDeltaOp buf state = .ok ((.op (.copyRun start runLength), n), state')) :
    (state'.lastRunEnd = start + i32FromU16 runLength - 1 ∧
        ∀ ops, expandRun start runLength = .ok ops → ops = copyBlocks start (encodedBlocks buf))
      ↔ runExtra? buf ≠ some 0xFFFF := by
  rcases copyRun_cases h with ⟨hextra, hlen, hend⟩ | ⟨extra, hextra, hlen, hend⟩
  · rw [hextra, hlen]
    refine ⟨fun _ => Option.some_ne_none _ |>.symm, fun _ => ⟨?_, ?_⟩⟩
    · have hone : i32FromU16 1 = 1 := by decide
      grind
    · intro ops hops
      rw [expandRun_eq hops, encodedBlocks, hextra]
      rfl
  · rw [hextra, hend, hlen]
    by_cases hmax : extra = 0xFFFF
    · -- The length saturates, the baseline does not.
      subst hmax
      refine ⟨fun hboth => ?_, fun hne => absurd rfl hne⟩
      have hlast : start + i32FromU16 0xFFFF = start + i32FromU16 0xFFFF - 1 := hboth.1
      grind
    · refine ⟨fun _ heq => hmax (Option.some.inj heq), fun _ => ⟨?_, ?_⟩⟩
      · rw [i32FromU16_succ hmax]
        grind
      · intro ops hops
        rw [expandRun_eq hops, encodedBlocks, hextra, toNat_saturatingSucc hmax]
        rfl

/-- The blocks 4, 5 and 6, named by a relative token. -/
theorem copyRun_faithful_three :
    (6 : Int32) = 4 + i32FromU16 3 - 1 ∧
      ∀ ops, expandRun 4 3 = .ok ops → ops = copyBlocks 4 (encodedBlocks [0xC4, 0x02, 0x00]) :=
  (@copyRun_faithful_iff [0xC4, 0x02, 0x00] {} ⟨6⟩ 4 3 3 rfl).mpr (by decide)

/-- A run of 65536 blocks from block 0 on: the decoder returns 65535 of them, and the
next relative token counts from block 65535. -/
theorem copyRun_saturates :
    decodeDeltaOp [0xC0, 0xFF, 0xFF] {} = .ok ((.op (.copyRun 0 0xFFFF), 3), ⟨65535⟩) ∧
      encodedBlocks [0xC0, 0xFF, 0xFF] = 65536 ∧
      (65535 : Int32) ≠ 0 + i32FromU16 0xFFFF - 1 := by
  decide

end AeroFtp.RealWire
