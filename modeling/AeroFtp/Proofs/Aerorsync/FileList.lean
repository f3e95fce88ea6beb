/-
Retrying a file-list entry.

The driver decodes from a buffer it refills frame by frame.  On three of the decoder's
errors it pulls another frame and starts over; on every other it gives up.  Each field
of an entry is a resumable reader, so the entry is: a frame boundary inside an entry
is always answered by one of the three, and never changes what is decoded.

The exceptions are two lengths the wire has as signed numbers.  When one is negative
the decoder says `InvalidNameLen`, which is one of the three, and no frame helps.
-/
import AeroFtp.Aerorsync.NativeDriver
import Mathlib.Data.FinEnum

namespace AeroFtp.RealWire

open LittleEndian List NativeDriver Reader

/-- The errors that mean "not enough bytes yet". -/
def Soft (e : RealWireError) : Prop := needsMoreBytes e = true

/-- A decoder that can always be resumed. -/
abbrev Resumes {α : Type} (p : Decoder α) : Prop := Resumable Soft Never p

theorem soft_truncated (at_ : String) (needed n : Nat) : Soft (.truncatedBuffer at_ needed n) := rfl

theorem soft_nameLen (declared n : Nat) : Soft (.invalidNameLen declared n) := rfl

variable (options : FileListDecodeOptions) (b : List UInt8) {short : Nat → RealWireError}

theorem resumes_take (soft : ∀ n, Soft (short n)) (n : Nat) : Resumes (take short n) :=
  .take soft n

/-! ### Integers -/

theorem resumes_decodeByte (at_ : String) : Resumes (decodeByte at_) :=
  (resumes_take (soft_truncated _ _) 1).bind_before fun _ => .pure _

theorem resumes_decodeVarint : Resumes decodeVarint := by
  refine (resumes_decodeByte _).bind_before fun ch => ?_
  refine .ite (.pure _) (.ite (.fail fun _ => Bool.false_ne_true) ?_)
  exact (resumes_take (soft_truncated _ _) _).bind_before fun _ => .pure _

theorem resumes_decodeVarlong (minBytes : Nat) : Resumes (decodeVarlong minBytes) := by
  refine .ite (.fail fun _ => Bool.false_ne_true) ?_
  refine (resumes_take (soft_truncated _ _) _).bind_before fun low => ?_
  refine .ite (.fail fun _ => Bool.false_ne_true) ?_
  exact (resumes_take (fun _ => soft_truncated _ _ _) _).bind_before fun _ => .pure _

/-- The value of a varint of more than one byte. -/
def varintValue (ch : UInt8) (payload : List UInt8) : Int :=
  (i32FromLeBytes
    (payload ++ (if extraBytes ch < 4 then [payloadBits ch (extraBytes ch)] else []))).toInt

theorem decodeVarint_cons {b rest : List UInt8} {c : Nat} {ch : UInt8} (h : b.drop c = ch :: rest) :
    decodeVarint b c
      = if extraBytes ch = 0 then .ok ((ch.toNat : Int), c + 1)
        else if extraBytes ch > 4 then .error (.varintOverflow ch)
        else if rest.length < extraBytes ch then
          .error (.truncatedBuffer "varint_payload" (extraBytes ch) rest.length)
        else .ok (varintValue ch (rest.take (extraBytes ch)), c + 1 + extraBytes ch) := by
  have hlen : b.length = c + 1 + rest.length := by
    have hd := congrArg length h
    rw [length_drop, length_cons] at hd
    omega
  have hb : decodeByte "varint_first_byte" b c = .ok (ch, c + 1) := by
    refine (run_bind_ok (run_take (by omega))).trans ?_
    rw [h]
    rfl
  have hr : b.drop (c + 1) = rest := by
    rw [← drop_drop, h]
    rfl
  refine (run_bind_ok hb).trans ?_
  by_cases hz : extraBytes ch = 0
  · rw [if_pos hz, if_pos hz]
    rfl
  · rw [if_neg hz, if_neg hz]
    by_cases ho : extraBytes ch > 4
    · rw [if_pos ho, if_pos ho]
      rfl
    · rw [if_neg ho, if_neg ho]
      by_cases hs : rest.length < extraBytes ch
      · rw [if_pos hs]
        refine (run_bind_error (run_take_short (by omega))).trans ?_
        rw [hlen, Nat.add_sub_cancel_left]
      · rw [if_neg hs]
        refine (run_bind_ok (run_take (by omega))).trans ?_
        rw [hr]
        rfl

/-! ### Text -/

theorem resumes_readUtf8 (soft : ∀ n, Soft (short n)) (len : Nat) :
    Resumes (readUtf8 short len) := by
  refine Resumable.position.bind_before fun offset => ?_
  refine (resumes_take soft len).bind_before fun bytes => ?_
  cases fromUtf8 bytes with
  | ok s => exact .pure _
  | error n => exact .fail fun _ => Bool.false_ne_true

theorem resumes_readUtf8Slice (len : Nat) : Resumes (readUtf8Slice len) :=
  resumes_readUtf8 (soft_nameLen _) len

/-! ### Extended attributes -/

theorem resumes_invalidXattr {α : Type} (field : String) (declared : Int) :
    Resumes (invalidXattr field declared : Decoder α) :=
  .fail fun _ => Bool.false_ne_true

theorem resumes_decodeXattrPair (total : Nat) : Resumes (decodeXattrPair total) := by
  refine resumes_decodeVarint.bind_before fun nameLen => ?_
  refine resumes_decodeVarint.bind_before fun datumLen => ?_
  refine .ite (resumes_invalidXattr _ _) (.ite (resumes_invalidXattr _ _) ?_)
  refine .ite (resumes_invalidXattr _ _) (.ite (resumes_invalidXattr _ _) ?_)
  refine Resumable.position.bind_before fun cursor => ?_
  refine (resumes_take (soft_truncated _ _) _).bind_before fun payload => ?_
  refine .ite (.fail fun _ => Bool.false_ne_true) ?_
  cases fromUtf8 (payload.take (nameLen.toNat - 1)) with
  | ok name => exact .pure _
  | error n => exact .fail fun _ => Bool.false_ne_true

theorem resumes_decodeXattrPairs : ∀ count total, Resumes (decodeXattrPairs count total) := by
  intro count
  induction count with
  | zero =>
    intro total
    exact .pure _
  | succ count ih =>
    intro total
    refine (resumes_decodeXattrPair total).bind_before fun pair => ?_
    exact (ih pair.2).bind_before fun _ => .pure _

theorem resumes_decodeXattrBlob : Resumes decodeXattrBlob := by
  refine resumes_decodeVarint.bind_before fun marker => ?_
  refine .ite (.fail fun _ => Bool.false_ne_true) ?_
  refine resumes_decodeVarint.bind_before fun count => ?_
  refine .ite (resumes_invalidXattr _ _) (.ite (resumes_invalidXattr _ _) ?_)
  exact resumes_decodeXattrPairs _ _

/-! ### ACLs -/

theorem resumes_invalidAcl {α : Type} (field : String) (declared : Int) :
    Resumes (invalidAcl field declared : Decoder α) :=
  .fail fun _ => Bool.false_ne_true

theorem resumes_decodeAclPerm (field : String) : Resumes (decodeAclPerm field) := by
  refine resumes_decodeVarint.bind_before fun raw => ?_
  exact .ite (resumes_invalidAcl _ _) (.pure _)

theorem resumes_decodeAclObj (flags flag : UInt8) (field : String) :
    Resumes (decodeAclObj flags flag field) :=
  .ite ((resumes_decodeAclPerm field).bind_before fun _ => .pure _) (.pure _)

theorem resumes_decodeAclName (xflags : UInt8) : Resumes (decodeAclName xflags) := by
  refine .ite ?_ (.pure _)
  refine (resumes_decodeByte _).bind_before fun nameLen => ?_
  refine .ite (resumes_invalidAcl _ _) ?_
  exact (resumes_readUtf8 (soft_truncated _ _) _).bind_before fun _ => .pure _

theorem resumes_decodeAclNamedEntry : Resumes decodeAclNamedEntry := by
  refine resumes_decodeVarint.bind_before fun id => ?_
  refine resumes_decodeVarint.bind_before fun xbits => ?_
  refine .ite (resumes_invalidAcl _ _) ?_
  exact (resumes_decodeAclName _).bind_before fun _ => .pure _

theorem resumes_decodeAclNames : ∀ count, Resumes (decodeAclNames count) := by
  intro count
  induction count with
  | zero => exact .pure _
  | succ count ih =>
    refine resumes_decodeAclNamedEntry.bind_before fun entry => ?_
    exact ih.bind_before fun _ => .pure _

theorem resumes_decodeAclNameList (flags : UInt8) : Resumes (decodeAclNameList flags) := by
  refine .ite ?_ (.pure _)
  refine resumes_decodeVarint.bind_before fun count => ?_
  refine .ite (resumes_invalidAcl _ _) (.ite (resumes_invalidAcl _ _) ?_)
  exact resumes_decodeAclNames _

theorem resumes_decodeAclWire : Resumes decodeAclWire := by
  refine resumes_decodeVarint.bind_before fun ndx => ?_
  refine .ite (resumes_invalidAcl _ _) (.ite (.pure _) ?_)
  refine (resumes_decodeByte _).bind_before fun flags => ?_
  refine .ite (resumes_invalidAcl _ _) ?_
  refine (resumes_decodeAclObj flags _ _).bind_before fun userObj => ?_
  refine (resumes_decodeAclObj flags _ _).bind_before fun groupObj => ?_
  refine (resumes_decodeAclObj flags _ _).bind_before fun maskObj => ?_
  refine (resumes_decodeAclObj flags _ _).bind_before fun otherObj => ?_
  exact (resumes_decodeAclNameList flags).bind_before fun _ => .pure _

/-! ### The fields of an entry -/

section Fields

variable (options : FileListDecodeOptions) (flags : UInt32)

theorem resumes_decodeFlistFlags (asVarint : Bool) : Resumes (decodeFlistFlags asVarint) := by
  refine .ite (resumes_decodeVarint.bind_before fun _ => .pure _) ?_
  refine (resumes_decodeByte _).bind_before fun lo => ?_
  exact .ite ((resumes_decodeByte _).bind_before fun _ => .pure _) (.pure _)

theorem resumes_decodeSameName : Resumes (decodeSameName options flags) := by
  refine .ite ?_ (.pure _)
  refine (resumes_decodeByte _).bind_before fun l1 => ?_
  refine .ite ?_ (.pure _)
  cases options.previousName with
  | none => exact .fail fun _ => Bool.false_ne_true
  | some prev => exact .ite (.fail fun _ => Bool.false_ne_true) (.pure _)

theorem resumes_decodePathRest (pathBytes : List UInt8) (l2 : Nat) :
    Resumes (decodePathRest pathBytes l2) := by
  refine (resumes_take (soft_nameLen _) l2).bind_before fun rest => ?_
  cases fromUtf8 (pathBytes ++ rest) with
  | ok path => exact .pure _
  | error n => exact .fail fun _ => Bool.false_ne_true

theorem resumes_decodeMtime : Resumes (decodeMtime options flags) := by
  refine .ite (.pure _) (.ite (resumes_decodeVarlong 4) ?_)
  exact (resumes_take (soft_truncated _ _) 4).bind_before fun _ => .pure _

theorem resumes_decodeMtimeNsec : Resumes (decodeMtimeNsec options flags) :=
  .ite (resumes_decodeVarint.bind_before fun _ => .pure _) (.pure _)

theorem resumes_decodeMode : Resumes (decodeMode flags) :=
  .ite (.pure _) ((resumes_take (soft_truncated _ _) 4).bind_before fun _ => .pure _)

theorem resumes_decodeOwner (preserve : Bool) (same nameFollows : UInt32) (nameLenAt : String) :
    Resumes (decodeOwner preserve same nameFollows nameLenAt flags) := by
  refine .ite ?_ (.pure _)
  refine resumes_decodeVarint.bind_before fun raw => ?_
  refine .ite ?_ (.pure _)
  refine (resumes_decodeByte _).bind_before fun nameLen => ?_
  exact (resumes_readUtf8Slice _).bind_before fun _ => .pure _

theorem resumes_decodeStat : Resumes (decodeStat options flags) := by
  refine (resumes_decodeVarlong 3).bind_before fun size => ?_
  refine (resumes_decodeMtime options flags).bind_before fun mtime => ?_
  refine (resumes_decodeMtimeNsec options flags).bind_before fun mtimeNsec => ?_
  refine (resumes_decodeMode flags).bind_before fun mode => ?_
  refine (resumes_decodeOwner flags _ _ _ _).bind_before fun uid => ?_
  exact (resumes_decodeOwner flags _ _ _ _).bind_before fun gid => .pure _

theorem resumes_decodeChecksum (mode : UInt32) : Resumes (decodeChecksum options mode) :=
  .ite (resumes_take (soft_truncated _ _) _) (.pure _)

theorem resumes_decodeAcls (mode : UInt32) : Resumes (decodeAcls options mode) := by
  refine .ite ?_ (.pure _)
  refine resumes_decodeAclWire.onSlice.bind_before fun access => ?_
  exact .ite (resumes_decodeAclWire.onSlice.bind_before fun _ => .pure _) (.pure _)

theorem resumes_decodeXattrs : Resumes (decodeXattrs options) :=
  .ite (resumes_decodeXattrBlob.onSlice.bind_before fun _ => .pure _) (.pure _)

theorem resumes_decodeRest (path : Utf8String) (stat : EntryStat)
    (symlinkTarget : Option Utf8String) :
    Resumes (decodeRest options flags path stat symlinkTarget) := by
  refine (resumes_decodeChecksum options _).bind_before fun checksum => ?_
  refine (resumes_decodeAcls options _).bind_before fun acls => ?_
  exact (resumes_decodeXattrs options).bind_before fun _ => .pure _

theorem resumes_decodeEndOfList : Resumes (decodeEndOfList options flags) :=
  .ite (resumes_decodeVarint.bind_before fun _ => .pure _) (.pure _)

end Fields

/-! ### Signed lengths -/

/-- A complete length that is negative. -/
def NegativeLength (b : List UInt8) (c : Nat) : Prop :=
  ∃ raw c', decodeVarint b c = .ok (raw, c') ∧ raw < 0

theorem payloadBits_lt (ch : UInt8) (h : extraBytes ch ≠ 0) :
    (payloadBits ch (extraBytes ch)).toNat < 128 := by
  revert ch
  decide +kernel

theorem toInt_i32FromLeBytes_nonneg {u : List UInt8} (h : fromLeBytes u < 2147483648) :
    0 ≤ (i32FromLeBytes u).toInt := by
  have hv : (i32FromLeBytes u).toInt = fromLeBytes u := Int32.toInt_ofNat_of_lt h
  omega

theorem varintValue_nonneg {ch : UInt8} {payload : List UInt8} (hne : extraBytes ch ≠ 0)
    (hle : extraBytes ch ≤ 4) (hlen : payload.length = extraBytes ch)
    (hf : extraBytes ch = 4 → fromLeBytes payload < 2147483648) : 0 ≤ varintValue ch payload := by
  refine toInt_i32FromLeBytes_nonneg ?_
  by_cases hlt : extraBytes ch < 4
  · have hpay := fromLeBytes_lt payload
    have hb := payloadBits_lt ch hne
    have hpow : 256 ^ payload.length ≤ 256 ^ 3 := Nat.pow_le_pow_right (by decide) (by omega)
    rw [if_pos hlt, fromLeBytes_append]
    simp only [fromLeBytes]
    generalize (payloadBits ch (extraBytes ch)).toNat = bits at hb ⊢
    calc fromLeBytes payload + 256 ^ payload.length * bits
        < 256 ^ payload.length + 256 ^ payload.length * bits := Nat.add_lt_add_right hpay _
      _ = 256 ^ payload.length * (bits + 1) := by rw [Nat.mul_succ, Nat.add_comm]
      _ ≤ 256 ^ payload.length * 128 := Nat.mul_le_mul_left _ hb
      _ ≤ 256 ^ 3 * 128 := Nat.mul_le_mul_right _ hpow
  · rw [if_neg hlt, append_nil]
    exact hf (by omega)

theorem decodeVarint_completes {b : List UInt8} {c : Nat} (hc : c ≤ b.length)
    (hr : Recovers Soft (decodeVarint b c)) :
    ∃ t raw, decodeVarint (b ++ t) c = .ok (raw, (b ++ t).length) ∧ 0 ≤ raw := by
  obtain ⟨e, he, hsoft⟩ := hr
  cases hd : b.drop c with
  | nil =>
    have hend : b.length ≤ c := drop_eq_nil_iff.mp hd
    have hz : (b ++ [0]).drop c = [(0 : UInt8)] := by
      rw [drop_append_of_le_length hc, hd]
      rfl
    refine ⟨[0], 0, ?_, le_refl _⟩
    rw [decodeVarint_cons hz, length_append, Nat.le_antisymm hc hend]
    rfl
  | cons ch rest =>
    rw [decodeVarint_cons hd] at he
    have hlen : b.length = c + 1 + rest.length := by
      have hlength := congrArg length hd
      rw [length_drop, length_cons] at hlength
      omega
    by_cases hz : extraBytes ch = 0
    · rw [if_pos hz] at he
      cases he
    by_cases ho : extraBytes ch > 4
    · rw [if_neg hz, if_pos ho] at he
      cases he
      cases hsoft
    by_cases hshort : rest.length < extraBytes ch
    · -- Zeros complete it, and leave the sign bit clear.
      have hpay : (rest ++ replicate (extraBytes ch - rest.length) 0).length = extraBytes ch := by
        rw [length_append, length_replicate]
        omega
      have hcons : (b ++ replicate (extraBytes ch - rest.length) 0).drop c
          = ch :: (rest ++ replicate (extraBytes ch - rest.length) 0) := by
        rw [drop_append_of_le_length hc, hd]
        rfl
      refine ⟨replicate (extraBytes ch - rest.length) 0,
        varintValue ch (rest ++ replicate (extraBytes ch - rest.length) 0), ?_, ?_⟩
      · rw [decodeVarint_cons hcons, if_neg hz, if_neg ho, if_neg (by omega),
          take_of_length_le (by omega), length_append, length_replicate]
        congr 2
        omega
      · refine varintValue_nonneg hz (by omega) hpay ?_
        intro hf
        have hlow := fromLeBytes_lt rest
        have hpow : 256 ^ rest.length ≤ 256 ^ 3 := Nat.pow_le_pow_right (by decide) (by omega)
        rw [fromLeBytes_append, fromLeBytes_replicate_zero]
        omega
    · rw [if_neg hz, if_neg ho, if_neg hshort] at he
      cases he

theorem decodeLength_ok {b : List UInt8} {c c' : Nat} {raw : Int}
    (h : decodeVarint b c = .ok (raw, c')) (hraw : 0 ≤ raw) :
    decodeLength b c = .ok (raw.toNat, c') := by
  refine (run_bind_ok h).trans ?_
  rw [if_neg (by omega)]
  rfl

/-- A length gets stuck when it is negative, and only then. -/
theorem resumable_decodeLength : Resumable Soft NegativeLength decodeLength where
  toFramed :=
    resumes_decodeVarint.toFramed.bind fun _ => .ite (.fail _) (Resumable.pure _).toFramed
  completes := by
    intro b c hc hr hneg
    cases hraw : decodeVarint b c with
    | ok rc =>
      obtain ⟨raw, c'⟩ := rc
      have hnonneg : 0 ≤ raw := by
        by_contra hlt
        exact hneg ⟨raw, c', hraw, by omega⟩
      obtain ⟨e, he, _⟩ := hr
      rw [decodeLength_ok hraw hnonneg] at he
      cases he
    | error e =>
      have hrv : Recovers Soft (decodeVarint b c) := by
        obtain ⟨e', he', hsoft⟩ := hr
        rw [show decodeLength b c = .error e from run_bind_error hraw] at he'
        cases he'
        exact ⟨e, hraw, hsoft⟩
      obtain ⟨t, raw, hok, hnonneg⟩ := decodeVarint_completes hc hrv
      exact ⟨t, .inl ⟨raw.toNat, decodeLength_ok hok hnonneg⟩⟩
  stays := by
    intro b c hc hneg t
    obtain ⟨raw, c', hraw, hlt⟩ := hneg
    refine ⟨.invalidNameLen 0 0, ?_, rfl⟩
    refine (run_bind_ok (resumes_decodeVarint.append hc hraw t)).trans ?_
    rw [if_pos hlt]
    rfl
  fresh := by
    intro b hneg
    obtain ⟨raw, c', hraw, _⟩ := hneg
    have hshort : decodeVarint b b.length = .error (.truncatedBuffer "varint_first_byte" 1 0) := by
      refine (run_bind_error (run_bind_error (run_take_short (by omega)))).trans ?_
      rw [Nat.sub_self]
    rw [hshort] at hraw
    cases hraw

/-! ### The entry -/

section Entry

variable (options : FileListDecodeOptions) (flags : UInt32)

/-- A name length that is negative. -/
def NegativeNameLen (b : List UInt8) (c : Nat) : Prop :=
  flags &&& xmitLongName ≠ 0 ∧ NegativeLength b c

/-- The length of a symlink target that is negative. -/
def NegativeTargetLen (mode : UInt32) (b : List UInt8) (c : Nat) : Prop :=
  isSymlinkMode mode ∧ NegativeLength b c

theorem resumable_decodeNameLen : Resumable Soft (NegativeNameLen flags) (decodeNameLen flags) :=
  resumable_decodeLength.ite_left ((resumes_decodeByte _).bind_before fun _ => .pure _)

theorem resumable_decodeSymlinkTarget (mode : UInt32) :
    Resumable Soft (NegativeTargetLen mode) (decodeSymlinkTarget mode) := by
  refine .ite_left ?_ (.pure _)
  refine resumable_decodeLength.bind_before fun len => ?_
  exact (resumes_readUtf8Slice len).bind_before fun _ => .pure _

/-- Where an entry gets stuck, behind its flags. -/
def EntryStuck : List UInt8 → Nat → Prop :=
  After (decodeSameName options flags) fun pathBytes b c =>
    NegativeNameLen flags b c ∨
      After (decodeNameLen flags) (fun l2 =>
        After (decodePathRest pathBytes l2) fun _ =>
          After (decodeStat options flags) fun stat => NegativeTargetLen stat.mode) b c

theorem resumable_decodeEntry :
    Resumable Soft (EntryStuck options flags) (decodeEntry options flags) := by
  refine (resumes_decodeSameName options flags).bind_after fun pathBytes => ?_
  refine (resumable_decodeNameLen flags).bind fun l2 => ?_
  refine (resumes_decodePathRest pathBytes l2).bind_after fun path => ?_
  refine (resumes_decodeStat options flags).bind_after fun stat => ?_
  refine (resumable_decodeSymlinkTarget stat.mode).bind_before fun symlinkTarget => ?_
  exact resumes_decodeRest options flags path stat symlinkTarget

end Entry

/-- The buffer has a complete length that is negative, at a place where the decoder
reads one: the length of a long name, or of a symlink's target. -/
inductive ImpossibleLength (options : FileListDecodeOptions) (b : List UInt8) : Prop
  | name {flags : UInt32} {pathBytes : List UInt8} {c c₁ : Nat}
      (hflags : decodeFlistFlags options.xferFlagsAsVarint b 0 = .ok (flags, c))
      (hentry : ¬ (flags = 0 ∨ classicIOErrorEnd options flags))
      (hsame : decodeSameName options flags b c = .ok (pathBytes, c₁))
      (hneg : NegativeNameLen flags b c₁)
  | target {flags : UInt32} {pathBytes : List UInt8} {l2 : Nat} {path : Utf8String}
      {stat : EntryStat} {c c₁ c₂ c₃ c₄ : Nat}
      (hflags : decodeFlistFlags options.xferFlagsAsVarint b 0 = .ok (flags, c))
      (hentry : ¬ (flags = 0 ∨ classicIOErrorEnd options flags))
      (hsame : decodeSameName options flags b c = .ok (pathBytes, c₁))
      (hlen : decodeNameLen flags b c₁ = .ok (l2, c₂))
      (hpath : decodePathRest pathBytes l2 b c₂ = .ok (path, c₃))
      (hstat : decodeStat options flags b c₃ = .ok (stat, c₄))
      (hneg : NegativeTargetLen stat.mode b c₄)

/-- Where a buffer gets stuck. -/
def ListStuck (options : FileListDecodeOptions) : List UInt8 → Nat → Prop :=
  After (decodeFlistFlags options.xferFlagsAsVarint) fun flags b c =>
    ¬ (flags = 0 ∨ classicIOErrorEnd options flags) ∧ EntryStuck options flags b c

theorem listStuck_iff : ListStuck options b 0 ↔ ImpossibleLength options b := by
  constructor
  · intro ⟨flags, c, hf, he, pathBytes, c₁, hsame, hstuck⟩
    rcases hstuck with hneg | ⟨l2, c₂, hlen, path, c₃, hp, stat, c₄, hstat, hneg⟩
    · exact .name hf he hsame hneg
    · exact .target hf he hsame hlen hp hstat hneg
  · intro h
    cases h with
    | name hf he hsame hneg =>
      exact ⟨_, _, hf, he, _, _, hsame, .inl hneg⟩
    | target hf he hsame hlen hp hstat hneg =>
      exact ⟨_, _, hf, he, _, _, hsame, .inr ⟨_, _, hlen, _, _, hp, _, _, hstat, hneg⟩⟩

/-- **The decoder is resumable**, but for the two signed lengths. -/
theorem resumable_fileListEntry : Resumable Soft (ListStuck options) (fileListEntry options) := by
  refine (resumes_decodeFlistFlags _).bind_after fun flags => ?_
  exact (resumes_decodeEndOfList options flags).ite_right (resumable_decodeEntry options flags)

/-! ### Frame boundaries -/

/-- The run of the decoder is one that `receive_file_list_single_file` retries. -/
abbrev Retried (r : Except RealWireError (FileListDecodeOutcome × Nat)) : Prop :=
  Recovers Soft r

/-- **Frame boundaries neither abort a file list nor change it.**  Every strict prefix
of a decoded entry is retried, and the entry is decoded the same whatever follows. -/
theorem decodeFileListEntry_framed
    (outcome : FileListDecodeOutcome) (n : Nat)
    (h : decodeFileListEntry b options = .ok (outcome, n)) :
    n ≤ b.length ∧
      (∀ k < n, Retried (decodeFileListEntry (b.take k) options)) ∧
      ∀ t, decodeFileListEntry (b.take n ++ t) options = .ok (outcome, n) := by
  have hframed := (resumable_fileListEntry options).toFramed
  refine ⟨(hframed.bounds (Nat.zero_le _) h).2, ?_, ?_⟩
  · intro k hk
    exact hframed.short (Nat.zero_le _) h (Nat.zero_le _) hk
  · intro t
    exact hframed.stable (Nat.zero_le _) h (prefix_append _ _)

/-- A session with ACLs, extended attributes and an 8-byte checksum. -/
def optionsSample : FileListDecodeOptions :=
  { FileListDecodeOptions.frozenOracleDefault with
    csumLen := 8, preserveAcls := true, preserveXattrs := true }

/-- The file `ab`, with a nanosecond, a user name, an ACL of two and one attribute. -/
def entrySample : List UInt8 :=
  [0xA4, 0x00] ++ [2, 97, 98] ++ [0, 5, 0] ++ [0, 1, 0, 0] ++ [7] ++ [0xA4, 0x81, 0, 0]
    ++ [3, 1, 114] ++ [4] ++ [1, 2, 3, 4, 5, 6, 7, 8] ++ [0, 0x11, 6, 1, 9, 22]
    ++ [0, 1, 2, 1, 117, 0, 42]

/-- What the sample says. -/
def outcomeSample : FileListDecodeOutcome :=
  .entry
    { flags := 0x2400, path := ⟨[97, 98], by decide⟩, size := 5, mtime := 1
      mtimeNsec := some 7, mode := 0x81A4, uid := some 3, uidName := some ⟨[114], by decide⟩
      gid := some 4, gidName := none, checksum := [1, 2, 3, 4, 5, 6, 7, 8]
      symlinkTarget := none
      xattrs := some [⟨⟨[117], by decide⟩, .inline [42]⟩]
      acls := some
        { access := .literal
            { userObj := some 6, groupObj := none, maskObj := none, otherObj := none
              names := [⟨9, .user, 5, none⟩] }
          default := none } }

/-- Every cut of the sample, with what follows it in the buffer. -/
theorem decodeFileListEntry_framed_sample :
    42 ≤ (entrySample ++ [0, 0]).length ∧
      (∀ k < 42, Retried (decodeFileListEntry ((entrySample ++ [0, 0]).take k) optionsSample)) ∧
      ∀ t, decodeFileListEntry ((entrySample ++ [0, 0]).take 42 ++ t) optionsSample
        = .ok (outcomeSample, 42) :=
  decodeFileListEntry_framed optionsSample (entrySample ++ [0, 0]) outcomeSample 42 rfl

/-- **When waiting for more bytes can help.**  A retried buffer can be extended to one
that is not retried exactly when it has no impossible length. -/
theorem retried_completable_iff
    (h : Retried (decodeFileListEntry b options)) :
    (∃ e, ¬ Retried (decodeFileListEntry (b ++ e) options)) ↔ ¬ ImpossibleLength options b := by
  rw [← listStuck_iff]
  exact (resumable_fileListEntry options).completes_iff (Nat.zero_le _) h

/-- A name that breaks off after its first byte can be completed. -/
theorem retried_completable_name :
    ∃ e, ¬ Retried (decodeFileListEntry ([1, 3, 97] ++ e) .frozenOracleDefault) := by
  refine (retried_completable_iff .frozenOracleDefault [1, 3, 97]
    ⟨.invalidNameLen 3 1, rfl, rfl⟩).mpr ?_
  intro hbad
  cases hbad with
  | name hflags _ _ hneg =>
    cases hflags
    exact absurd hneg.1 (by decide)
  | target hflags _ hsame hlen hpath _ _ =>
    cases hflags
    cases hsame
    cases hlen
    cases hpath

/-- A long name of length `i32::MIN`, and a symlink with a target of that length: both
are retried, whatever the peer sends next. -/
theorem retried_forever :
    (∀ e, Retried (decodeFileListEntry ([0x40, 0xF0, 0, 0, 0, 0x80] ++ e) .frozenOracleDefault)) ∧
      ∀ e, Retried (decodeFileListEntry
        ([0x80, 0x98, 1, 97, 0, 0, 0, 0xFF, 0xA1, 0, 0, 0xF0, 0, 0, 0, 0x80] ++ e)
        .frozenOracleDefault) := by
  refine ⟨?_, ?_⟩
  · refine (resumable_fileListEntry _).stays (Nat.zero_le _) ((listStuck_iff _ _).mpr ?_)
    exact .name rfl (by decide) rfl ⟨by decide, _, _, rfl, by decide⟩
  · refine (resumable_fileListEntry _).stays (Nat.zero_le _) ((listStuck_iff _ _).mpr ?_)
    exact .target rfl (by decide) rfl rfl rfl rfl ⟨by decide, _, _, rfl, by decide⟩

end AeroFtp.RealWire
