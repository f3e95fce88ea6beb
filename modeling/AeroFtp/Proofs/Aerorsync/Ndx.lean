/-
Streams of file indices are read back, and where their arithmetic overflows.

A body stands for a number: the difference from the baseline, or the number itself.  The
encoder chooses a form of the number it has just put in its baseline, so both sides have the
same baselines after every index, and a stream is read back by induction.

A number in full is not negative, but the baseline of the sentinels may be the largest one,
and the next difference then takes it to the smallest, which has no negation.
-/
import AeroFtp.Lib.Runs
import AeroFtp.Aerorsync.RealWire.Ndx
import Mathlib.Data.FinEnum

namespace AeroFtp.RealWire

open List

/-! ### Numbers put together from bytes -/

theorem toNat_or_shiftLeft {u v i : UInt32} (hi : i.toNat < 32) (hu : u.toNat < 2 ^ i.toNat)
    (hv : v.toNat * 2 ^ i.toNat < 2 ^ 32) :
    (u ||| v <<< i).toNat = u.toNat + v.toNat * 2 ^ i.toNat := by
  rw [UInt32.toNat_or, UInt32.toNat_shiftLeft, Nat.mod_eq_of_lt hi, Nat.shiftLeft_eq,
    Nat.mod_eq_of_lt hv,
    ← Nat.shiftLeft_eq, Nat.or_comm, ← Nat.shiftLeft_add_eq_or_of_lt hu, Nat.add_comm]

theorem toNat_absolute (b2 b3 b4 top : UInt8) (htop : top.toNat < 128) :
    (b2.toUInt32 ||| (b3.toUInt32 <<< 8) ||| (b4.toUInt32 <<< 16) ||| (top.toUInt32 <<< 24)).toNat =
      b2.toNat + b3.toNat * 2 ^ 8 + b4.toNat * 2 ^ 16 + top.toNat * 2 ^ 24 := by
  have h2 := b2.toNat_lt
  have h3 := b3.toNat_lt
  have h4 := b4.toNat_lt
  have e3 : (b2.toUInt32 ||| b3.toUInt32 <<< 8).toNat = b2.toNat + b3.toNat * 2 ^ 8 :=
    toNat_or_shiftLeft (by decide) (by simpa using h2) (by simp; omega)
  have e4 : (b2.toUInt32 ||| b3.toUInt32 <<< 8 ||| b4.toUInt32 <<< 16).toNat =
      b2.toNat + b3.toNat * 2 ^ 8 + b4.toNat * 2 ^ 16 := by
    rw [toNat_or_shiftLeft (by decide) (by rw [e3]; simp; omega) (by simp; omega), e3]
    rfl
  rw [toNat_or_shiftLeft (by decide) (by rw [e4]; simp; omega) (by simp; omega), e4]
  rfl

theorem toNat_difference (hi lo : UInt8) :
    ((hi.toUInt32 <<< 8) ||| lo.toUInt32).toNat = lo.toNat + hi.toNat * 2 ^ 8 := by
  have h1 := hi.toNat_lt
  have h2 := lo.toNat_lt
  rw [UInt32.or_comm, toNat_or_shiftLeft (by decide) (by simpa using h2) (by simp; omega)]
  rfl

theorem toNat_byte (x i : UInt32) (hi : i.toNat < 32) :
    ((x >>> i &&& 0xFF).toUInt8).toNat = x.toNat / 2 ^ i.toNat % 256 := by
  rw [UInt32.toNat_toUInt8, UInt32.toNat_and, UInt32.toNat_shiftRight, Nat.mod_eq_of_lt hi,
    show (0xFF : UInt32).toNat = 2 ^ 8 - 1 from rfl, Nat.and_two_pow_sub_one_eq_mod, Nat.mod_mod,
    Nat.shiftRight_eq_div_pow]

theorem highBit_or :
    ∀ b : UInt8, b.toNat < 128 → (b ||| 0x80) &&& 0x80 ≠ 0 ∧ (b ||| 0x80) &&& 0x7F = b := by
  decide +kernel

theorem highBit_eq_zero : ∀ b : UInt8, b &&& 0x80 = 0 ↔ b.toNat < 128 := by decide +kernel

theorem low_lt : ∀ b : UInt8, (b &&& 0x7F).toNat < 128 := by decide +kernel

theorem toInt_toInt32 {u : UInt32} (h : u.toNat < 2 ^ 31) : u.toInt32.toInt = u.toNat :=
  BitVec.toInt_eq_toNat_of_lt (by show 2 * u.toNat < 2 ^ 32; omega)

theorem toUInt32_of_nonneg {x : Int32} (h : 0 ≤ x) :
    x.toUInt32.toNat < 2 ^ 31 ∧ x.toInt = x.toUInt32.toNat := by
  have hnat := Int32.toNat_toUInt32_of_le h
  have hint := Int32.toInt_lt x
  have hpos : 0 ≤ x.toInt := Int32.le_iff_toInt_le.mp h
  have hc : x.toNatClampNeg = x.toInt.toNat := rfl
  omega

theorem toInt_neg {x : Int32} (h : x ≠ Int32.minValue) : (-x).toInt = -x.toInt := by
  have hne : x.toInt ≠ -2147483648 := fun hx => h (Int32.toInt_inj.mp hx)
  have hlow := Int32.le_toInt x
  have hh := Int32.toInt_lt x
  rw [Int32.toInt_neg, Int.bmod_def]
  split <;> omega

/-! ### One index -/

section Forms
variable {u : UInt32} (t : List UInt8)

theorem ndxForm_byte (h : u.toNat < 254) : ndxForm (u.toUInt8 :: t) = .ok (.difference u 1) := by
  have hbyte : u.toUInt8.toNat = u.toNat := by
    rw [UInt32.toNat_toUInt8]
    omega
  have hback : u.toUInt8.toUInt32 = u := UInt32.toNat_inj.mp (by rw [UInt8.toNat_toUInt32, hbyte])
  have hne : u.toUInt8 ≠ 0xFE := by
    intro heq
    rw [heq] at hbyte
    change 254 = _ at hbyte
    omega
  simp [ndxForm, hne, hback]

theorem ndxForm_three (h : u.toNat < 2 ^ 15) :
    ndxForm (0xFE :: (u >>> 8 &&& 0xFF).toUInt8 :: (u &&& 0xFF).toUInt8 :: t) = .ok
      (.difference u 3) := by
  have hhi := toNat_byte u 8 (by decide)
  have hlo := toNat_byte u 0 (by decide)
  rw [UInt32.shiftRight_zero] at hlo
  change _ = u.toNat / 256 % 256 at hhi
  change _ = u.toNat / 1 % 256 at hlo
  have hbit := (highBit_eq_zero (u >>> 8 &&& 0xFF).toUInt8).mpr (by omega)
  have hback := toNat_difference (u >>> 8 &&& 0xFF).toUInt8 (u &&& 0xFF).toUInt8
  simp only [ndxForm, if_true, hbit, ne_eq, not_true_eq_false, if_false]
  congr 2
  apply UInt32.toNat_inj.mp
  omega

theorem ndxForm_five (h : u.toNat < 2 ^ 31) :
    ndxForm (0xFE :: ((u >>> 24).toUInt8 ||| 0x80) :: (u &&& 0xFF).toUInt8
      :: (u >>> 8 &&& 0xFF).toUInt8 :: (u >>> 16 &&& 0xFF).toUInt8 :: t) = .ok (.absolute u) := by
  have h0 := toNat_byte u 0 (by decide)
  have h1 := toNat_byte u 8 (by decide)
  have h2 := toNat_byte u 16 (by decide)
  have h3 : (u >>> 24).toUInt8.toNat = u.toNat / 2 ^ 24 % 256 := by
    rw [UInt32.toNat_toUInt8, UInt32.toNat_shiftRight, Nat.shiftRight_eq_div_pow]
    rfl
  rw [UInt32.shiftRight_zero] at h0
  change _ = u.toNat / 1 % 256 at h0
  change _ = u.toNat / 256 % 256 at h1
  change _ = u.toNat / 65536 % 256 at h2
  obtain ⟨hbit, hlow⟩ := highBit_or (u >>> 24).toUInt8 (by omega)
  have hback := toNat_absolute (u &&& 0xFF).toUInt8 (u >>> 8 &&& 0xFF).toUInt8
    (u >>> 16 &&& 0xFF).toUInt8 (u >>> 24).toUInt8 (by omega)
  simp only [ndxForm, if_true, hbit, ne_eq, not_false_eq_true, hlow]
  congr 2
  apply UInt32.toNat_inj.mp
  omega

end Forms

theorem oneByte_lt {diff : Int32} (hone : diff > 0 ∧ diff < 0xFE) :
    0 < diff.toUInt32.toNat ∧ diff.toUInt32.toNat < 254 := by
  obtain ⟨-, hnat⟩ := toUInt32_of_nonneg (Int32.le_of_lt hone.1)
  have hpos : 0 < diff.toInt := Int32.lt_iff_toInt_lt.mp hone.1
  have hlt : diff.toInt < 254 := Int32.lt_iff_toInt_lt.mp hone.2
  omega

theorem ndxForm_encodeNdxBody {abs : Int32} (habs : 0 ≤ abs) (baseline : Int32) (t : List UInt8) :
    ∃ form, ndxForm (encodeNdxBody abs (abs - baseline) ++ t) = .ok form ∧
      form.num baseline = (abs, (encodeNdxBody abs (abs - baseline)).length) := by
  have hsum : baseline + (abs - baseline) = abs := by rw [Int32.add_comm, Int32.sub_add_cancel]
  generalize hd : abs - baseline = diff at hsum
  unfold encodeNdxBody
  by_cases hone : diff > 0 ∧ diff < 0xFE
  · rw [if_pos hone]
    exact ⟨_, ndxForm_byte t (oneByte_lt hone).2, by simp [NdxForm.num, hsum]⟩
  rw [if_neg hone]
  by_cases ht : 0 ≤ diff ∧ diff ≤ 0x7FFF
  · obtain ⟨-, hnat⟩ := toUInt32_of_nonneg ht.1
    have hsmall : diff.toInt ≤ 32767 := Int32.le_iff_toInt_le.mp ht.2
    rw [if_neg (not_not.mpr ht)]
    exact ⟨_, ndxForm_three t (by omega), by simp [NdxForm.num, hsum]⟩
  · rw [if_pos ht]
    exact ⟨_, ndxForm_five t (toUInt32_of_nonneg habs).1, by simp [NdxForm.num]⟩

theorem encodeNdxBody_head (abs diff : Int32) :
    ∃ first rest, encodeNdxBody abs diff = first :: rest ∧ first ≠ 0 ∧ first ≠ 0xFF := by
  unfold encodeNdxBody
  by_cases hone : diff > 0 ∧ diff < 0xFE
  · obtain ⟨hpos, hlt⟩ := oneByte_lt hone
    have hb := UInt32.toNat_toUInt8 diff.toUInt32
    rw [if_pos hone]
    refine ⟨_, _, rfl, fun h => ?_, fun h => ?_⟩
    · rw [h] at hb
      change 0 = _ at hb
      omega
    · rw [h] at hb
      change 255 = _ at hb
      omega
  · rw [if_neg hone]
    split
    · exact ⟨_, _, rfl, by decide, by decide⟩
    · exact ⟨_, _, rfl, by decide, by decide⟩

theorem decodeNdxBody_encodeNdxBody {abs : Int32} (habs : 0 ≤ abs) (negate : Bool)
    (state : NdxState) (t : List UInt8) :
    decodeNdxBody (encodeNdxBody abs (abs - state.baseline negate) ++ t) negate state =
      ((finalize state negate abs).1.map
        (·, (encodeNdxBody abs (abs - state.baseline negate)).length),
        (finalize state negate abs).2) := by
  obtain ⟨form, hf, hnum⟩ := ndxForm_encodeNdxBody habs (state.baseline negate) t
  simp only [decodeNdxBody, hf, hnum]

/-- **One index is read back**, and the decoder's baselines are then the encoder's. -/
theorem decodeNdx_encodeNdx {ndx : Int32} (h : ndx ≠ Int32.minValue) (state : NdxState) :
    ∃ bytes state', encodeNdx ndx state = (.ok bytes, state') ∧
      ∀ t, decodeNdx (bytes ++ t) state = (.ok (ndx, bytes.length), state') := by
  unfold encodeNdx
  by_cases hd : ndx = ndxDone
  · subst hd
    exact ⟨_, _, if_pos rfl, fun t => rfl⟩
  rw [if_neg hd]
  by_cases hpos : ndx ≥ 0
  · refine ⟨_, _, if_pos hpos, fun t => ?_⟩
    have hbody := decodeNdxBody_encodeNdxBody hpos false state t
    obtain ⟨first, rest, hbytes, hz, hs⟩ := encodeNdxBody_head ndx (ndx - state.prevPositive)
    simp only [NdxState.baseline, Bool.false_eq_true, if_false] at hbody
    rw [hbytes] at hbody ⊢
    rw [cons_append, decodeNdx, if_neg hz, if_neg hs]
    exact hbody
  · have hneg : ndx.toInt < 0 := Int.not_le.mp fun hle => hpos (Int32.le_iff_toInt_le.mpr hle)
    have habs : (-ndx).toInt = -ndx.toInt := toInt_neg h
    have hback : -ndx ≠ Int32.minValue := by
      intro hmin
      have hmin : (-ndx).toInt = -2147483648 := congrArg Int32.toInt hmin
      omega
    have hbody := decodeNdxBody_encodeNdxBody
      (Int32.le_iff_toInt_le.mpr (by rw [habs]; change 0 ≤ _; omega)) true state
    simp only [NdxState.baseline, if_true, finalize, negI32, if_neg hback] at hbody
    rw [if_neg hpos, negI32, if_neg h]
    refine ⟨_, _, rfl, fun t => ?_⟩
    obtain ⟨first, rest, hbytes, -, -⟩ := encodeNdxBody_head (-ndx) (-ndx - state.prevNegative)
    have hne : encodeNdxBody (-ndx) (-ndx - state.prevNegative) ++ t ≠ [] := by simp [hbytes]
    rw [cons_append, decodeNdx, if_neg hne, hbody t]
    simp [Except.map, Nat.add_comm]

/-! ### Streams -/

/-- The bytes of each index, with the state after it. -/
def encodeNdxs : List Int32 → NdxState → Except NdxFailure (List (List UInt8 × NdxState))
  | [], _ => .ok []
  | ndx :: ndxs, state => do
      let (bytes, state) := encodeNdx ndx state
      let rest ← encodeNdxs ndxs state
      return (← bytes, state) :: rest

/-- The next indices, with the state after each, and the bytes that are left. -/
def decodeNdxs :
    Nat → List UInt8 → NdxState → Except NdxFailure (List (Int32 × NdxState) × List UInt8)
  | 0, buf, _ => .ok ([], buf)
  | count + 1, buf, state => do
      let (result, state) := decodeNdx buf state
      let (ndx, consumed) ← result
      let (ndxs, left) ← decodeNdxs count (buf.drop consumed) state
      return ((ndx, state) :: ndxs, left)

theorem decodeNdxs_encodeNdxs (t : List UInt8) : ∀ (ndxs : List Int32) (state : NdxState),
    (∀ ndx ∈ ndxs, ndx ≠ Int32.minValue) →
    ∃ parts, encodeNdxs ndxs state = .ok parts ∧ parts.length = ndxs.length ∧
      decodeNdxs ndxs.length (parts.flatMap Prod.fst ++ t) state = .ok
        (ndxs.zip (parts.map Prod.snd), t) := by
  intro ndxs
  induction ndxs with
  | nil => exact fun state _ => ⟨[], rfl, rfl, rfl⟩
  | cons ndx ndxs ih =>
    intro state h
    obtain ⟨hndx, hndxs⟩ := forall_mem_cons.mp h
    obtain ⟨bytes, state', hw, hread⟩ := decodeNdx_encodeNdx hndx state
    obtain ⟨parts, hp, hlen, hrest⟩ := ih state' hndxs
    refine ⟨(bytes, state') :: parts, ?_, by simp [hlen], ?_⟩
    · simp [encodeNdxs, hw, hp, bind, Except.bind, pure, Except.pure]
    · rw [flatMap_cons, append_assoc, length_cons, decodeNdxs, hread]
      simp [hrest, bind, Except.bind, pure, Except.pure]

/-- **A stream of indices is read back**, to its last byte, with equal states after each. -/
theorem ndxs_roundTrip (ndxs : List Int32) (h : ∀ ndx ∈ ndxs, ndx ≠ Int32.minValue) :
    ∃ parts, encodeNdxs ndxs .new = .ok parts ∧ parts.length = ndxs.length ∧
      decodeNdxs ndxs.length (parts.flatMap Prod.fst) .new = .ok
        (ndxs.zip (parts.map Prod.snd), []) := by
  obtain ⟨parts, hparts, hlen, hread⟩ := decodeNdxs_encodeNdxs [] ndxs .new h
  rw [append_nil] at hread
  exact ⟨parts, hparts, hlen, hread⟩

/-- An index, the end of a phase, two sentinels and a jump. -/
def jump : List Int32 := [0, -1, -2, -101, 70000]

theorem ndxs_roundTrip_jump :
    ∃ parts, encodeNdxs jump .new = .ok parts ∧ parts.length = jump.length ∧
      decodeNdxs jump.length (parts.flatMap Prod.fst) .new = .ok
        (jump.zip (parts.map Prod.snd), []) :=
  ndxs_roundTrip jump (by simp [jump]; decide)

/-! ### Overflow -/

variable {form : NdxForm}

theorem ndxForm_bound {buf : List UInt8} (h : ndxForm buf = .ok form) :
    (∀ abs, form = .absolute abs → abs.toNat < 2 ^ 31) ∧
      ∀ diff consumed, form = .difference diff consumed → diff.toNat < 2 ^ 15 := by
  cases buf with
  | nil => cases h
  | cons first rest =>
    simp only [ndxForm] at h
    split at h
    · split at h
      next second b2 more =>
        split at h
        · split at h
          next b3 b4 tail =>
            cases h
            refine ⟨?_, by simp⟩
            rintro abs ⟨⟩
            have := toNat_absolute b2 b3 b4 _ (low_lt second)
            have := b2.toNat_lt
            have := b3.toNat_lt
            have := b4.toNat_lt
            have := low_lt second
            omega
          next => cases h
        next hbit =>
          cases h
          refine ⟨by simp, ?_⟩
          rintro diff consumed ⟨⟩
          have := toNat_difference second b2
          have := (highBit_eq_zero second).mp (not_not.mp hbit)
          have := b2.toNat_lt
          omega
      next => cases h
    · cases h
      refine ⟨by simp, ?_⟩
      rintro diff consumed ⟨⟩
      have := first.toNat_lt
      rw [UInt8.toNat_toUInt32]
      omega

theorem add_eq_minValue {b : Int32} {d : UInt32} (hb : b ≠ Int32.minValue) (hd : d.toNat < 2 ^ 15) :
    b + d.toInt32 = Int32.minValue ↔ b.toInt + d.toNat = 2 ^ 31 := by
  have hb : b.toInt ≠ -2147483648 := fun h => hb (Int32.toInt_inj.mp h)
  have hlow := Int32.le_toInt b
  have hh := Int32.toInt_lt b
  have hmin : Int32.minValue.toInt = -2147483648 := rfl
  rw [← Int32.toInt_inj, Int32.toInt_add, toInt_toInt32 (by omega), Int.bmod_def]
  split <;> omega

/-- The bytes are a sentinel, and its difference takes the baseline one past the largest number. -/
def PassesMax (buf : List UInt8) (state : NdxState) : Prop :=
  ∃ body diff consumed, buf = 0xFF :: body ∧ ndxForm body = .ok (.difference diff consumed) ∧
    state.prevNegative.toInt + diff.toNat = 2 ^ 31

/-- A call that returns a value, or nothing. -/
def ndxStep (state : NdxState) (buf : List UInt8) : Option NdxState :=
  match decodeNdx buf state with
  | (.ok _, state) => some state
  | (.error _, _) => none

variable (buf : List UInt8)

theorem ndxForm_ne_overflow : ndxForm buf ≠ .error .overflow := by
  intro h
  unfold ndxForm at h
  split at h
  · cases h
  · split at h
    · split at h
      · split at h
        · split at h <;> cases h
        · cases h
      · cases h
    · cases h

theorem decodeNdxBody_eq {buf : List UInt8} (h : ndxForm buf = .ok form) (negate : Bool)
    (state : NdxState) : decodeNdxBody buf negate state =
      ((finalize state negate (form.num (state.baseline negate)).1).1.map
        (·, (form.num (state.baseline negate)).2),
        (finalize state negate (form.num (state.baseline negate)).1).2) := by
  simp only [decodeNdxBody, h]

/-- The only overflow is that of the smallest number, as a sentinel. -/
theorem decodeNdxBody_safe (negate : Bool) (state : NdxState) :
    ((decodeNdxBody buf negate state).1 = .error .overflow ↔
      negate = true ∧ ∃ form, ndxForm buf = .ok form ∧ (form.num state.prevNegative).1
        = Int32.minValue) ∧
    (∀ e, (decodeNdxBody buf negate state).1 = .error (.error e) →
      (decodeNdxBody buf negate state).2 = state) ∧
    ∀ value, (decodeNdxBody buf negate state).1 = .ok value → state.prevNegative ≠ Int32.minValue →
      (decodeNdxBody buf negate state).2.prevNegative ≠ Int32.minValue := by
  cases hform : ndxForm buf with
  | error e =>
    have hfail : decodeNdxBody buf negate state
        = (.error e, state) := by simp only [decodeNdxBody, hform]
    have hne : e ≠ .overflow := fun h => ndxForm_ne_overflow buf (h ▸ hform)
    simp [hfail, hne]
  | ok form =>
    rw [decodeNdxBody_eq hform]
    cases negate with
    | false => simp [finalize, Except.map]
    | true =>
      by_cases hmin : (form.num state.prevNegative).1 = Int32.minValue
      · simp [finalize, NdxState.baseline, negI32, hmin, Except.map]
      · simp [finalize, NdxState.baseline, negI32, hmin, Except.map]

theorem decodeNdx_cases (state : NdxState) :
    ((decodeNdx buf state).2 = state ∧ (decodeNdx buf state).1 ≠ .error .overflow ∧
      ∀ body, buf = 0xFF :: body → body = []) ∨ ∃ body negate f, decodeNdx buf state =
      ((decodeNdxBody body negate state).1.map f, (decodeNdxBody body negate state).2) ∧
      ∀ body', (buf = 0xFF :: body' ↔ negate = true ∧ body' = body) := by
  cases buf with
  | nil => exact .inl ⟨rfl, by simp [decodeNdx, ndxTruncated], by simp⟩
  | cons first rest =>
    rw [decodeNdx]
    by_cases hd : first = 0
    · rw [hd]
      exact .inl ⟨rfl, by simp, by simp⟩
    rw [if_neg hd]
    by_cases hs : first = 0xFF
    · rw [hs]
      by_cases hnil : rest = []
      · rw [hnil]
        exact .inl ⟨rfl, by simp [ndxTruncated], by simp⟩
      · rw [if_neg hnil]
        exact .inr ⟨rest, true, _, rfl, fun body' => by simp [eq_comm]⟩
    · rw [if_neg hs]
      refine .inr ⟨first :: rest, false, id, ?_, fun body' => by simp [hs]⟩
      generalize decodeNdxBody (first :: rest) false state = result
      obtain ⟨_ | _, _⟩ := result <;> rfl

theorem map_eq_error {α β ε : Type} {f : α → β} {x : Except ε α} {e : ε} :
    x.map f = .error e ↔ x = .error e := by
  cases x <;> simp [Except.map]

theorem ndxStep_prevNegative {s t : NdxState} {buf : List UInt8} (h : ndxStep s buf = some t)
    (hs : s.prevNegative ≠ Int32.minValue) : t.prevNegative ≠ Int32.minValue := by
  unfold ndxStep at h
  split at h
  next value s' hc =>
    cases h
    rcases decodeNdx_cases buf s with ⟨hsame, -⟩ | ⟨body, negate, f, heq, -⟩
    · rw [hc] at hsame
      rwa [show t = s from hsame]
    · rw [hc, Prod.mk.injEq] at heq
      cases hb : (decodeNdxBody body negate s).1 with
      | error e =>
        rw [hb] at heq
        cases heq.1
      | ok raw =>
        rw [heq.2]
        exact (decodeNdxBody_safe body negate s).2.2 raw hb hs
  next => cases h

/-- **Where the arithmetic of a decoder overflows**: in a state that calls on any bytes have led
to, a call overflows exactly if a sentinel's difference takes its baseline one past the largest
number, and a call that returns an error leaves the state as it was. -/
theorem decodeNdx_safe_iff (bufs : List (List UInt8)) (state : NdxState)
    (hrun : Runs.run ndxStep .new bufs = some state) (buf : List UInt8) :
    ((decodeNdx buf state).1 ≠ .error .overflow ∧
      ∀ e, (decodeNdx buf state).1 = .error (.error e) → (decodeNdx buf state).2 = state) ↔
    ¬ PassesMax buf state := by
  have hneg : state.prevNegative ≠ Int32.minValue :=
    Runs.run_invariant (P := fun s => s.prevNegative ≠ Int32.minValue)
      (fun _ _ _ => ndxStep_prevNegative) hrun (by decide)
  rcases decodeNdx_cases buf state with ⟨hsame, hno, hbuf⟩ | ⟨body, negate, f, heq, hbuf⟩
  · refine iff_of_true ⟨hno, fun _ _ => hsame⟩ ?_
    rintro ⟨body, diff, consumed, hff, hform, -⟩
    rw [hbuf body hff] at hform
    cases hform
  · obtain ⟨hover, hkept, -⟩ := decodeNdxBody_safe body negate state
    have hpasses :
        (∃ form, ndxForm body = .ok form ∧ (form.num state.prevNegative).1 = Int32.minValue) ↔
        ∃ diff consumed, ndxForm body = .ok (.difference diff consumed) ∧
          state.prevNegative.toInt + diff.toNat = 2 ^ 31 := by
      constructor
      · rintro ⟨form, hform, hmin⟩
        cases form with
        | absolute abs =>
          have habs := toInt_toInt32 ((ndxForm_bound hform).1 abs rfl)
          rw [show abs.toInt32 = Int32.minValue from hmin] at habs
          change (-2147483648 : Int) = _ at habs
          omega
        | difference diff consumed =>
          have hlt := (ndxForm_bound hform).2 diff consumed rfl
          exact ⟨diff, consumed, hform, (add_eq_minValue hneg hlt).mp hmin⟩
      · rintro ⟨diff, consumed, hform, hsum⟩
        exact ⟨_, hform,
          (add_eq_minValue hneg ((ndxForm_bound hform).2 diff consumed rfl)).mpr hsum⟩
    rw [heq, ne_eq, map_eq_error, hover, hpasses, and_iff_left]
    · rw [not_iff_not]
      constructor
      · rintro ⟨hnegate, diff, consumed, hform, hsum⟩
        exact ⟨body, diff, consumed, (hbuf body).mpr ⟨hnegate, rfl⟩, hform, hsum⟩
      · rintro ⟨body', diff, consumed, hff, hform, hsum⟩
        obtain ⟨hnegate, rfl⟩ := (hbuf body').mp hff
        exact ⟨hnegate, diff, consumed, hform, hsum⟩
    · intro e he
      exact hkept e (map_eq_error.mp he)

/-- The largest number as a sentinel, and then the next one. -/
theorem decodeNdx_overflows : ∃ state : NdxState,
    Runs.run ndxStep .new [[0xFF, 0xFE, 0xFF, 0xFF, 0xFF, 0xFF]] = some state ∧
    (decodeNdx [0xFF, 1] state).1 = .error .overflow :=
  ⟨⟨-1, 0x7FFFFFFF⟩, by decide, by decide⟩

/-- Two sentinels in a row, and what comes in pieces after them. -/
theorem decodeNdx_safe_iff_pieces :
    (decodeNdx [0xFF, 0xFE, 1] ⟨-1, 5⟩).1 ≠ .error .overflow ∧
      ∀ e, (decodeNdx [0xFF, 0xFE, 1] ⟨-1, 5⟩).1 = .error (.error e) →
        (decodeNdx [0xFF, 0xFE, 1] ⟨-1, 5⟩).2 = ⟨-1, 5⟩ := by
  refine (decodeNdx_safe_iff [[0xFF, 1], [0xFF, 3]] ⟨-1, 5⟩ (by decide) _).mpr ?_
  rintro ⟨body, diff, consumed, hff, hform, -⟩
  cases hff
  cases hform

end AeroFtp.RealWire
