/-
Round trips of the wire's integers.

The encoder drops the zero bytes at the top of a number and announces how many are left
in the top bits of the first byte, together with the top byte itself if there is room.
What the decoder rebuilds stands for the same number in every case; the zeros it does not
see do not count.
-/
import AeroFtp.Lib.Codec
import AeroFtp.Aerorsync.RealWire.Primitives
import Mathlib.Data.FinEnum
import Mathlib.Data.List.GetD

namespace AeroFtp.RealWire

open LittleEndian Reader List

/-! ### The first byte -/

/-- The byte that decides how many of the number's bytes fit. -/
def roomBit (floor cnt : Nat) : UInt8 := 1 <<< (7 - UInt8.ofNat cnt + UInt8.ofNat floor)

theorem roomBit_add {floor k : Nat} (hf : floor < 9) (hk : k < 7) :
    roomBit floor (floor + k) = roomBit 0 k := by
  have hall : ∀ floor < 9, ∀ k < 7, roomBit floor (floor + k) = roomBit 0 k := by decide +kernel
  exact hall floor hf k hk

theorem marker_full : ∀ k < 6, extraBytes (~~~ (roomBit 0 k - 1)) = k + 1 ∧
    payloadBits (~~~ (roomBit 0 k - 1)) (k + 1) = 0 := by
  decide +kernel

theorem marker_room : ∀ k < 6, ∀ top : UInt8, top < roomBit 0 (k + 1) →
    extraBytes (top ||| ~~~ (roomBit 0 (k + 1) * 2 - 1)) = k + 1 ∧
      payloadBits (top ||| ~~~ (roomBit 0 (k + 1) * 2 - 1)) (k + 1) = top := by
  decide +kernel

theorem marker_none : ∀ top : UInt8, top < roomBit 0 0 → extraBytes top = 0 := by
  decide +kernel

/-! ### The bytes of the number -/

theorem trimmedLen_spec (le : List UInt8) (floor : Nat) : ∀ cnt, floor ≤ cnt →
    floor ≤ trimmedLen le floor cnt ∧ trimmedLen le floor cnt ≤ cnt ∧
      ∀ i, trimmedLen le floor cnt ≤ i → i < cnt → le.getD i 0 = 0 := by
  intro cnt
  induction cnt with
  | zero => exact fun h => ⟨h, Nat.le_refl 0, fun i _ hi => absurd hi (Nat.not_lt_zero i)⟩
  | succ cnt ih =>
    intro hf
    rw [trimmedLen]
    split
    next hzero =>
      obtain ⟨hle, hup, hz⟩ := ih (by omega)
      refine ⟨hle, by omega, fun i hi hlt => ?_⟩
      by_cases hic : i = cnt
      · rw [hic]
        exact hzero.2
      · exact hz i hi (by omega)
    next => exact ⟨hf, Nat.le_refl _, fun i hi hlt => by omega⟩

theorem fromLeBytes_take_of_zeros (le : List UInt8) (cnt : Nat)
    (h : ∀ i, cnt ≤ i → i < le.length → le.getD i 0 = 0) :
    fromLeBytes (le.take cnt) = fromLeBytes le := by
  have hz : le.drop cnt = replicate (le.length - cnt) 0 := by
    rw [eq_replicate_iff]
    refine ⟨length_drop, fun b hb => ?_⟩
    obtain ⟨i, hi, rfl⟩ := getElem_of_mem hb
    rw [length_drop] at hi
    have := h (cnt + i) (by omega) (by omega)
    rw [getD_eq_getElem _ _ (by omega)] at this
    rw [getElem_drop]
    exact this
  conv_rhs => rw [← take_append_drop cnt le, fromLeBytes_append, hz]
  simp

/-- The byte the decoder puts on top of those that follow the first. -/
def topByte (first : UInt8) : UInt8 :=
  if extraBytes first > 0 then payloadBits first (extraBytes first) else first

theorem encodeVarnum_eq {le : List UInt8} {floor cnt : Nat} {top : UInt8}
    (hcnt : trimmedLen le floor le.length = cnt) (htop : le.getD (cnt - 1) 0 = top) :
    encodeVarnum le floor =
      if top ≥ roomBit floor cnt then ~~~ (roomBit floor cnt - 1) :: le.take cnt
      else if cnt > floor then (top ||| ~~~ (roomBit floor cnt * 2 - 1)) :: le.take (cnt - 1)
      else top :: le.take (cnt - 1) := by
  subst hcnt htop
  rfl

/-- **What an encoded number consists of**: a first byte, as many others as it announces,
and together they stand for the number. -/
theorem encodeVarnum_spec (le : List UInt8) (floor : Nat) (hpos : 1 ≤ floor) (hf : floor < 9)
    (hle : floor ≤ le.length) (hlen : le.length ≤ floor + 5) :
    ∃ first body, encodeVarnum le floor = first :: body ∧
      body.length + 1 = floor + extraBytes first ∧ extraBytes first ≤ le.length + 1 - floor ∧
      fromLeBytes (body ++ [topByte first]) = fromLeBytes le ∧
      (extraBytes first = le.length + 1 - floor → topByte first = 0) := by
  obtain ⟨hlow, hh, hzeros⟩ := trimmedLen_spec le floor le.length hle
  generalize hcnt : trimmedLen le floor le.length = cnt at hlow hh hzeros
  have hv := fromLeBytes_take_of_zeros le cnt hzeros
  obtain ⟨k, rfl⟩ : ∃ k, cnt = floor + k := ⟨cnt - floor, by omega⟩
  -- The top byte, and the bytes below it.
  have htake : le.take (floor + k - 1) ++ [le.getD (floor + k - 1) 0] = le.take (floor + k) := by
    rw [getD_eq_getElem _ _ (by omega), take_append_getElem, Nat.sub_add_cancel (by omega)]
  have hlower : (le.take (floor + k - 1)).length = floor + k - 1 :=
    length_take_of_le (by omega)
  generalize htop : le.getD (floor + k - 1) 0 = top at htake
  rw [encodeVarnum_eq hcnt htop, roomBit_add hf (by omega)]
  by_cases hr : top ≥ roomBit 0 k
  · obtain ⟨he, hb⟩ := marker_full k (by omega)
    have hzero : topByte (~~~ (roomBit 0 k - 1)) = 0 := by
      rw [topByte, he, if_pos (Nat.succ_pos k), hb]
    rw [if_pos hr]
    refine ⟨_, _, rfl, ?_, ?_, ?_, fun _ => hzero⟩
    · rw [he, length_take_of_le hh, Nat.add_assoc]
    · omega
    · rw [hzero, fromLeBytes_append, hv]
      simp [fromLeBytes]
  · have hlt : top < roomBit 0 k := UInt8.not_le.mp hr
    rw [if_neg hr]
    cases k with
    | zero =>
      have he := marker_none top hlt
      have hk : topByte top = top := by rw [topByte, he, if_neg (Nat.lt_irrefl 0)]
      rw [if_neg (by omega)]
      refine ⟨_, _, rfl, ?_, ?_, ?_, ?_⟩
      · omega
      · omega
      · rw [hk, htake, hv]
      · omega
    | succ k =>
      obtain ⟨he, hb⟩ := marker_room k (by omega) top hlt
      have hk : topByte (top ||| ~~~ (roomBit 0 (k + 1) * 2 - 1)) = top := by
        rw [topByte, he, if_pos (Nat.succ_pos k), hb]
      rw [if_pos (by omega)]
      refine ⟨_, _, rfl, ?_, ?_, ?_, ?_⟩
      · omega
      · omega
      · rw [hk, htake, hv]
      · omega

/-! ### Round trips -/

theorem reads_decodeByte (at_ : String) (byte : UInt8) : Reads (decodeByte at_) [byte] byte :=
  (Reads.take rfl).bind_last (Reads.pure byte)

theorem reads_decodeVarint (x : Int32) : Reads decodeVarint (encodeVarint x) x.toInt := by
  have hle : (i32ToLeBytes x).length = 4 := length_toLeBytes ..
  have hv : fromLeBytes (i32ToLeBytes x) = x.toUInt32.toNat :=
    fromLeBytes_toLeBytes_of_lt x.toUInt32.toNat_lt
  have hback : ∀ u : List UInt8, fromLeBytes u = x.toUInt32.toNat → i32FromLeBytes u = x := by
    intro u hu
    rw [i32FromLeBytes, u32FromLeBytes, hu, UInt32.ofNat_toNat, Int32.toInt32_toUInt32]
  obtain ⟨first, body, henc, hbody, hextra, hsum, hfull⟩ :=
    encodeVarnum_spec (i32ToLeBytes x) 1 (by decide) (by decide) (by omega) (by omega)
  rw [hv] at hsum
  rw [encodeVarint, henc]
  refine (reads_decodeByte _ first).bind ?_
  by_cases hz : extraBytes first = 0
  · have hnil : body = [] := length_eq_zero_iff.mp (by omega)
    have hnat : first.toNat = x.toUInt32.toNat := by
      rw [← hsum, hnil, topByte, hz]
      simp [fromLeBytes]
    have hx : x.toInt = first.toNat := by
      rw [← hback [first] (by simpa [fromLeBytes] using hnat)]
      have hlt := first.toNat_lt
      exact Int32.toInt_ofNat_of_lt (by simp [fromLeBytes]; omega)
    rw [hnil, hx]
    exact .ite_pos hz (.pure _)
  · refine .ite_neg hz (.ite_neg (by omega) ?_)
    refine (Reads.take (by omega)).bind_last (Reads.pure_of_eq (congrArg Int32.toInt (hback _ ?_)))
    rw [topByte, if_pos (Nat.pos_of_ne_zero hz)] at hsum hfull
    by_cases hfour : extraBytes first < 4
    · rw [if_pos hfour, hsum]
    · rw [hfull (by omega), fromLeBytes_append] at hsum
      rw [if_neg hfour, ← hsum]
      simp [fromLeBytes]

theorem reads_decodeVarlong (x : Int64) (minBytes : Nat) (hlow : 3 ≤ minBytes)
    (hh : minBytes ≤ 8) : Reads (decodeVarlong minBytes) (encodeVarlong x minBytes) x.toInt := by
  have hle : (toLeBytes 8 x.toUInt64.toNat).length = 8 := length_toLeBytes ..
  have hv : fromLeBytes (toLeBytes 8 x.toUInt64.toNat) = x.toUInt64.toNat :=
    fromLeBytes_toLeBytes_of_lt x.toUInt64.toNat_lt
  have hback : ∀ u : List UInt8, fromLeBytes u = x.toUInt64.toNat → i64FromLeBytes u = x := by
    intro u hu
    rw [i64FromLeBytes, hu, UInt64.ofNat_toNat, Int64.toInt64_toUInt64]
  obtain ⟨first, body, henc, hbody, hextra, hsum, hf⟩ :=
    encodeVarnum_spec (toLeBytes 8 x.toUInt64.toNat) minBytes (by omega) (by omega) (by omega)
      (by omega)
  rw [hv] at hsum
  rw [encodeVarlong, henc]
  refine .ite_neg (by omega) ?_
  -- The bytes up to the floor, and those the first byte announces.
  have hsplit : first :: body = (first :: body.take (minBytes - 1)) ++ body.drop
      (minBytes - 1) := by
    rw [cons_append, take_append_drop]
  rw [hsplit]
  refine (Reads.take ?_).bind ?_
  · rw [length_cons, length_take_of_le (by omega)]
    omega
  refine .ite_neg (by simp only [headD_cons]; omega) ?_
  refine (Reads.take ?_).bind_last (Reads.pure_of_eq (congrArg Int64.toInt (hback _ ?_)))
  · rw [length_drop, headD_cons]
    omega
  · simp only [headD_cons, drop_one, tail_cons, take_append_drop]
    show fromLeBytes ((body ++ [topByte first]).take 8) = x.toUInt64.toNat
    by_cases hn : extraBytes first = 9 - minBytes
    · rw [hf hn, fromLeBytes_append] at hsum
      rw [take_append_of_le_length (by omega), take_of_length_le (by omega), ← hsum]
      simp [fromLeBytes]
    · rw [take_of_length_le (by rw [length_append, length_singleton]; omega), hsum]

/-- **Varints and varlongs are read back**, whatever follows them, for every floor from 3 on. -/
theorem varnums_roundTrip :
    (∀ (x : Int32) (t : List UInt8),
      decodeVarint (encodeVarint x ++ t) 0 = .ok (x.toInt, (encodeVarint x).length)) ∧
    ∀ (x : Int64) (minBytes : Nat) (t : List UInt8), 3 ≤ minBytes → minBytes ≤ 8 →
      decodeVarlong minBytes (encodeVarlong x minBytes ++ t) 0 =
        .ok (x.toInt, (encodeVarlong x minBytes).length) := by
  refine ⟨fun x t => ?_, fun x minBytes t hlow hhigh => ?_⟩
  · simpa using reads_decodeVarint x [] t
  · simpa using reads_decodeVarlong x minBytes hlow hhigh [] t

/-- A negative number needs nine bytes at any floor. -/
theorem varnums_roundTrip_negative :
    decodeVarlong 8 (encodeVarlong (-2) 8 ++ [7]) 0 = .ok (-2, 9) :=
  varnums_roundTrip.2 (-2) 8 [7] (by decide) (by decide)

/-! ### Where overflow is checked -/

/-- The byte at the top of a number, and whether it is trimmed. -/
theorem trimmedLen_le_seven {n floor : Nat} (hf : floor ≤ 7) :
    trimmedLen (toLeBytes 8 n) floor 8 ≤ 7 ↔ n / 256 ^ 7 % 256 = 0 := by
  have htop : (toLeBytes 8 n).getD 7 0 = UInt8.ofNat
      (n / 256 ^ 7) := by simp [toLeBytes, Nat.div_div_eq_div_mul]
  have hzero : UInt8.ofNat (n / 256 ^ 7) = 0 ↔ n / 256 ^ 7 % 256 = 0 := by
    rw [← UInt8.toNat_inj]
    rfl
  rw [trimmedLen, htop, ← hzero]
  split
  next h => exact iff_of_true (trimmedLen_spec _ floor 7 hf).2.1 h.2
  next h => exact iff_of_false (by omega) fun hz => h ⟨by omega, hz⟩

/-- **The encoder is free of underflow** on the numbers below `2 ^ 56` and on no others: eight
bytes leave `7 - 8`.  A time before 1970 is negative and has eight. -/
theorem encodeVarlongInRange_iff (x : Int64) (minBytes : Nat) (hmin : minBytes = 3 ∨ minBytes = 4) :
    encodeVarlongInRange x minBytes = true ↔ 0 ≤ x.toInt ∧ x.toInt < 2 ^ 56 := by
  have hrange : x.toUInt64.toNat / 256 ^ 7 % 256 = 0 ↔ 0 ≤ x.toInt ∧ x.toInt < 2 ^ 56 := by
    have hint : x.toInt = Int.bmod x.toUInt64.toNat (2 ^ 64) := BitVec.toInt_eq_toNat_bmod _
    rw [hint, Int.bmod_def]
    omega
  have hbit : ∀ floor < 5, ∀ cnt < 8, floor ≤ cnt → 1 ≤ roomBit floor cnt := by decide
  have hlow := (trimmedLen_spec (toLeBytes 8 x.toUInt64.toNat) minBytes 8 (by omega)).1
  rw [← hrange, ← trimmedLen_le_seven (show minBytes ≤ 7 by omega)]
  simp only [encodeVarlongInRange, Bool.and_eq_true, Bool.or_eq_true, decide_eq_true_eq]
  generalize trimmedLen (toLeBytes 8 x.toUInt64.toNat) minBytes 8 = cnt at hlow
  constructor
  · exact fun h => h.1.1.1
  · intro hcnt
    exact ⟨⟨⟨hcnt, by omega⟩, by omega⟩, .inr (hbit minBytes (by omega) cnt (by omega) hlow)⟩

/-- A size of nothing, and the first time that is not negative. -/
theorem encodeVarlongInRange_iff_zero :
    encodeVarlongInRange 0 3 = true ∧ encodeVarlongInRange 0 4 = true :=
  ⟨(encodeVarlongInRange_iff 0 3 (.inl rfl)).mpr (by decide),
    (encodeVarlongInRange_iff 0 4 (.inr rfl)).mpr (by decide)⟩

/-- The last second of 1969 panics. -/
theorem encodeVarlong_underflows : encodeVarlongInRange (-1) 4 = false := by
  decide

end AeroFtp.RealWire
