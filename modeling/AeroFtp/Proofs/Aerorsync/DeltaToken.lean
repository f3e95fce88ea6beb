/-
The grammar of the delta token stream.

`decode_delta_op` tests a tag byte in a fixed order and reads on from there.  What it
accepts is easier to say as a grammar: `Record` lists the five complete records, and
`record_cases` says that a buffer starts with the end flag, with a complete record,
with something no byte can repair, or is the beginning of a record.  The decoder is
then described once per case, and the results about streams go by these cases and
never look at a tag again.
-/
import Mathlib.Data.FinEnum
import AeroFtp.Aerorsync.RealWire.DeltaToken

namespace AeroFtp.RealWire

open LittleEndian List

/-! ### The records -/

/-- The length a literal record announces in its two header bytes. -/
def announcedLength (tag lo : UInt8) : Nat := ((tag &&& 0x3F).toNat <<< 8) ||| lo.toNat

/-- The complete records. -/
inductive Record : List UInt8 → Prop
  | literal {tag lo payload} (htag : tag &&& 0xC0 = tokenDeflatedData)
      (hlen : payload.length = announcedLength tag lo) (hpos : 0 < payload.length) :
      Record (tag :: lo :: payload)
  | rel {tag} (htag : tag &&& 0xC0 = tokenRel) : Record [tag]
  | runRel {tag body} (htag : tag &&& 0xC0 = tokenrunRel) (hlen : body.length = 2) :
      Record (tag :: body)
  | long {body} (hlen : body.length = 4) : Record (tokenLong :: body)
  | runLong {body} (hlen : body.length = 6) : Record (tokenrunLong :: body)

/-- The beginnings no record has: a literal of length zero, and an unknown tag. -/
inductive MalformedHead : List UInt8 → Prop
  | zeroLength {tag lo : UInt8} (rest : List UInt8) (htag : tag &&& 0xC0 = tokenDeflatedData)
      (hlen : announcedLength tag lo = 0) : MalformedHead (tag :: lo :: rest)
  | unknownTag {tag : UInt8} (rest : List UInt8) (hhigh : tag &&& 0xC0 = 0)
      (hend : tag ≠ tokenEndFlag) (hlong : tag ≠ tokenLong) (hrun : tag ≠ tokenrunLong) :
      MalformedHead (tag :: rest)

theorem Record.ne_nil {r : List UInt8} (h : Record r) : r ≠ [] := by
  cases h <;> exact cons_ne_nil _ _

theorem tag_cases (tag : UInt8) :
    tag &&& 0xC0 = 0 ∨ tag &&& 0xC0 = tokenDeflatedData ∨ tag &&& 0xC0 = tokenRel ∨
      tag &&& 0xC0 = tokenrunRel := by
  revert tag
  decide +kernel

private theorem split_or_extend (m : Nat) (rest : List UInt8) :
    (∃ body more, rest = body ++ more ∧ body.length = m) ∨
      ∃ e : List UInt8, e ≠ [] ∧ (rest ++ e).length = m := by
  by_cases h : m ≤ rest.length
  · refine .inl ⟨rest.take m, rest.drop m, (take_append_drop m rest).symm, ?_⟩
    rw [length_take]
    omega
  · refine .inr ⟨replicate (m - rest.length) 0, ?_, ?_⟩
    · intro hnil
      have hlen := congrArg length hnil
      rw [length_replicate, length_nil] at hlen
      omega
    · rw [length_append, length_replicate]
      omega

/-- **Where a buffer stands in the grammar.** -/
theorem record_cases (b : List UInt8) :
    (∃ rest, b = tokenEndFlag :: rest) ∨ (∃ r rest, Record r ∧ b = r ++ rest) ∨
      MalformedHead b ∨ ∃ e, e ≠ [] ∧ Record (b ++ e) := by
  cases b with
  | nil =>
    refine .inr (.inr (.inr ⟨[tokenRel], cons_ne_nil _ _, ?_⟩))
    exact .rel (by decide)
  | cons tag rest =>
    rcases tag_cases tag with hh | hlit | hrel | hrun
    · by_cases hend : tag = tokenEndFlag
      · exact .inl ⟨rest, by rw [hend]⟩
      · by_cases hrunLong : tag = tokenrunLong
        · subst hrunLong
          rcases split_or_extend 6 rest with ⟨body, more, rfl, hlen⟩ | ⟨e, he, hlen⟩
          · exact .inr (.inl ⟨_, more, .runLong hlen, rfl⟩)
          · exact .inr (.inr (.inr ⟨e, he, .runLong hlen⟩))
        · by_cases hlong : tag = tokenLong
          · subst hlong
            rcases split_or_extend 4 rest with ⟨body, more, rfl, hlen⟩ | ⟨e, he, hlen⟩
            · exact .inr (.inl ⟨_, more, .long hlen, rfl⟩)
            · exact .inr (.inr (.inr ⟨e, he, .long hlen⟩))
          · exact .inr (.inr (.inl (.unknownTag rest hh hend hlong hrunLong)))
    · cases rest with
      | nil =>
        -- With 1 as its second byte the length is not zero.
        have hpos : 0 < announcedLength tag 1 := by
          exact Nat.lt_of_lt_of_le Nat.zero_lt_one Nat.right_le_or
        refine .inr (.inr (.inr
          ⟨1 :: replicate (announcedLength tag 1) 0, cons_ne_nil _ _, ?_⟩))
        refine .literal hlit (length_replicate ..) ?_
        rw [length_replicate]
        exact hpos
      | cons lo rest =>
        by_cases hz : announcedLength tag lo = 0
        · exact .inr (.inr (.inl (.zeroLength rest hlit hz)))
        · rcases split_or_extend (announcedLength tag lo) rest with
            ⟨body, more, rfl, hlen⟩ | ⟨e, he, hlen⟩
          · exact .inr (.inl ⟨_, more, .literal hlit hlen (by omega), rfl⟩)
          · exact .inr (.inr (.inr ⟨e, he, .literal hlit hlen
              (Nat.lt_of_lt_of_eq (Nat.pos_of_ne_zero hz) hlen.symm)⟩))
    · exact .inr (.inl ⟨[tag], rest, .rel hrel, rfl⟩)
    · rcases split_or_extend 2 rest with ⟨body, more, rfl, hlen⟩ | ⟨e, he, hlen⟩
      · exact .inr (.inl ⟨_, more, .runRel hrun hlen, rfl⟩)
      · exact .inr (.inr (.inr ⟨e, he, .runRel hrun hlen⟩))

/-! ### The decoder, case by case -/

/-- A decoder asks for more bytes. -/
def IsTruncated {α : Type} (x : Except RealWireError α) : Prop :=
  ∃ at_ needed available, x = .error (.deltaTokenTruncated at_ needed available)

section Decoder

variable {tag : UInt8} {rest : List UInt8} {state : DeltaStreamState}

theorem ne_endFlag {high : UInt8} (htag : tag &&& 0xC0 = high) (h : high ≠ 0) :
    tag ≠ tokenEndFlag := by
  rintro rfl
  exact h htag.symm

theorem decodeDeltaOp_literal (htag : tag &&& 0xC0 = tokenDeflatedData) (lo : UInt8) :
    decodeDeltaOp (tag :: lo :: rest) state
      = if announcedLength tag lo = 0 then
          .error (.deltaTokenTruncated "deflated_len_zero" 1 0)
        else if (tag :: lo :: rest).length < 2 + announcedLength tag lo then
          .error (.deltaTokenTruncated "deflated_payload" (announcedLength tag lo)
            ((tag :: lo :: rest).length - 2))
        else .ok ((.op (.literal (rest.take (announcedLength tag lo))),
          2 + announcedLength tag lo), state) := by
  have hend := ne_endFlag htag (by decide)
  rw [decodeDeltaOp, if_neg hend, if_pos htag]
  rfl

theorem decodeDeltaOp_runRel (htag : tag &&& 0xC0 = tokenrunRel) :
    decodeDeltaOp (tag :: rest) state
      = if (tag :: rest).length < 3 then
          .error (.deltaTokenTruncated "tokenrun_rel" 3 (tag :: rest).length)
        else
          let runExtra := u16FromLeBytes ((tag :: rest).extract 1 3)
          let start := state.lastRunEnd + relativeOffset tag
          .ok ((.op (.copyRun start (saturatingSucc runExtra)), 3),
            ⟨start + i32FromU16 runExtra⟩) := by
  have hend := ne_endFlag htag (by decide)
  have hlit : tag &&& 0xC0 ≠ tokenDeflatedData := by
    rw [htag]
    decide
  rw [decodeDeltaOp.eq_def]
  dsimp only
  rw [if_neg hend, if_neg hlit, if_pos htag]

theorem decodeDeltaOp_rel (htag : tag &&& 0xC0 = tokenRel) : decodeDeltaOp (tag :: rest) state
      = .ok ((.op (.copyRun (state.lastRunEnd + relativeOffset tag) 1), 1),
        ⟨state.lastRunEnd + relativeOffset tag⟩) := by
  have hend := ne_endFlag htag (by decide)
  have hlit : tag &&& 0xC0 ≠ tokenDeflatedData := by
    rw [htag]
    decide
  have hrun : tag &&& 0xC0 ≠ tokenrunRel := by
    rw [htag]
    decide
  rw [decodeDeltaOp.eq_def]
  dsimp only
  rw [if_neg hend, if_neg hlit, if_neg hrun, if_pos htag]

theorem decodeDeltaOp_runLong :
    decodeDeltaOp (tokenrunLong :: rest) state
      = if (tokenrunLong :: rest).length < 7 then
          .error (.deltaTokenTruncated "tokenrun_long" 7 (tokenrunLong :: rest).length)
        else
          let start := i32FromLeBytes ((tokenrunLong :: rest).extract 1 5)
          let runExtra := u16FromLeBytes ((tokenrunLong :: rest).extract 5 7)
          .ok ((.op (.copyRun start (saturatingSucc runExtra)), 7),
            ⟨start + i32FromU16 runExtra⟩) := rfl

theorem decodeDeltaOp_long :
    decodeDeltaOp (tokenLong :: rest) state
      = if (tokenLong :: rest).length < 5 then
          .error (.deltaTokenTruncated "token_long" 5 (tokenLong :: rest).length)
        else
          let start := i32FromLeBytes ((tokenLong :: rest).extract 1 5)
          .ok ((.op (.copyRun start 1), 5), ⟨start⟩) := rfl

/-! Each record on its own, with whatever follows it. -/

theorem decodeDeltaOp_literal_record {lo : UInt8} {payload : List UInt8}
    (htag : tag &&& 0xC0 = tokenDeflatedData) (hlen : payload.length = announcedLength tag lo)
    (hpos : 0 < payload.length) : decodeDeltaOp (tag :: lo :: payload ++ rest) state
      = .ok ((.op (.literal payload), (tag :: lo :: payload).length), state) := by
  rw [cons_append, cons_append, decodeDeltaOp_literal htag, ← hlen,
    if_neg (by omega), if_neg (by simp only [length_cons, length_append]; omega),
    take_left, length_cons, length_cons, Nat.add_comm 2]

variable {body : List UInt8}

theorem decodeDeltaOp_runRel_record (htag : tag &&& 0xC0 = tokenrunRel) (hlen : body.length = 2) :
    decodeDeltaOp (tag :: body ++ rest) state
      = .ok ((.op (.copyRun (state.lastRunEnd + relativeOffset tag)
          (saturatingSucc (u16FromLeBytes body))), (tag :: body).length),
        ⟨state.lastRunEnd + relativeOffset tag + i32FromU16 (u16FromLeBytes body)⟩) := by
  have he : (tag :: (body ++ rest)).extract 1 3 = body := by
    show (body ++ rest).take 2 = body
    rw [← hlen, take_left]
  rw [cons_append, decodeDeltaOp_runRel htag,
    if_neg (by simp only [length_cons, length_append]; omega), he,
    length_cons, hlen]

theorem decodeDeltaOp_long_record (hlen : body.length = 4) :
    decodeDeltaOp (tokenLong :: body ++ rest) state
      = .ok ((.op (.copyRun (i32FromLeBytes body) 1), (tokenLong :: body).length),
        ⟨i32FromLeBytes body⟩) := by
  have hs : (tokenLong :: (body ++ rest)).extract 1 5 = body := by
    show (body ++ rest).take 4 = body
    rw [← hlen, take_left]
  rw [cons_append, decodeDeltaOp_long,
    if_neg (by simp only [length_cons, length_append]; omega), hs, length_cons, hlen]

theorem decodeDeltaOp_runLong_record (hlen : body.length = 6) :
    decodeDeltaOp (tokenrunLong :: body ++ rest) state
      = .ok ((.op (.copyRun (i32FromLeBytes (body.take 4))
          (saturatingSucc (u16FromLeBytes (body.drop 4)))), (tokenrunLong :: body).length),
        ⟨i32FromLeBytes (body.take 4) + i32FromU16 (u16FromLeBytes (body.drop 4))⟩) := by
  have hs : (tokenrunLong :: (body ++ rest)).extract 1 5 = body.take 4 := by
    show (body ++ rest).take 4 = body.take 4
    exact take_append_of_le_length (by omega)
  have he : (tokenrunLong :: (body ++ rest)).extract 5 7 = body.drop 4 := by
    show ((body ++ rest).drop 4).take 2 = body.drop 4
    rw [drop_append_of_le_length (by omega), take_append_of_le_length (by rw [length_drop]; omega)]
    exact take_of_length_le (by rw [length_drop]; omega)
  rw [cons_append, decodeDeltaOp_runLong,
    if_neg (by simp only [length_cons, length_append]; omega), hs, he,
    length_cons, hlen]

end Decoder

theorem decodeDeltaOp_record {r : List UInt8} (hr : Record r) (state : DeltaStreamState) :
    ∃ op state', ∀ rest, decodeDeltaOp (r ++ rest) state = .ok ((.op op, r.length), state') := by
  cases hr with
  | literal htag hlen hpos => exact ⟨_, _, fun _ => decodeDeltaOp_literal_record htag hlen hpos⟩
  | rel htag => exact ⟨_, _, fun _ => decodeDeltaOp_rel htag⟩
  | runRel htag hlen => exact ⟨_, _, fun _ => decodeDeltaOp_runRel_record htag hlen⟩
  | long hlen => exact ⟨_, _, fun _ => decodeDeltaOp_long_record hlen⟩
  | runLong hlen => exact ⟨_, _, fun _ => decodeDeltaOp_runLong_record hlen⟩

/-- A malformed head is reported as truncated, and stays so. -/
theorem decodeDeltaOp_malformed {b : List UInt8} (hb : MalformedHead b)
    (state : DeltaStreamState) : ∀ e, IsTruncated (decodeDeltaOp (b ++ e) state) := by
  intro e
  cases hb with
  | @zeroLength tag lo rest htag hlen =>
    refine ⟨"deflated_len_zero", 1, 0, ?_⟩
    rw [cons_append, cons_append, decodeDeltaOp_literal htag, if_pos hlen]
  | @unknownTag tag rest hh hend hlong hrun =>
    refine ⟨"unknown_tag", 1, 1, ?_⟩
    rw [cons_append, decodeDeltaOp.eq_def]
    dsimp only
    rw [if_neg hend, if_neg (by rw [hh]; decide), if_neg (by rw [hh]; decide),
      if_neg (by rw [hh]; decide), if_neg hrun, if_neg hlong]

theorem decodeDeltaOp_incomplete {b e : List UInt8} (he : e ≠ []) (hr : Record (b ++ e))
    (state : DeltaStreamState) : IsTruncated (decodeDeltaOp b state) := by
  have hs : b.length < (b ++ e).length := by
    rw [length_append]
    have := length_pos_of_ne_nil he
    omega
  cases b with
  | nil => exact ⟨"tag", 1, 0, rfl⟩
  | cons tag rest =>
    rw [cons_append] at hr hs
    generalize hb : rest ++ e = body at hr hs
    cases hr with
    | @literal _ lo payload htag hlen hpos =>
      cases rest with
      | nil =>
        have hend := ne_endFlag htag (by decide)
        refine ⟨"deflated_len", 2, 1, ?_⟩
        rw [decodeDeltaOp, if_neg hend, if_pos htag]
        rfl
      | cons lo' rest =>
        obtain ⟨rfl, rfl⟩ := cons_eq_cons.mp hb
        rw [decodeDeltaOp_literal htag, ← hlen, if_neg (Nat.ne_of_gt hpos), if_pos (by
          simp only [length_cons] at hs ⊢
          omega)]
        exact ⟨_, _, _, rfl⟩
    | rel htag =>
      simp only [length_cons, length_nil] at hs
      omega
    | runRel htag hlen =>
      rw [decodeDeltaOp_runRel htag, if_pos (by
        simp only [length_cons] at hs ⊢
        omega)]
      exact ⟨_, _, _, rfl⟩
    | long hlen =>
      rw [decodeDeltaOp_long, if_pos (by
        simp only [length_cons] at hs ⊢
        omega)]
      exact ⟨_, _, _, rfl⟩
    | runLong hlen =>
      rw [decodeDeltaOp_runLong, if_pos (by
        simp only [length_cons] at hs ⊢
        omega)]
      exact ⟨_, _, _, rfl⟩

end AeroFtp.RealWire
