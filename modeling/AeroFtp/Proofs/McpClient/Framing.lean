/-
The messages of a peer do not depend on how its output is cut.

The size of a line is checked piece by piece, which comes to the same as looking at one byte after
the other; and a walk over a stream is the walks over its pieces, one behind the other.
-/
import AeroFtp.McpClient.Framing
import Mathlib.Data.List.Forall2
import Mathlib.Data.List.Induction

namespace AeroFtp.McpClient

open List

variable {fromSlice : Bytes → Option Value} {stream : Bytes}

/-- One byte of a stream. -/
def next (fromSlice : Bytes → Option Value) (s : List Value × Bytes) (b : UInt8) :
    Except Failure (List Value × Bytes) :=
  if s.2.length + 1 > maxMcpFrameBytes then .error (.tooLarge, [])
  else if b = newline then (takeLine fromSlice (s.2 ++ [b])).map fun message =>
    (s.1 ++ [message], [])
  else .ok (s.1, s.2 ++ [b])

theorem push_cons (s : List Value × Bytes) (b : UInt8) (chunk : Bytes) :
    push fromSlice s (b :: chunk) = next fromSlice s b >>= fun s => push fromSlice s chunk := by
  rw [push, if_neg (cons_ne_nil b chunk), next]
  by_cases hb : b = newline
  · simp only [findIdx?_cons, hb, beq_self_eq_true, if_true, Option.elim_some, Nat.zero_add]
    split
    · rfl
    · rw [if_neg (by simp)]
      simp only [take_succ_cons, take_zero, drop_succ_cons, drop_zero]
      cases takeLine fromSlice (s.2 ++ [newline]) <;> rfl
  · have htake : ((b :: chunk).findIdx? (· == newline)).elim (b :: chunk).length (· + 1)
        = (chunk.findIdx? (· == newline)).elim chunk.length (· + 1) + 1 := by
      cases h : chunk.findIdx? (· == newline) <;> simp [findIdx?_cons, hb, h]
    rw [htake]
    simp only [take_succ_cons, drop_succ_cons]
    by_cases hlen : s.2.length + 1 > maxMcpFrameBytes
    · rw [if_pos hlen, if_pos (by omega)]
      rfl
    rw [if_neg hlen, if_neg hb]
    show _ = push fromSlice (s.1, s.2 ++ [b]) chunk
    by_cases hc : chunk = []
    · rw [hc, if_neg (by simpa using hlen), if_pos (by simpa using hb)]
      rfl
    · rw [push.eq_1 fromSlice (s.1, s.2 ++ [b]), if_neg hc]
      simp only [length_append, length_singleton, append_assoc, singleton_append, Nat.add_assoc,
        Nat.add_comm 1]

theorem push_eq (s : List Value × Bytes) (chunk : Bytes) :
    push fromSlice s chunk = chunk.foldlM (next fromSlice) s := by
  induction chunk generalizing s with
  | nil => rw [push, if_pos rfl]; rfl
  | cons b chunk ih =>
    rw [push_cons, foldlM_cons]
    simp only [ih]

theorem pushAll_eq (chunks : List Bytes) :
    pushAll fromSlice chunks = chunks.flatten.foldlM (next fromSlice) ([], []) := by
  unfold pushAll
  generalize (([], []) : List Value × Bytes) = s
  induction chunks generalizing s with
  | nil => rfl
  | cons chunk chunks ih =>
    rw [foldlM_cons, push_eq, flatten_cons, foldlM_append]
    simp only [ih]

/-- A complete line, and the message it is taken for. -/
def LineOf (fromSlice : Bytes → Option Value) (line : Bytes) (message : Value) : Prop :=
  (∃ text, line = text ++ [newline] ∧ newline ∉ text) ∧ takeLine fromSlice line = .ok message

/-- What a stream has come to: a message for each complete line, and a bounded buffer. -/
def Read (fromSlice : Bytes → Option Value) (stream : Bytes) :
    Except Failure (List Value × Bytes) → Prop
  | .ok (messages, left) => left.length ≤ maxMcpFrameBytes ∧ newline ∉ left ∧
      ∃ lines : List Bytes, stream = lines.flatten ++ left ∧
        Forall₂ (LineOf fromSlice) lines messages
  | .error (_, left) => left.length ≤ maxMcpFrameBytes

theorem read_walk : Read fromSlice stream (stream.foldlM (next fromSlice) ([], [])) := by
  induction stream using reverseRecOn with
  | nil => exact ⟨Nat.zero_le _, not_mem_nil, [], rfl, .nil⟩
  | append_singleton stream b ih =>
    rw [foldlM_append]
    cases hw : stream.foldlM (next fromSlice) ([], []) with
    | error e =>
      rw [hw] at ih
      exact ih
    | ok s =>
      obtain ⟨messages, p⟩ := s
      rw [hw] at ih
      obtain ⟨-, hp, lines, rfl, hlines⟩ := ih
      show Read fromSlice _ ([b].foldlM (next fromSlice) (messages, p))
      rw [foldlM_cons, next]
      split
      · exact Nat.zero_le _
      next hlen =>
      have hle : (p ++ [b]).length ≤ maxMcpFrameBytes := by simpa using hlen
      split
      next hb =>
        cases hm : takeLine fromSlice (p ++ [b]) with
        | ok message =>
          refine ⟨Nat.zero_le _, not_mem_nil, lines ++ [p ++ [b]], by simp, rel_append hlines ?_⟩
          exact .cons ⟨⟨p, by rw [hb], hp⟩, hm⟩ .nil
        | error e =>
          unfold takeLine at hm
          split at hm
          · cases hm
            exact hle
          · split at hm
            · cases hm
            · cases hm
              exact Nat.zero_le _
          · cases hm
            exact Nat.zero_le _
      next hb => exact ⟨hle, by simp [hp, Ne.symm hb], lines, append_assoc .., hlines⟩

theorem walk_long {line : Bytes} (hline : newline ∉ line) (b : UInt8) (s : List Value × Bytes)
    (hlen : s.2.length + line.length + 1 > maxMcpFrameBytes) :
    (line ++ [b]).foldlM (next fromSlice) s = .error (.tooLarge, []) := by
  induction line generalizing s with
  | nil =>
    rw [nil_append, foldlM_cons, next, if_pos (by simpa using hlen)]
    rfl
  | cons c line ih =>
    obtain ⟨hc, hline⟩ := not_or.mp (mt mem_cons.mpr hline)
    rw [cons_append, foldlM_cons, next]
    split
    · rfl
    · rw [if_neg (Ne.symm hc)]
      refine ih hline _ ?_
      simp only [length_append, length_cons] at hlen ⊢
      omega

theorem getLast?_lines {lines : List Bytes} {messages : List Value}
    (h : Forall₂ (LineOf fromSlice) lines messages) :
    lines.flatten.getLast?.all (· == newline) = true := by
  induction h with
  | nil => rfl
  | cons hline _ ih =>
    obtain ⟨⟨text, rfl, -⟩, -⟩ := hline
    rw [flatten_cons, getLast?_append, getLast?_concat]
    cases hlast : (flatten _).getLast? with
    | none => rfl
    | some b =>
      rw [hlast] at ih
      exact ih

/-- A session ends well where its stream ends with a line. -/
theorem Read.finish_eq {messages : List Value} {left : Bytes}
    (h : Read fromSlice stream (.ok (messages, left))) : finish left =
      if stream.getLast?.all (· == newline) then .ok () else .error .incomplete := by
  obtain ⟨-, hleft, lines, rfl, hlines⟩ := h
  rcases eq_nil_or_concat' left with rfl | ⟨init, b, rfl⟩
  · rw [append_nil, getLast?_lines hlines]
    rfl
  · have hb : b ≠ newline := fun hb => hleft (by simp [hb])
    rw [getLast?_append, getLast?_concat, Option.some_or, Option.all_some,
      beq_false_of_ne hb, finish]
    simp

/-- What a peer sends is read the same way however it is cut: one message for each line, in order,
and whether it ends with a line, or the same error.  A line that is too long is always refused, and
the buffer stays bounded. -/
theorem pushAll_of_stream (fromSlice : Bytes → Option Value) (xs : List Bytes) :
    (∀ ys : List Bytes, ys.flatten = xs.flatten → pushAll fromSlice ys = pushAll fromSlice xs) ∧
      Read fromSlice xs.flatten (pushAll fromSlice xs) ∧
      (∀ messages left, pushAll fromSlice xs = .ok (messages, left) → finish left =
        if xs.flatten.getLast?.all (· == newline) then .ok () else .error .incomplete) ∧
      ∀ before messages line b rest, xs.flatten = before ++ (line ++ [b] ++ rest) → newline ∉ line →
        pushAll fromSlice [before] = .ok (messages, []) → (line ++ [b]).length > maxMcpFrameBytes →
          pushAll fromSlice xs = .error (.tooLarge, []) := by
  simp only [pushAll_eq]
  refine ⟨fun ys h => by rw [h], read_walk, fun messages left h => ?_, ?_⟩
  · exact Read.finish_eq (h ▸ read_walk)
  · intro before messages line b rest hx hline hbefore hlen
    rw [flatten_singleton] at hbefore
    rw [hx, foldlM_append, hbefore]
    show (line ++ [b] ++ rest).foldlM (next fromSlice) (messages, []) = _
    rw [foldlM_append, walk_long hline b _ (by simpa using hlen)]
    rfl

/-- One byte too many, and no line yet. -/
theorem pushAll_of_stream_long :
    pushAll (fun _ => none) [replicate (maxMcpFrameBytes + 1) 0] = .error (.tooLarge, []) := by
  refine (pushAll_of_stream _ _).2.2.2 [] [] (replicate maxMcpFrameBytes 0) 0 [] ?_ ?_ ?_ ?_
  · rw [flatten_singleton, replicate_succ', append_nil, nil_append]
  · exact fun h => absurd (eq_of_mem_replicate h) (by decide)
  · rw [pushAll_eq]
    rfl
  · rw [length_append, length_replicate, length_singleton]
    exact Nat.lt_succ_self _

end AeroFtp.McpClient
