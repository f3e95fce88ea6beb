/-
Bodies with a marker behind each, and with one marker behind each run.

A sender puts out bodies, some of them next to each other and some with other
traffic in between.  `sent` is the stream with the marker behind every body.  A
receiver that cannot see where one body ends and the next begins puts adjacent bodies
together and the marker behind the run; that is `received`.  The two are the same
stream exactly when no two bodies are adjacent, since every adjacent pair costs a
marker.

`chunks` is the cutting of a body into records of bounded length.
-/
import Mathlib.Data.List.Chain
import Mathlib.Data.List.ReduceOption
import Mathlib.Algebra.Order.Floor.Div

namespace AeroFtp.Framing

open List

variable {α : Type}

/-! ### Chunks -/

/-- `chunks`, with as much fuel as there are elements. -/
def chunksFrom (n : Nat) : Nat → List α → List (List α)
  | 0, _ => []
  | _ + 1, [] => []
  | fuel + 1, x :: xs => (x :: xs).take n :: chunksFrom n fuel ((x :: xs).drop n)

/-- The pieces of length `n` of a list; the last may be shorter. -/
def chunks (n : Nat) (l : List α) : List (List α) := chunksFrom n l.length l

section Chunks

variable {n : Nat} (hn : 0 < n)
include hn

theorem chunksFrom_fuel (fuel fuel' : Nat) {l : List α} (h : l.length ≤ fuel)
    (h' : l.length ≤ fuel') : chunksFrom n fuel l = chunksFrom n fuel' l := by
  induction fuel generalizing fuel' l with
  | zero =>
    rw [length_eq_zero_iff.mp (Nat.le_zero.mp h)]
    cases fuel' <;> rfl
  | succ fuel ih =>
    cases l with
    | nil => cases fuel' <;> rfl
    | cons x xs =>
      obtain ⟨k, rfl⟩ : ∃ k, fuel' = k + 1 := ⟨fuel' - 1, by rw [length_cons] at h'; omega⟩
      rw [chunksFrom, chunksFrom, ih k (by rw [length_drop]; omega) (by rw [length_drop]; omega)]

theorem chunks_cons (x : α) (xs : List α) :
    chunks n (x :: xs) = (x :: xs).take n :: chunks n ((x :: xs).drop n) := by
  have hlen : ((x :: xs).drop n).length ≤ xs.length := by rw [length_drop, length_cons]; omega
  rw [chunks, length_cons, chunksFrom, chunksFrom_fuel hn _ _ hlen (Nat.le_refl _), chunks]

theorem chunks_induction {P : List α → Prop} (nil : P [])
    (cons : ∀ x xs, P ((x :: xs).drop n) → P (x :: xs)) (l : List α) : P l := by
  induction h : l.length using Nat.strong_induction_on generalizing l with
  | _ k ih =>
    cases l with
    | nil => exact nil
    | cons x xs => exact cons x xs (ih _ (by rw [← h, length_drop, length_cons]; omega) _ rfl)

theorem flatten_chunks (l : List α) : (chunks n l).flatten = l := by
  induction l using chunks_induction hn with
  | nil => rfl
  | cons x xs ih => rw [chunks_cons hn, flatten_cons, ih, take_append_drop]

theorem mem_chunks {l m : List α} (h : m ∈ chunks n l) : 1 ≤ m.length ∧ m.length ≤ n := by
  induction l using chunks_induction hn with
  | nil => cases h
  | cons x xs ih =>
    rw [chunks_cons hn] at h
    rcases mem_cons.mp h with rfl | h
    · rw [length_take, length_cons]
      omega
    · exact ih h

theorem length_chunks (l : List α) : (chunks n l).length = l.length ⌈/⌉ n := by
  rw [Nat.ceilDiv_eq_add_pred_div]
  induction l using chunks_induction hn with
  | nil => exact (Nat.div_eq_of_lt (by simp; omega)).symm
  | cons x xs ih =>
    rw [chunks_cons hn, length_cons, ih, length_drop, length_cons]
    by_cases hs : xs.length + 1 ≤ n
    · rw [Nat.div_eq_of_lt (by omega)]
      exact (Nat.div_eq_of_lt_le (by omega) (by omega)).symm
    · rw [← Nat.add_div_right _ hn]
      congr 1
      omega

theorem chunks_append {piece : List α} (h : piece.length = n) (l : List α) :
    chunks n (piece ++ l) = piece :: chunks n l := by
  obtain ⟨x, xs, rfl⟩ := exists_cons_of_length_pos (by omega : 0 < piece.length)
  rw [cons_append, chunks_cons hn, ← cons_append, take_left' h, drop_left' h]

theorem chunks_flatten {pieces : List (List α)} (h : ∀ piece ∈ pieces, piece.length = n) :
    chunks n pieces.flatten = pieces := by
  induction pieces with
  | nil => rfl
  | cons piece pieces ih =>
    obtain ⟨hp, hr⟩ := forall_mem_cons.mp h
    rw [flatten_cons, chunks_append hn hp, ih hr]

end Chunks

/-- Pieces of the full length, but for the last, which is not longer and not empty. -/
def Cut (n : Nat) : List (List α) → Prop
  | [] => True
  | [piece] => 1 ≤ piece.length ∧ piece.length ≤ n
  | piece :: next :: pieces => piece.length = n ∧ Cut n (next :: pieces)

theorem cut_chunks {n : Nat} (hn : 0 < n) (l : List α) : Cut n (chunks n l) := by
  induction l using chunks_induction hn with
  | nil => trivial
  | cons x xs ih =>
    rw [chunks_cons hn]
    by_cases hlt : n < (x :: xs).length
    · -- something is left, so this piece has the full length
      obtain ⟨y, ys, hr⟩ := exists_cons_of_length_pos
        (show 0 < ((x :: xs).drop n).length by rw [length_drop]; omega)
      rw [hr] at ih ⊢
      refine ⟨?_, ih⟩
      rw [length_take]
      omega
    · rw [drop_eq_nil_of_le (Nat.le_of_not_lt hlt)]
      show 1 ≤ ((x :: xs).take n).length ∧ _
      rw [length_take, length_cons]
      omega

/-- Pieces that are cut so are found again. -/
theorem chunks_flatten_of_cut {n : Nat} (hn : 0 < n) {pieces : List (List α)} (h : Cut n pieces) :
    chunks n pieces.flatten = pieces := by
  induction pieces with
  | nil => rfl
  | cons piece pieces ih =>
    cases pieces with
    | nil =>
      obtain ⟨x, xs, rfl⟩ := exists_cons_of_length_pos (show 0 < piece.length from h.1)
      rw [flatten_cons, flatten_nil, append_nil, chunks_cons hn, take_of_length_le h.2,
        drop_eq_nil_of_le h.2]
      rfl
    | cons next pieces => rw [flatten_cons, chunks_append hn h.1, ih h.2]

theorem Cut.mapIdx {n k : Nat} {β : Type} {f : Nat → List α → List β}
    (hf : ∀ i piece, (f i piece).length = piece.length + k) {pieces : List (List α)}
    (h : Cut n pieces) : Cut (n + k) (pieces.mapIdx f) := by
  induction pieces generalizing f with
  | nil => trivial
  | cons piece pieces ih =>
    cases pieces with
    | nil =>
      have hlen := hf 0 piece
      have hone := h.1
      have hle := h.2
      rw [mapIdx_cons]
      refine ⟨?_, ?_⟩ <;> omega
    | cons next pieces =>
      rw [mapIdx_cons, mapIdx_cons]
      refine ⟨by rw [hf, h.1], ?_⟩
      have hr := @ih (fun i => f (i + 1)) (fun i => hf (i + 1)) h.2
      rwa [mapIdx_cons] at hr

/-! ### Runs -/

/-- Every body with the marker behind it; `none` is other traffic. -/
def sent (marker : List α) : List (Option (List α)) → List α
  | [] => []
  | some body :: l => body ++ marker ++ sent marker l
  | none :: l => sent marker l

/-- The runs of adjacent bodies, put together.  `pending` is the run so far. -/
def runsFrom : List α → List (Option (List α)) → List (List α)
  | pending, [] => if pending.isEmpty then [] else [pending]
  | pending, some body :: l => runsFrom (pending ++ body) l
  | pending, none :: l => (if pending.isEmpty then [] else [pending]) ++ runsFrom [] l

/-- Every run with the marker behind it. -/
def received (marker pending : List α) (l : List (Option (List α))) : List α :=
  (runsFrom pending l).flatMap (· ++ marker)

/-- Two neighbours of which not both are bodies. -/
def Apart (x y : Bool) : Prop := x = false ∨ y = false

section Runs

variable {marker : List α}

theorem received_some (pending body : List α) (l : List (Option (List α))) :
    received marker pending (some body :: l) = received marker (pending ++ body) l := rfl

theorem received_none_nil (l : List (Option (List α))) :
    received marker [] (none :: l) = received marker [] l := rfl

theorem received_none {pending : List α} (hp : pending ≠ []) (l : List (Option (List α))) :
    received marker pending (none :: l) = pending ++ marker ++ received marker [] l := by
  unfold received
  rw [runsFrom, if_neg (by simpa using hp), flatMap_append, flatMap_singleton]

theorem received_nil {pending : List α} (hp : pending ≠ []) :
    received marker pending [] = pending ++ marker := by
  unfold received
  rw [runsFrom, if_neg (by simpa using hp), flatMap_singleton]

theorem ne_nil_of_mem_runsFrom (l : List (Option (List α))) :
    ∀ (pending : List α), ∀ run ∈ runsFrom pending l, run ≠ [] := by
  have hf : ∀ (pending : List α), ∀ run ∈ (if pending.isEmpty then [] else [pending]),
      run ≠ [] := by
    intro pending run hrun
    cases pending with
    | nil => cases hrun
    | cons x xs =>
      rw [mem_singleton.mp hrun]
      exact cons_ne_nil _ _
  induction l with
  | nil => exact hf
  | cons x l ih =>
    intro pending run hrun
    cases x with
    | some body => exact ih _ run hrun
    | none =>
      rcases mem_append.mp hrun with hrun | hrun
      · exact hf pending run hrun
      · exact ih [] run hrun

/-- A run has one marker for all its bodies, so no more is received than was sent. -/
theorem length_received_le (marker : List α) (l : List (Option (List α))) :
    (received marker [] l).length ≤ (sent marker l).length ∧
      ∀ pending, (received marker pending l).length
        ≤ pending.length + marker.length + (sent marker l).length := by
  induction l with
  | nil =>
    refine ⟨Nat.le_refl _, ?_⟩
    intro pending
    by_cases hp : pending = []
    · subst hp
      exact Nat.zero_le _
    · rw [received_nil hp, length_append]
      exact Nat.le_add_right _ _
  | cons x l ih =>
    obtain ⟨hnil, hpend⟩ := ih
    cases x with
    | some body =>
      have hb := hpend body
      simp only [received_some, sent, nil_append, length_append]
      refine ⟨hb, ?_⟩
      intro pending
      have hall := hpend (pending ++ body)
      rw [length_append] at hall
      omega
    | none =>
      refine ⟨hnil, ?_⟩
      intro pending
      by_cases hp : pending = []
      · subst hp
        exact hpend []
      · rw [received_none hp]
        simp only [sent, length_append]
        omega

/-- **The receiver sees what was sent exactly when no two bodies are adjacent.** -/
theorem received_eq_sent_iff (hm : marker ≠ []) {l : List (Option (List α))}
    (hl : ∀ body, some body ∈ l → body ≠ []) :
    received marker [] l = sent marker l ↔ (l.map Option.isSome).IsChain Apart := by
  -- With a run pending, a body next to it is one marker short.
  have hboth : (received marker [] l = sent marker l ↔ (l.map Option.isSome).IsChain Apart) ∧
      ∀ pending, pending ≠ [] → (received marker pending l = pending ++ marker ++ sent marker l
          ↔ (true :: l.map Option.isSome).IsChain Apart) := by
    induction l with
    | nil =>
      refine ⟨iff_of_true rfl .nil, ?_⟩
      intro pending hp
      rw [received_nil hp]
      simp [sent]
    | cons x l ih =>
      obtain ⟨hnil, hpend⟩ := ih fun body hbody => hl body (mem_cons_of_mem _ hbody)
      cases x with
      | some body =>
        have hbody : body ≠ [] := hl body mem_cons_self
        refine ⟨?_, ?_⟩
        · exact hpend body hbody
        · intro pending _
          refine iff_of_false ?_ ?_
          · intro heq
            have hlen := congrArg length heq
            have hle := (length_received_le marker l).2 (pending ++ body)
            have hpos := length_pos_of_ne_nil hm
            simp only [received_some, sent, length_append] at hlen hle
            omega
          · intro hc
            simp [isChain_cons, Apart] at hc
      | none =>
        have hc : (false :: l.map Option.isSome).IsChain Apart
            ↔ (l.map Option.isSome).IsChain Apart := by
          simp [isChain_cons, Apart]
        refine ⟨?_, ?_⟩
        · rw [received_none_nil, sent, hnil]
          exact hc.symm
        · intro pending hp
          rw [received_none hp, sent, append_cancel_left_eq, hnil, ← hc, map_cons,
            isChain_cons_cons]
          exact (and_iff_right (.inr rfl)).symm
  exact hboth.1

end Runs

end AeroFtp.Framing
