/-
A stream of frames, read whole or as it comes in.

A framer looks at the head of a buffer: a complete frame and its length, the start of
one, or something that is no frame.  It says nothing else when more bytes follow, so
the frames of a stream do not depend on how the stream was cut.  `scanned` is what a
buffer holds: its frames up to and including the first `last` one, and what is behind
them.
-/
import Mathlib.Data.List.Basic

namespace AeroFtp

open List

/-- The head of a buffer. -/
inductive FrameHead (φ ε : Type) where
  | incomplete
  | malformed (e : ε)
  | frame (f : φ) (len : Nat)

/-- How the frames of a stream are told apart. -/
structure Framer (β φ ε : Type) where
  head : List β → FrameHead φ ε
  bounds : ∀ {buf f n}, head buf = .frame f n → 0 < n ∧ n ≤ buf.length
  /-- What has been recognised stays so when more follows. -/
  stable : ∀ {buf}, head buf ≠ .incomplete → ∀ more, head (buf ++ more) = head buf
  /-- A frame is one without what follows it. -/
  alone : ∀ {buf f n}, head buf = .frame f n → head (buf.take n) = .frame f n

namespace Framer

variable {β φ ε : Type} (F : Framer β φ ε) (last : φ → Bool)

/-- The frames at the head of a buffer, and what is behind them. -/
def scan : Nat → List β → List φ × List β
  | 0, buf => ([], buf)
  | fuel + 1, buf =>
    match F.head buf with
    | .frame f n =>
      if last f then ([f], buf.drop n)
      else (f :: (scan fuel (buf.drop n)).1, (scan fuel (buf.drop n)).2)
    | _ => ([], buf)

/-- `scan`, with as much fuel as there are elements. -/
def scanned (buf : List β) : List φ × List β := F.scan last buf.length buf

/-! ### One frame -/

variable {f : φ}

theorem head_nil_ne_frame {n : Nat} : F.head [] ≠ .frame f n := by
  intro h
  have hb := F.bounds h
  simp only [length_nil] at hb
  omega

theorem scan_nil (fuel : Nat) : F.scan last fuel [] = ([], []) := by
  cases fuel with
  | zero => rfl
  | succ fuel =>
    rw [scan]
    split
    next f n hh => exact absurd hh F.head_nil_ne_frame
    next => rfl

theorem scan_fuel {fuel fuel' : Nat} {buf : List β} (h : buf.length ≤ fuel)
    (h' : buf.length ≤ fuel') : F.scan last fuel buf = F.scan last fuel' buf := by
  induction fuel generalizing buf fuel' with
  | zero =>
    rw [length_eq_zero_iff.mp (Nat.le_zero.mp h), scan_nil, scan_nil]
  | succ fuel ih =>
    cases fuel' with
    | zero => rw [length_eq_zero_iff.mp (Nat.le_zero.mp h'), scan_nil, scan_nil]
    | succ fuel' =>
      rw [scan, scan]
      split
      next f n hh =>
        have hb := F.bounds hh
        have hd : (buf.drop n).length < buf.length := by rw [length_drop]; omega
        rw [@ih fuel' (buf.drop n) (by omega) (by omega)]
      next => rfl

theorem scanned_frame {buf : List β} {n : Nat} (h : F.head buf = .frame f n) :
    F.scanned last buf =
      if last f then ([f], buf.drop n)
      else (f :: (F.scanned last (buf.drop n)).1, (F.scanned last (buf.drop n)).2) := by
  have hb := F.bounds h
  have hd : (buf.drop n).length ≤ buf.length - 1 := by rw [length_drop]; omega
  have hf : F.scanned last buf = F.scan last (buf.length - 1 + 1) buf := by
    rw [Nat.sub_add_cancel (by omega)]
    rfl
  have hr : F.scan last (buf.length - 1) (buf.drop n) = F.scanned last (buf.drop n) :=
    F.scan_fuel last hd (Nat.le_refl _)
  rw [hf, scan, h, ← hr]

theorem scanned_other {buf : List β} (h : ∀ f n, F.head buf ≠ .frame f n) :
    F.scanned last buf = ([], buf) := by
  unfold scanned
  cases buf.length with
  | zero => rfl
  | succ len =>
    rw [scan]
    split
    next f n hh => exact absurd hh (h f n)
    next => rfl

/-- Along the frames of a buffer: a property that holds where there is none, and in
front of each frame if it holds behind it, holds of the buffer. -/
theorem scanned_induction {P : List β → Prop}
    (hother : ∀ buf, (∀ f n, F.head buf ≠ .frame f n) → P buf)
    (hframe : ∀ buf f n, F.head buf = .frame f n → P (buf.drop n) → P buf) (buf : List β) :
    P buf := by
  induction hlen : buf.length using Nat.strongRecOn generalizing buf with
  | ind len ih =>
    by_cases h : ∃ f n, F.head buf = .frame f n
    · obtain ⟨f, n, h⟩ := h
      have hb := F.bounds h
      refine hframe buf f n h (ih (buf.drop n).length ?_ _ rfl)
      rw [length_drop]
      omega
    · exact hother buf fun f n hh => h ⟨f, n, hh⟩

/-! ### Streams made of frames -/

/-- A stream that is the given frames and nothing else. -/
inductive Parsed : List φ → List β → Prop where
  | nil : Parsed [] []
  | cons {w p : List β} {f : φ} {fs : List φ} (head : F.head w = .frame f w.length)
      (tail : Parsed fs p) : Parsed (f :: fs) (w ++ p)

/-- A stream of complete frames of which none but the final one is a `last` one. -/
def Whole (fs : List φ) (p : List β) : Prop :=
  F.Parsed fs p ∧ ∀ f ∈ fs.dropLast, last f = false

/-- The longest part at the head of a stream that is made of complete frames, up to
and including the first `last` one. -/
def Longest (p stream : List β) : Prop :=
  p <+: stream ∧ (∃ fs, F.Whole last fs p) ∧
    ∀ q fs, q <+: stream → F.Whole last fs q → q.length ≤ p.length

variable {last}

theorem Parsed.head_append {w p : List β} (h : F.head w = .frame f w.length) :
    F.head (w ++ p) = .frame f w.length := by
  rw [F.stable (by rw [h]; simp), h]

theorem Whole.tail {fs : List φ} {w p : List β} (ht : F.Parsed fs p)
    (h : F.Whole last (f :: fs) (w ++ p)) : F.Whole last fs p ∧ (fs ≠ [] → last f = false) := by
  obtain ⟨_, hl⟩ := h
  cases fs with
  | nil => exact ⟨⟨ht, by simp⟩, fun hne => absurd rfl hne⟩
  | cons g gs =>
    refine ⟨⟨ht, fun f' hf' => hl f' (mem_cons_of_mem _ hf')⟩, fun _ => ?_⟩
    exact hl f (mem_cons_self ..)

variable (last) in
theorem whole_scanned (buf : List β) :
    ∃ p, buf = p ++ (F.scanned last buf).2 ∧ F.Whole last (F.scanned last buf).1 p := by
  induction buf using F.scanned_induction with
  | hother buf h =>
    rw [scanned_other F last h]
    exact ⟨[], rfl, .nil, by simp⟩
  | hframe buf f n h ih =>
    have halone : F.head (buf.take n) = .frame f (buf.take n).length := by
      rw [length_take_of_le (F.bounds h).2]
      exact F.alone h
    rw [scanned_frame F last h]
    split
    next hl =>
      refine ⟨buf.take n, (take_append_drop n buf).symm, ?_, by simp⟩
      rw [← append_nil (buf.take n)]
      exact .cons halone .nil
    next hl =>
      obtain ⟨p, hp, hparsed, hlast⟩ := ih
      refine ⟨buf.take n ++ p, ?_, .cons halone hparsed, ?_⟩
      · rw [append_assoc, ← hp, take_append_drop]
      · intro g hg
        cases hfs : (F.scanned last (buf.drop n)).1 with
        | nil => simp [hfs] at hg
        | cons g' gs =>
          rw [dropLast_cons_of_ne_nil (by simp [hfs])] at hg
          rcases mem_cons.mp hg with rfl | hg
          · exact Bool.eq_false_iff.mpr hl
          · exact hlast g hg

/-- **Complete frames are read first**, and what follows them only if none of them is
a `last` one. -/
theorem scanned_append {fs : List φ} {p : List β} (h : F.Whole last fs p) (more : List β) :
    F.scanned last (p ++ more) =
      if fs.any last then (fs, more)
      else (fs ++ (F.scanned last more).1, (F.scanned last more).2) := by
  obtain ⟨hp, hlast⟩ := h
  induction hp with
  | nil => rfl
  | @cons w p f fs hh ht ih =>
    obtain ⟨hw, hf⟩ := Whole.tail F ht ⟨.cons hh ht, hlast⟩
    have hd : (w ++ (p ++ more)).drop w.length = p ++ more := drop_left ..
    rw [append_assoc, scanned_frame F last (Parsed.head_append F hh), hd]
    cases hl : last f with
    | true =>
      -- A `last` frame is the final one, so nothing of the stream is behind it.
      have hnil : fs = [] := by
        by_contra hne
        rw [hf hne] at hl
        cases hl
      subst hnil
      cases ht
      simp [hl]
    | false =>
      rw [ih hw.2]
      simp only [any_cons, hl, Bool.false_or, Bool.false_eq_true, if_false]
      split <;> simp

variable (buf : List β)

theorem length_scanned_le : (F.scanned last buf).2.length ≤ buf.length := by
  obtain ⟨p, hp, _⟩ := F.whole_scanned last buf
  have hlen := congrArg length hp
  rw [length_append] at hlen
  omega

variable (last) in
/-- What is read of a stream is the longest part that can be. -/
theorem longest_scanned (stream : List β) :
    ∃ p, F.Longest last p stream ∧ F.Whole last (F.scanned last stream).1 p ∧
      stream = p ++ (F.scanned last stream).2 := by
  obtain ⟨p, hp, hw⟩ := F.whole_scanned last stream
  refine ⟨p, ⟨⟨_, hp.symm⟩, ⟨_, hw⟩, ?_⟩, hw, hp⟩
  rintro q fs ⟨more, rfl⟩ hq
  have hr : (F.scanned last (q ++ more)).2.length ≤ more.length := by
    rw [F.scanned_append hq]
    split
    · exact Nat.le_refl _
    · exact F.length_scanned_le more
  have hlen := congrArg length hp
  rw [length_append, length_append] at hlen
  omega

/-! ### A stream that comes in pieces -/

variable (last)

/-- What a reader holds back, and whether it has seen a `last` frame. -/
structure Held (β : Type) where
  buf : List β
  locked : Bool

/-- Take in a piece and give out the frames that are now complete. -/
def feed (s : Held β) (chunk : List β) : List φ × Held β :=
  if s.locked then ([], ⟨s.buf ++ chunk, true⟩)
  else
    let read := F.scanned last (s.buf ++ chunk)
    (read.1, ⟨read.2, read.1.any last⟩)

/-- Take in piece after piece. -/
def feedAll : Held β → List (List β) → List φ × Held β
  | s, [] => ([], s)
  | s, chunk :: chunks =>
    let now := F.feed last s chunk
    let later := feedAll now.2 chunks
    (now.1 ++ later.1, later.2)

variable {last}

theorem feedAll_locked (chunks : List (List β)) : (F.feedAll last ⟨buf, true⟩ chunks).1 = [] := by
  induction chunks generalizing buf with
  | nil => rfl
  | cons chunk chunks ih => exact ih (buf ++ chunk)

/-- What is held back holds no complete frame. -/
theorem scanned_rest (h : (F.scanned last buf).1.any last = false) :
    F.scanned last (F.scanned last buf).2 = ([], (F.scanned last buf).2) := by
  obtain ⟨p, hp, hw⟩ := F.whole_scanned last buf
  have happ := F.scanned_append hw (F.scanned last buf).2
  rw [← hp, h] at happ
  simp only [Bool.false_eq_true, if_false] at happ
  have hfst := congrArg Prod.fst happ
  have hsnd := congrArg Prod.snd happ
  simp only [self_eq_append_right] at hfst
  exact Prod.ext hfst hsnd.symm

/-- **The frames of a stream do not depend on how it is cut.** -/
theorem feedAll_eq_scanned (hbuf : F.scanned last buf = ([], buf)) (chunks : List (List β)) :
    (F.feedAll last ⟨buf, false⟩ chunks).1 = (F.scanned last (buf ++ chunks.flatten)).1 := by
  induction chunks generalizing buf with
  | nil => rw [flatten_nil, append_nil, hbuf]; rfl
  | cons chunk chunks ih =>
    obtain ⟨p, hp, hw⟩ := F.whole_scanned last (buf ++ chunk)
    have happ := F.scanned_append hw ((F.scanned last (buf ++ chunk)).2 ++ chunks.flatten)
    rw [← append_assoc, ← hp] at happ
    rw [flatten_cons, ← append_assoc, happ]
    simp only [feedAll, feed, Bool.false_eq_true, if_false]
    cases hany : (F.scanned last (buf ++ chunk)).1.any last with
    | true => rw [F.feedAll_locked, append_nil]; rfl
    | false => rw [ih _ (F.scanned_rest _ hany)]; rfl

end Framer

end AeroFtp
