/-
Readers over a buffer that is still arriving.

A reader looks at a buffer from a cursor on and returns a value with the cursor
behind it, or fails.  Some failures are *recoverable*: the caller appends the bytes
that arrive next and starts over.  That is sound when nothing a reader decides can be
undone by what follows, and it ends when every recoverable failure can be overcome.

`Resumable` says both, in a form that is closed under sequencing.

* A value that was read stays, whatever follows it, and every buffer that breaks off
  inside it fails recoverably.
* A recoverable failure can be overcome by a suffix that either settles the matter
  with a hard error or ends exactly with the value, so that the next reader starts at
  the end of the buffer.  The exceptions are listed by a predicate `stuck`; there no
  suffix helps.
-/
import Mathlib.Data.List.Infix

namespace AeroFtp

open List

/-- A computation on a buffer and a cursor. -/
abbrev Reader (ε β : Type) := ReaderT (List β) (StateT Nat (Except ε))

namespace Reader

variable {ε β α γ : Type}

variable {p : Reader ε β α} {f : α → Reader ε β γ} {b : List β} {short : Nat → ε} {a : α} {c : Nat}

variable {c' : Nat}

theorem run_bind_ok (h : p b c = .ok (a, c')) : (p >>= f) b c = f a b c' := by
  show (p b c).bind _ = _
  rw [h]
  rfl

variable {c : Nat} {e : ε}

theorem run_bind_error (h : p b c = .error e) : (p >>= f) b c = .error e := by
  show (p b c).bind _ = _
  rw [h]
  rfl

/-- Fail, with an error that may mention how many items are left. -/
def fail (e : Nat → ε) : Reader ε β α := fun b c => .error (e (b.length - c))

/-- The cursor. -/
def position : Reader ε β Nat := fun _ c => .ok (c, c)

/-- The next `n` items; `short` is the error when there are fewer. -/
def take (short : Nat → ε) (n : Nat) : Reader ε β (List β) := fun b c =>
  if c + n > b.length then .error (short (b.length - c))
  else .ok (b.extract c (c + n), c + n)

/-- Run a reader on the slice from the cursor on, with a cursor of its own. -/
def onSlice (p : Reader ε β α) : Reader ε β α := fun b c =>
  match p (b.drop c) 0 with
  | .error e => .error e
  | .ok (a, n) => .ok (a, c + n)

theorem bind_ok {c₂ : Nat} {x : γ} (h : (p >>= f) b c = .ok (x, c₂)) :
    ∃ a c₁, p b c = .ok (a, c₁) ∧ f a b c₁ = .ok (x, c₂) := by
  cases hp : p b c with
  | error e =>
    rw [run_bind_error hp] at h
    cases h
  | ok ac =>
    obtain ⟨a, c₁⟩ := ac
    rw [run_bind_ok hp] at h
    exact ⟨a, c₁, rfl, h⟩

variable {b : List β} {n : Nat}

theorem run_take (h : c + n ≤ b.length) : take short n b c = .ok ((b.drop c).take n, c + n) := by
  unfold take
  rw [if_neg (by omega), extract_eq_take_drop, Nat.add_sub_cancel_left]

theorem run_take_short
    (h : b.length < c + n) : take short n b c = .error (short (b.length - c)) :=
  if_pos h

theorem take_ok {xs : List β} (h : take short n b c = .ok (xs, c')) :
    c + n ≤ b.length ∧ xs = b.extract c (c + n) ∧ c' = c + n := by
  unfold take at h
  by_cases hlen : c + n > b.length
  · rw [if_pos hlen] at h
    cases h
  · rw [if_neg hlen] at h
    cases h
    exact ⟨by omega, rfl, rfl⟩

theorem run_onSlice_ok
    (h : p (b.drop c) 0 = .ok (a, n)) : onSlice p b c = .ok (a, c + n) := by
  unfold onSlice
  rw [h]

theorem run_onSlice_error (h : p (b.drop c) 0 = .error e) : onSlice p b c = .error e := by
  unfold onSlice
  rw [h]

theorem onSlice_ok
    (h : onSlice p b c = .ok (a, c')) : ∃ n, p (b.drop c) 0 = .ok (a, n) ∧ c' = c + n := by
  cases hp : p (b.drop c) 0 with
  | error e =>
    rw [run_onSlice_error hp] at h
    cases h
  | ok an =>
    obtain ⟨a', n⟩ := an
    rw [run_onSlice_ok hp] at h
    cases h
    exact ⟨n, rfl, rfl⟩

theorem onSlice_error (h : onSlice p b c = .error e) : p (b.drop c) 0 = .error e := by
  cases hp : p (b.drop c) 0 with
  | error e' =>
    rw [run_onSlice_error hp] at h
    cases h
    rfl
  | ok an =>
    rw [run_onSlice_ok hp] at h
    cases h

/-! ### Resumable readers -/

section Resumable

variable (recoverable : ε → Prop)

/-- The run failed, but more input may help. -/
def Recovers (r : Except ε γ) : Prop := ∃ e, r = .error e ∧ recoverable e

/-- The run has its value at the end of the buffer, or will never have one. -/
def Settles (r : Except ε (α × Nat)) (n : Nat) : Prop :=
  (∃ a, r = .ok (a, n)) ∨ ∃ e, r = .error e ∧ ¬ recoverable e

/-- What was read is settled, and its pieces are not. -/
structure Framed (p : Reader ε β α) : Prop where
  bounds : ∀ {b c a c'}, c ≤ b.length → p b c = .ok (a, c') → c ≤ c' ∧ c' ≤ b.length
  stable : ∀ {b c a c' b'}, c ≤ b.length → p b c = .ok (a, c') → b.take c' <+: b' →
    p b' c = .ok (a, c')
  short : ∀ {b c a c' k}, c ≤ b.length → p b c = .ok (a, c') → c ≤ k → k < c' →
    Recovers recoverable (p (b.take k) c)

/-- A framed reader whose recoverable failures can be overcome, outside `stuck`. -/
structure Resumable (stuck : List β → Nat → Prop) (p : Reader ε β α) : Prop
    extends Framed recoverable p where
  completes : ∀ {b c}, c ≤ b.length → Recovers recoverable (p b c) → ¬ stuck b c →
    ∃ t, Settles recoverable (p (b ++ t) c) (b ++ t).length
  stays : ∀ {b c}, c ≤ b.length → stuck b c → ∀ t, Recovers recoverable (p (b ++ t) c)
  fresh : ∀ b, ¬ stuck b b.length

/-- No buffer is stuck. -/
def Never : List β → Nat → Prop := fun _ _ => False

/-- Stuck in what follows `p`. -/
def After (p : Reader ε β α) (stuck : α → List β → Nat → Prop) : List β → Nat → Prop :=
  fun b c => ∃ a c', p b c = .ok (a, c') ∧ stuck a b c'

end Resumable

/-! ### Framing -/

namespace Framed

variable {recoverable : ε → Prop} {p : Reader ε β α}

theorem append (hp : Framed recoverable p)
    (hc : c ≤ b.length) (h : p b c = .ok (a, c')) (t : List β) : p (b ++ t) c = .ok (a, c') :=
  hp.stable hc h ((List.take_prefix c' b).trans (prefix_append b t))

theorem of_value {v : Nat → α} (h : ∀ b c, p b c = .ok (v c, c)) : Framed recoverable p where
  bounds hc hok := by
    cases (h _ _).symm.trans hok
    exact ⟨Nat.le_refl _, hc⟩
  stable _ hok _ := by
    cases (h _ _).symm.trans hok
    exact h _ _
  short _ hok hk hlt := by
    cases (h _ _).symm.trans hok
    omega

theorem fail (e : Nat → ε) : Framed recoverable (Reader.fail e : Reader ε β α) where
  bounds _ h := by cases h
  stable _ h _ := by cases h
  short _ h _ _ := by cases h

theorem take {short : Nat → ε} (soft : ∀ n, recoverable (short n)) (n : Nat) :
    Framed recoverable (Reader.take short n : Reader ε β (List β)) where
  bounds hc h := by
    obtain ⟨hlen, _, rfl⟩ := take_ok h
    omega
  stable := by
    intro b c a c' b' hc h hpre
    obtain ⟨hlen, rfl, rfl⟩ := take_ok h
    obtain ⟨t, rfl⟩ := hpre
    have hshort : ¬ c + n > (b.take (c + n) ++ t).length := by
      rw [length_append, length_take]
      omega
    have hsame : (b.take (c + n) ++ t).extract c (c + n) = b.extract c (c + n) := by
      simp only [extract_eq_take_drop]
      rw [drop_append_of_le_length (by rw [length_take]; omega),
        take_append_of_le_length (by rw [length_drop, length_take]; omega),
        drop_take, take_take, Nat.min_self]
    unfold Reader.take
    rw [if_neg hshort, hsame]
  short := by
    intro b c a c' k hc h hk hlt
    obtain ⟨hlen, _, rfl⟩ := take_ok h
    have hshort : c + n > (b.take k).length := by
      rw [length_take]
      omega
    exact ⟨_, if_pos hshort, soft _⟩

theorem bind {f : α → Reader ε β γ} (hp : Framed recoverable p)
    (hf : ∀ a, Framed recoverable (f a)) : Framed recoverable (p >>= f) where
  bounds := by
    intro b c x c₂ hc h
    obtain ⟨a, c₁, hpa, hfa⟩ := bind_ok h
    obtain ⟨h₁, h₂⟩ := hp.bounds hc hpa
    obtain ⟨h₃, h₄⟩ := (hf a).bounds h₂ hfa
    exact ⟨Nat.le_trans h₁ h₃, h₄⟩
  stable := by
    intro b c x c₂ b' hc h hpre
    obtain ⟨a, c₁, hpa, hfa⟩ := bind_ok h
    obtain ⟨_, h₂⟩ := hp.bounds hc hpa
    obtain ⟨h₃, _⟩ := (hf a).bounds h₂ hfa
    have hpre₁ : b.take c₁ <+: b' := (take_prefix_take_left h₃).trans hpre
    rw [run_bind_ok (hp.stable hc hpa hpre₁)]
    exact (hf a).stable h₂ hfa hpre
  short := by
    intro b c x c₂ k hc h hk hlt
    obtain ⟨a, c₁, hpa, hfa⟩ := bind_ok h
    obtain ⟨_, h₂⟩ := hp.bounds hc hpa
    -- Either `p` breaks off, or it is read and what follows it breaks off.
    by_cases hk₁ : k < c₁
    · obtain ⟨e, he, hs⟩ := hp.short hc hpa hk hk₁
      exact ⟨e, run_bind_error he, hs⟩
    · have hpre : b.take c₁ <+: b.take k := take_prefix_take_left (by omega)
      rw [run_bind_ok (hp.stable hc hpa hpre)]
      exact (hf a).short h₂ hfa (by omega) hlt

theorem ite {q : Reader ε β α} {P : Prop} [Decidable P] (hp : Framed recoverable p)
    (hq : Framed recoverable q) : Framed recoverable (if P then p else q) := by
  by_cases h : P
  · rw [if_pos h]
    exact hp
  · rw [if_neg h]
    exact hq

theorem onSlice (hp : Framed recoverable p) : Framed recoverable (Reader.onSlice p) where
  bounds := by
    intro b c a c' hc h
    obtain ⟨n, hpn, rfl⟩ := onSlice_ok h
    obtain ⟨_, hn⟩ := hp.bounds (Nat.zero_le _) hpn
    rw [length_drop] at hn
    omega
  stable := by
    intro b c a c' b' hc h hpre
    obtain ⟨n, hpn, rfl⟩ := onSlice_ok h
    have hslice : (b.drop c).take n <+: b'.drop c := by
      have hd := List.IsPrefix.drop hpre c
      rwa [drop_take, Nat.add_sub_cancel_left] at hd
    exact run_onSlice_ok (hp.stable (Nat.zero_le _) hpn hslice)
  short := by
    intro b c a c' k hc h hk hlt
    obtain ⟨n, hpn, rfl⟩ := onSlice_ok h
    obtain ⟨e, he, hsoft⟩ := hp.short (k := k - c) (Nat.zero_le _) hpn (Nat.zero_le _) (by omega)
    rw [← drop_take] at he
    exact ⟨e, run_onSlice_error he, hsoft⟩

end Framed

/-! ### Completing a buffer -/

namespace Resumable

variable {recoverable : ε → Prop} {stuck stuck' : List β → Nat → Prop} {p : Reader ε β α}

section

variable (hp : Resumable recoverable stuck p)
include hp

theorem of_iff (h : ∀ b c, stuck' b c ↔ stuck b c) : Resumable recoverable stuck' p where
  toFramed := hp.toFramed
  completes hc hr hs := hp.completes hc hr fun h' => hs ((h _ _).mpr h')
  stays hc hs := hp.stays hc ((h _ _).mp hs)
  fresh b hs := hp.fresh b ((h _ _).mp hs)

theorem settles_fresh (b : List β) :
    ∃ t, Settles recoverable (p (b ++ t) b.length) (b ++ t).length := by
  cases hpb : p b b.length with
  | ok ac =>
    obtain ⟨a, c'⟩ := ac
    obtain ⟨h₁, h₂⟩ := hp.bounds (Nat.le_refl _) hpb
    have hend : c' = b.length := Nat.le_antisymm h₂ h₁
    refine ⟨[], .inl ⟨a, ?_⟩⟩
    rw [append_nil, hpb, hend]
  | error e =>
    by_cases hs : recoverable e
    · exact hp.completes (Nat.le_refl _) ⟨e, hpb, hs⟩ (hp.fresh b)
    · refine ⟨[], .inr ⟨e, ?_, hs⟩⟩
      rw [append_nil, hpb]

/-- A recoverable failure can be overcome exactly when the buffer is not stuck. -/
theorem completes_iff (hc : c ≤ b.length) (hr : Recovers recoverable (p b c)) :
    (∃ t, ¬ Recovers recoverable (p (b ++ t) c)) ↔ ¬ stuck b c := by
  constructor
  · intro ⟨t, ht⟩ hs
    exact ht (hp.stays hc hs t)
  · intro hs
    obtain ⟨t, ⟨a, ha⟩ | ⟨e, he, hh⟩⟩ := hp.completes hc hr hs
    · refine ⟨t, fun ⟨e, he, _⟩ => ?_⟩
      rw [ha] at he
      cases he
    · refine ⟨t, fun ⟨e', he', hsoft⟩ => ?_⟩
      rw [he] at he'
      cases he'
      exact hh hsoft

end

theorem of_value {v : Nat → α} (h : ∀ b c, p b c = .ok (v c, c)) :
    Resumable recoverable Never p where
  toFramed := Framed.of_value h
  completes _ hr _ := by
    obtain ⟨e, he, _⟩ := hr
    cases (h _ _).symm.trans he
  stays _ hs := hs.elim
  fresh _ hs := hs

theorem pure (a : α) : Resumable recoverable Never (Pure.pure a : Reader ε β α) :=
  of_value fun _ _ => rfl

theorem position : Resumable recoverable Never (Reader.position : Reader ε β Nat) :=
  of_value fun _ _ => rfl

theorem fail {e : Nat → ε} (hard : ∀ n, ¬ recoverable (e n)) :
    Resumable recoverable Never (Reader.fail e : Reader ε β α) where
  toFramed := Framed.fail e
  completes _ hr _ := by
    obtain ⟨e', he, hsoft⟩ := hr
    cases he
    exact absurd hsoft (hard _)
  stays _ hs := hs.elim
  fresh _ hs := hs

theorem take [Inhabited β] {short : Nat → ε} (soft : ∀ n, recoverable (short n)) (n : Nat) :
    Resumable recoverable Never (Reader.take short n : Reader ε β (List β)) where
  toFramed := Framed.take soft n
  completes := by
    intro b c hc hr _
    have hshort : c + n > b.length := by
      by_contra hlong
      obtain ⟨e, he, _⟩ := hr
      cases (if_neg hlong).symm.trans he
    -- Any items will do.
    have hlen : (b ++ replicate (c + n - b.length) (default : β)).length = c + n := by
      rw [length_append, length_replicate]
      omega
    refine ⟨replicate (c + n - b.length) default, ?_⟩
    rw [hlen]
    unfold Reader.take
    rw [if_neg (by omega)]
    exact .inl ⟨_, rfl⟩
  stays _ hs := hs.elim
  fresh _ hs := hs

variable {f : α → Reader ε β γ} {stuckAfter : α → List β → Nat → Prop} {q : Reader ε β α}

/-- **Sequencing.** -/
theorem bind
    (hp : Resumable recoverable stuck p) (hf : ∀ a, Resumable recoverable (stuckAfter a) (f a)) :
    Resumable recoverable (fun b c => stuck b c ∨ After p stuckAfter b c) (p >>= f) where
  toFramed := hp.toFramed.bind fun a => (hf a).toFramed
  completes := by
    intro b c hc hr hs
    obtain ⟨hsp, hsf⟩ := not_or.mp hs
    cases hpb : p b c with
    | ok ac =>
      obtain ⟨a, c₁⟩ := ac
      obtain ⟨_, h₂⟩ := hp.bounds hc hpb
      rw [run_bind_ok hpb] at hr
      obtain ⟨t, ht⟩ := (hf a).completes h₂ hr fun h => hsf ⟨a, c₁, hpb, h⟩
      refine ⟨t, ?_⟩
      rw [run_bind_ok (hp.append hc hpb t)]
      exact ht
    | error e =>
      have hrp : Recovers recoverable (p b c) := by
        obtain ⟨e', he', hsoft⟩ := hr
        rw [run_bind_error hpb] at he'
        cases he'
        exact ⟨e, hpb, hsoft⟩
      obtain ⟨t, ⟨a, ha⟩ | ⟨e', he', hh⟩⟩ := hp.completes hc hrp hsp
      · -- `p` ends with the buffer, so the rest starts afresh.
        have hct : c ≤ (b ++ t).length := by
          rw [length_append]
          omega
        obtain ⟨t', ht'⟩ := (hf a).settles_fresh (b ++ t)
        refine ⟨t ++ t', ?_⟩
        rw [← append_assoc, run_bind_ok (hp.append hct ha t')]
        exact ht'
      · exact ⟨t, .inr ⟨e', run_bind_error he', hh⟩⟩
  stays := by
    intro b c hc hs t
    rcases hs with hs | ⟨a, c₁, hpa, hs⟩
    · obtain ⟨e, he, hsoft⟩ := hp.stays hc hs t
      exact ⟨e, run_bind_error he, hsoft⟩
    · obtain ⟨_, h₂⟩ := hp.bounds hc hpa
      rw [run_bind_ok (hp.append hc hpa t)]
      exact (hf a).stays h₂ hs t
  fresh := by
    intro b hs
    rcases hs with hs | ⟨a, c₁, hpa, hs⟩
    · exact hp.fresh b hs
    · obtain ⟨h₁, h₂⟩ := hp.bounds (Nat.le_refl _) hpa
      have hend : c₁ = b.length := Nat.le_antisymm h₂ h₁
      rw [hend] at hs
      exact (hf a).fresh b hs

theorem bind_after
    (hp : Resumable recoverable Never p) (hf : ∀ a, Resumable recoverable (stuckAfter a) (f a)) :
    Resumable recoverable (After p stuckAfter) (p >>= f) := by
  refine (hp.bind hf).of_iff fun b c => ?_
  exact ⟨.inr, fun h => h.resolve_left id⟩

theorem bind_before (hp : Resumable recoverable stuck p)
    (hf : ∀ a, Resumable recoverable Never (f a)) : Resumable recoverable stuck (p >>= f) := by
  refine (hp.bind hf).of_iff fun b c => ?_
  refine ⟨.inl, fun h => h.resolve_right ?_⟩
  intro ⟨_, _, _, hs⟩
  exact hs

theorem ite {P : Prop} [Decidable P] (hp : Resumable recoverable stuck p)
    (hq : Resumable recoverable stuck q) : Resumable recoverable stuck (if P then p else q) := by
  by_cases h : P
  · rw [if_pos h]
    exact hp
  · rw [if_neg h]
    exact hq

theorem ite_left {P : Prop} [Decidable P] (hp : Resumable recoverable stuck p)
    (hq : Resumable recoverable Never q) :
    Resumable recoverable (fun b c => P ∧ stuck b c) (if P then p else q) := by
  by_cases h : P
  · rw [if_pos h]
    exact hp.of_iff fun b c => and_iff_right h
  · rw [if_neg h]
    exact hq.of_iff fun b c => iff_of_false (fun hs => h hs.1) id

theorem ite_right {P : Prop} [Decidable P] (hp : Resumable recoverable Never p)
    (hq : Resumable recoverable stuck q) :
    Resumable recoverable (fun b c => ¬ P ∧ stuck b c) (if P then p else q) := by
  by_cases h : P
  · rw [if_pos h]
    exact hp.of_iff fun b c => iff_of_false (fun hs => hs.1 h) id
  · rw [if_neg h]
    exact hq.of_iff fun b c => and_iff_right h

theorem onSlice (hp : Resumable recoverable Never p) :
    Resumable recoverable Never (Reader.onSlice p) where
  toFramed := hp.toFramed.onSlice
  completes := by
    intro b c hc hr _
    have hrp : Recovers recoverable (p (b.drop c) 0) := by
      obtain ⟨e, he, hsoft⟩ := hr
      exact ⟨e, onSlice_error he, hsoft⟩
    obtain ⟨t, ht⟩ := hp.completes (Nat.zero_le _) hrp id
    refine ⟨t, ?_⟩
    rw [← drop_append_of_le_length hc] at ht
    rcases ht with ⟨a, ha⟩ | ⟨e, he, hh⟩
    · refine .inl ⟨a, ?_⟩
      rw [run_onSlice_ok ha, length_drop, Nat.add_sub_cancel' (by
        rw [length_append]
        omega)]
    · exact .inr ⟨e, run_onSlice_error he, hh⟩
  stays _ hs := hs.elim
  fresh _ hs := hs

end Resumable

end Reader

end AeroFtp
