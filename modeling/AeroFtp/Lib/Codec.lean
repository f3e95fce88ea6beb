/-
What a reader makes of what a writer wrote.

`Reads p w a` says that `p` takes the items `w` off a buffer, wherever they stand in it
and whatever follows, and returns `a`.  It is closed under sequencing, so the round trip
of a format follows the format's fields one by one.
-/
import AeroFtp.Lib.Reader

namespace AeroFtp.Reader

open List

variable {ε β α γ : Type}

/-- `p` reads the items `w` as `a`, and no further. -/
def Reads (p : Reader ε β α) (w : List β) (a : α) : Prop :=
  ∀ front t, p (front ++ (w ++ t)) front.length = .ok (a, front.length + w.length)

namespace Reads

variable {p : Reader ε β α} {w v : List β} {a : α} {x : γ}

theorem pure (a : α) : Reads (Pure.pure a : Reader ε β α) [] a := fun _ _ => rfl

variable {f : α → Reader ε β γ}

theorem bind (hp : Reads p w a) (hf : Reads (f a) v x) : Reads (p >>= f) (w ++ v) x := by
  intro front t
  have hfirst := hp front (v ++ t)
  have hn := hf (front ++ w) t
  rw [append_assoc, run_bind_ok hfirst]
  rw [append_assoc, length_append] at hn
  rw [hn, length_append, Nat.add_assoc]

theorem bind_last (hp : Reads p w a) (hf : Reads (f a) [] x) : Reads (p >>= f) w x := by
  have h := hp.bind hf
  rwa [append_nil] at h

theorem pure_of_eq {b : α} (h : b = a) : Reads (Pure.pure b : Reader ε β α) [] a := h ▸ pure b

theorem position {f : Nat → Reader ε β γ} (hf : ∀ n, Reads (f n) w x) :
    Reads (Reader.position >>= f) w x := fun front t => hf front.length front t

theorem take {short : Nat → ε} {n : Nat} (h : w.length = n) : Reads (Reader.take short n) w w := by
  intro front t
  have hlen : front.length + n ≤ (front ++ (w ++ t)).length := by
    rw [length_append, length_append]
    omega
  rw [run_take hlen, drop_left, ← h, take_left]

theorem onSlice (hp : Reads p w a) : Reads (Reader.onSlice p) w a := by
  intro front t
  have h := hp [] t
  rw [nil_append, length_nil, Nat.zero_add] at h
  exact run_onSlice_ok (by rw [drop_left]; exact h)

variable {q : Reader ε β α}

theorem ite_pos {P : Prop} [Decidable P] (h : P) (hp : Reads p w a) :
    Reads (if P then p else q) w a := by
  rwa [if_pos h]

theorem ite_neg {P : Prop} [Decidable P] (h : ¬ P) (hp : Reads p w a) :
    Reads (if P then q else p) w a := by
  rwa [if_neg h]

end Reads

/-- Whatever `p` returns is a `P`. -/
def Returns (p : Reader ε β α) (P : α → Prop) : Prop := ∀ b c a c', p b c = .ok (a, c') → P a

namespace Returns

variable {p : Reader ε β α} {P P' : α → Prop} {Q : γ → Prop} {a : α}

theorem any : Returns p fun _ => True := fun _ _ _ _ _ => trivial

theorem pure (h : P a) : Returns (Pure.pure a : Reader ε β α) P := by
  intro b c a' c' hrun
  cases hrun
  exact h

variable {e : Nat → ε}

theorem fail : Returns (Reader.fail e : Reader ε β α) P := fun _ _ _ _ hrun => nomatch hrun

theorem imp (hp : Returns p P) (h : ∀ a, P a → P' a) : Returns p P' :=
  fun b c a c' hrun => h a (hp b c a c' hrun)

theorem bind {f : α → Reader ε β γ} (hp : Returns p P) (hf : ∀ a, P a → Returns (f a) Q) :
    Returns (p >>= f) Q := by
  intro b c x c' hrun
  obtain ⟨a, c₁, hpa, hfa⟩ := bind_ok hrun
  exact hf a (hp b c a c₁ hpa) _ _ x c' hfa

theorem ite {q : Reader ε β α} {C : Prop} [Decidable C] (hp : Returns p P) (hq : Returns q P) :
    Returns (if C then p else q) P := by
  split
  · exact hp
  · exact hq

theorem ite_neg {C : Prop} [Decidable C] (hp : ¬ C → Returns p P) :
    Returns (if C then Reader.fail e else p) P := by
  split
  · exact fail
  next h => exact hp h

theorem take {short : Nat → ε} {n : Nat} :
    Returns (Reader.take short n : Reader ε β (List β)) fun xs => xs.length = n := by
  intro b c xs c' hrun
  obtain ⟨hlen, rfl, rfl⟩ := take_ok hrun
  rw [extract_eq_take_drop, length_take, length_drop]
  omega

theorem onSlice (hp : Returns p P) : Returns (Reader.onSlice p) P := by
  intro b c a c' hrun
  obtain ⟨n, hpn, -⟩ := onSlice_ok hrun
  exact hp _ _ a n hpn

end Returns

end AeroFtp.Reader
