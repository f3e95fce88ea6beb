/-
Codes that can be read off the front of a text.

A code is unambiguous where two texts that begin with codes of two values are equal only if the
values are, and what follows.  Parts of fixed length are, and so is what is announced by its
length; lists of such codes need no count.
-/
import AeroFtp.Lib.LittleEndian

namespace AeroFtp.Codes

open List LittleEndian

variable {α β : Type}

/-- Of values with `P`, the code tells the value and where it ends. -/
def Unambiguous (P : α → Prop) (code : α → List β) : Prop :=
  ∀ ⦃x y⦄, P x → P y → ∀ ⦃r s⦄, code x ++ r = code y ++ s → x = y ∧ r = s

theorem unambiguous_toLeBytes (k : Nat) : Unambiguous (· < 256 ^ k) (toLeBytes k) := by
  intro x y hx hy r s h
  obtain ⟨hb, hr⟩ := append_inj h (by rw [length_toLeBytes, length_toLeBytes])
  rw [← fromLeBytes_toLeBytes_of_lt hx, hb, fromLeBytes_toLeBytes_of_lt hy]
  exact ⟨rfl, hr⟩

/-- A byte string behind its length. -/
def lengthPrefixed (k : Nat) (b : List UInt8) : List UInt8 := toLeBytes k b.length ++ b

theorem unambiguous_lengthPrefixed (k : Nat) :
    Unambiguous (·.length < 256 ^ k) (lengthPrefixed k) := by
  intro x y hx hy r s h
  rw [lengthPrefixed, lengthPrefixed, append_assoc, append_assoc] at h
  obtain ⟨hlen, h⟩ := unambiguous_toLeBytes k hx hy h
  exact append_inj h hlen

theorem flatMap_inj {P : α → Prop} {code : α → List β} (hcode : Unambiguous P code)
    (hne : ∀ x, code x ≠ []) {l m : List α} (hl : ∀ x ∈ l, P x) (hm : ∀ x ∈ m, P x)
    (h : l.flatMap code = m.flatMap code) : l = m := by
  induction l generalizing m with
  | nil =>
    cases m with
    | nil => rfl
    | cons y m => exact absurd (append_eq_nil_iff.mp h.symm).1 (hne y)
  | cons x l ih =>
    cases m with
    | nil => exact absurd (append_eq_nil_iff.mp h).1 (hne x)
    | cons y m =>
      obtain ⟨hxy, h⟩ := hcode (hl x mem_cons_self) (hm y mem_cons_self) h
      rw [hxy, ih (fun z hz => hl z (mem_cons_of_mem x hz))
        (fun z hz => hm z (mem_cons_of_mem y hz)) h]

end AeroFtp.Codes
