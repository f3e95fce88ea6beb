/-
Cutting a range into pieces.

Piece `i` of a plan runs from cut `i` to cut `i + 1`.  The pieces are not empty and make up
the whole range when the cuts rise from its start to its end.
-/
import Mathlib.Algebra.Order.Floor.Div

namespace AeroFtp

/-- The cuts of `n` pieces of `total`, none of them empty. -/
structure Cuts (total n : Nat) (cut : Nat → Nat) : Prop where
  start : cut 0 = 0
  stop : cut n = total
  rises : ∀ i < n, cut i < cut (i + 1)

theorem cuts_mul {total n size : Nat} (hpos : 0 < size) (hin : ∀ i < n, i * size < total)
    (hr : total ≤ n * size) : Cuts total n fun i => min (i * size) total where
  start := by simp
  stop := Nat.min_eq_right hr
  rises i hi := by
    have := hin i hi
    simp only [Nat.succ_mul]
    omega

theorem lt_ceilDiv {k n len : Nat} (hn : 0 < n) : k < len ⌈/⌉ n ↔ k * n < len := by
  rw [← Nat.not_le, ceilDiv_le_iff_le_mul hn, Nat.not_le, Nat.mul_comm]

end AeroFtp
