/-
Little-endian byte strings.

A number is written as a fixed count of bytes, least significant first, and read
back.  Every fixed-width integer on the wire goes through these two functions at its
own width, so one round trip serves them all.
-/
import Mathlib.Algebra.Group.Nat.Defs

namespace AeroFtp.LittleEndian

open List

/-- The `k` low bytes of `n`, least significant first. -/
def toLeBytes : Nat → Nat → List UInt8
  | 0, _ => []
  | k + 1, n => UInt8.ofNat n :: toLeBytes k (n / 256)

/-- The number a byte string stands for. -/
def fromLeBytes : List UInt8 → Nat
  | [] => 0
  | b :: bs => b.toNat + 256 * fromLeBytes bs

@[simp] theorem length_toLeBytes (k n : Nat) : (toLeBytes k n).length = k := by
  induction k generalizing n with
  | zero => rfl
  | succ k ih => simp [toLeBytes, ih]

theorem fromLeBytes_toLeBytes (k n : Nat) : fromLeBytes (toLeBytes k n) = n % 256 ^ k := by
  induction k generalizing n with
  | zero => simp [toLeBytes, fromLeBytes, Nat.mod_one]
  | succ k ih =>
    have hb : (UInt8.ofNat n).toNat = n % 256 := UInt8.toNat_ofNat'
    rw [toLeBytes, fromLeBytes, ih, hb, Nat.pow_succ', Nat.mod_mul]

theorem fromLeBytes_toLeBytes_of_lt {k n : Nat} (h : n < 256 ^ k) :
    fromLeBytes (toLeBytes k n) = n := by
  rw [fromLeBytes_toLeBytes, Nat.mod_eq_of_lt h]

theorem fromLeBytes_lt (bs : List UInt8) : fromLeBytes bs < 256 ^ bs.length := by
  induction bs with
  | nil => exact Nat.one_pos
  | cons b bs ih =>
    have hb := b.toNat_lt
    rw [fromLeBytes, length_cons]
    omega

theorem fromLeBytes_append (bs cs : List UInt8) :
    fromLeBytes (bs ++ cs) = fromLeBytes bs + 256 ^ bs.length * fromLeBytes cs := by
  induction bs with
  | nil => simp [fromLeBytes]
  | cons b bs ih =>
    rw [cons_append, fromLeBytes, fromLeBytes, ih, length_cons, Nat.pow_succ']
    rw [Nat.mul_add, Nat.mul_assoc, Nat.add_assoc]

@[simp] theorem fromLeBytes_replicate_zero (n : Nat) : fromLeBytes (replicate n 0) = 0 := by
  induction n with
  | zero => rfl
  | succ n ih => simp [replicate_succ, fromLeBytes, ih]

end AeroFtp.LittleEndian
