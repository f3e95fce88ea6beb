/-
A cipher of many blocks made from a cipher of one, by encrypting, mixing and encrypting
again.

Every block is masked and enciphered, the results are mixed with each other through one
more enciphered block, and the mixed ones are enciphered and masked once more.  The inverse
is the same walk with the inverse of the block cipher: the mixing block is met from its
other side.

Nothing is needed of the doubling that spreads the mixing block, nor of the masks; of the
sum of blocks only that it is commutative and associative and that a summand cancels itself.
-/
import Mathlib.Logic.Equiv.Defs
import Mathlib.Data.List.Basic

namespace AeroFtp.Eme

open List

variable {B : Type*} (xor : B → B → B) (double : B → B)

/-- The first `n` doublings of a block: twice it, four times it and so on. -/
def doublings (b : B) : Nat → List B
  | 0 => []
  | n + 1 => double b :: doublings (double b) n

variable (cipher : B → B)

/-- The mixing of the enciphered blocks: the sum of all, with the tweak, is enciphered; what
that changes is spread over the blocks behind the first, and the first takes up the rest. -/
def mix (tweak first : B) (rest : List B) : B × List B :=
  let mp := rest.foldl xor (xor first tweak)
  let mc := cipher mp
  let mixed := rest.zipWith xor (doublings double (xor mp mc) rest.length)
  (mixed.foldl xor (xor mc tweak), mixed)

/-- The whole walk over the blocks. -/
def transform (tweak : B) (masks blocks : List B) : List B :=
  match blocks.zipWith (fun block mask => cipher (xor block mask)) masks with
  | [] => []
  | first :: rest =>
    let (first, rest) := mix xor double cipher tweak first rest
    (first :: rest).zipWith (fun block mask => xor (cipher block) mask) masks

@[simp] theorem length_doublings (b : B) (n : Nat) : (doublings double b n).length = n := by
  induction n generalizing b with
  | zero => rfl
  | succ n ih => rw [doublings, length_cons, ih]

theorem length_mix (tweak first : B) (rest : List B) :
    (mix xor double cipher tweak first rest).2.length = rest.length := by
  simp [mix]

theorem length_transform (tweak : B) {masks blocks : List B} (h : blocks.length = masks.length) :
    (transform xor double cipher tweak masks blocks).length = blocks.length := by
  unfold transform
  have hlen : (blocks.zipWith (fun block mask => cipher (xor block mask)) masks).length
      = blocks.length := by
    rw [length_zipWith, ← h, Nat.min_self]
  split
  case h_1 heq => rw [heq] at hlen; exact hlen
  case h_2 first rest heq =>
    rw [heq, length_cons] at hlen
    rw [length_zipWith, length_cons, length_mix]
    omega

/-! ### The inverse walk -/

theorem zipWith_undo {f g : B → B → B} (hu : ∀ block mask, g (f block mask) mask = block)
    (l masks : List B) (h : l.length = masks.length) : (l.zipWith f masks).zipWith g masks = l := by
  induction l generalizing masks with
  | nil => rfl
  | cons b l ih =>
    cases masks with
    | nil => cases h
    | cons m masks =>
      rw [zipWith_cons_cons, zipWith_cons_cons, hu, ih masks (by simpa using h)]

section Inverse

variable [Std.Associative xor] [Std.Commutative xor] (cancel : ∀ a b, xor (xor a b) b = a)

theorem foldl_xor_left (a b : B) (l : List B) : l.foldl xor (xor a b) = xor (l.foldl xor a) b := by
  induction l generalizing a with
  | nil => rfl
  | cons c l ih =>
    have hs : xor (xor a b) c = xor (xor a c) b := by ac_rfl
    rw [foldl_cons, foldl_cons, hs, ih]

include cancel

theorem foldl_xor_cancel (a t : B) (l : List B) :
    l.foldl xor (xor (l.foldl xor (xor a t)) t) = a := by
  rw [foldl_xor_left xor a t, cancel]
  induction l generalizing a with
  | nil => rfl
  | cons c l ih =>
    rw [foldl_cons, foldl_cons, foldl_xor_left xor a c, cancel]
    exact ih a

/-- **Mixing with the inverse permutation undoes mixing.** -/
theorem mix_symm_mix (σ : Equiv.Perm B) (tweak first : B) (rest : List B) :
    mix xor double σ.symm tweak (mix xor double σ tweak first rest).1
      (mix xor double σ tweak first rest).2 = (first, rest) := by
  -- the sum of the mixed blocks is the enciphered mixing block: the first made up for the others
  have hmp : (mix xor double σ tweak first rest).2.foldl xor
      (xor (mix xor double σ tweak first rest).1 tweak) = σ (rest.foldl xor (xor first tweak)) :=
    foldl_xor_cancel xor cancel _ tweak _
  have hs : xor (σ (rest.foldl xor (xor first tweak))) (rest.foldl xor (xor first tweak))
      = xor (rest.foldl xor (xor first tweak)) (σ (rest.foldl xor (xor first tweak))) :=
    Std.Commutative.comm _ _
  have hr : (mix xor double σ tweak first rest).2.zipWith xor
      (doublings double (xor (rest.foldl xor (xor first tweak))
        (σ (rest.foldl xor (xor first tweak)))) rest.length) = rest :=
    zipWith_undo cancel rest _ (by simp)
  rw [mix, hmp, σ.symm_apply_apply, hs, length_mix, hr, foldl_xor_cancel xor cancel]

/-- **The walk with the inverse permutation gives the blocks back.** -/
theorem transform_symm_transform (σ : Equiv.Perm B) (tweak : B) {masks blocks : List B}
    (h : blocks.length = masks.length) :
    transform xor double σ.symm tweak masks (transform xor double σ tweak masks blocks)
      = blocks := by
  have hb : (blocks.zipWith (fun block mask => σ (xor block mask)) masks).zipWith
      (fun block mask => xor (σ.symm block) mask) masks = blocks :=
    zipWith_undo (fun block mask => by rw [σ.symm_apply_apply, cancel]) blocks masks h
  have hlen : (blocks.zipWith (fun block mask => σ (xor block mask)) masks).length
      = masks.length := by
    rw [length_zipWith, h, Nat.min_self]
  conv => lhs; rw [transform, transform]
  cases henc : blocks.zipWith (fun block mask => σ (xor block mask)) masks with
  | nil =>
    rw [henc] at hb
    exact hb
  | cons first rest =>
    rw [henc] at hb hlen
    have hm : ((mix xor double σ tweak first rest).1 ::
        (mix xor double σ tweak first rest).2).length = masks.length := by
      rw [length_cons, length_mix, ← length_cons, hlen]
    rw [zipWith_undo (fun block mask => by rw [cancel, σ.symm_apply_apply]) _ masks hm]
    simp only
    rw [mix_symm_mix xor double cancel σ tweak first rest]
    exact hb

end Inverse

end AeroFtp.Eme
