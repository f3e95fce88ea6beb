/-
What the delta engine computes.

`compute_delta` is a loop over six variables; `Greedy.walk` is a function of the
source alone.  This file shows they agree: the instructions are the plan of the
walk, with "the first signature whose two checksums are the window's" as the
matcher.  Every later fact about the planner, bulk or streaming, is a fact about
the walk.

Three things have to be seen through on the way.  The rolling checksum is updated
from one window to the next and never recomputed, so it has to be shown equal to a
fresh one (`roll_new`).  The lookup table goes from a checksum to positions in the
signature list, so a hit has to be shown to be the first signature in list order
(`findSignature_eq`).  And the literal buffer is written out lazily, which is what
`Greedy.emit` carries as its pending literal.
-/
import Mathlib.Data.List.GetD
import AeroFtp.Lib.GreedyWalk
import AeroFtp.Aerorsync.DeltaEngine

namespace AeroFtp.DeltaEngine

open Greedy List RollingChecksum DeltaLoop

/-! ### The rolling checksum is the checksum of the window -/

namespace RollingChecksum

theorem foldl_sumByte (data : List UInt8) (a b : UInt32) : data.foldl sumByte (a, b) =
      (a + (data.foldl sumByte (0, 0)).1,
        b + UInt32.ofNat data.length * a + (data.foldl sumByte (0, 0)).2) := by
  induction data generalizing a b with
  | nil => simp
  | cons x xs ih =>
    have hlen : UInt32.ofNat (x :: xs).length = UInt32.ofNat xs.length + 1 := by simp
    rw [foldl_cons, foldl_cons, ih]
    simp only [sumByte, Prod.mk.injEq]
    refine ⟨?_, ?_⟩
    · grind
    · grind

/-- **Rolling by one byte is starting afresh on the next window.** -/
theorem roll_new (old new : UInt8) (mid : List UInt8) :
    (RollingChecksum.new (old :: mid)).roll old new = RollingChecksum.new (mid ++ [new]) := by
  have hlen : UInt32.ofNat (old :: mid).length = UInt32.ofNat mid.length + 1 := by simp
  simp only [RollingChecksum.new, roll, foldl_cons, foldl_append, foldl_nil, hlen]
  rw [foldl_sumByte mid (sumByte (0, 0) old).1]
  simp only [sumByte, mk.injEq, length_cons, length_append, length_nil]
  refine ⟨?_, ?_, trivial⟩
  · grind
  · grind

theorem roll_window {n : Nat} {x y : UInt8} {xs : List UInt8} (h : xs[n]? = some y) :
    (new ((x :: xs).take (n + 1))).roll x y = new (xs.take (n + 1)) := by
  rw [take_succ_cons, roll_new, take_add_one, h]
  rfl

end RollingChecksum

/-! ### The lookup table finds the first matching signature -/

theorem buildLookup_snoc (rollings : List UInt32) (r : UInt32) :
    buildLookup (rollings ++ [r]) = pushEntry (buildLookup rollings) r rollings.length := by
  unfold buildLookup
  rw [zipIdx_append]
  simp

/-- The positions the table lists under `v` are in range, and reading them back gives
the elements whose key is `v`, in order. -/
theorem buildLookup_spec {σ : Type} (key : σ → UInt32) (l : List σ) (v : UInt32) :
    (∀ i ∈ (buildLookup (l.map key) v).getD [], i < l.length) ∧
      ((buildLookup (l.map key) v).getD []).filterMap (l[·]?) = l.filter (key · == v) := by
  induction l using reverseRecOn with
  | nil => simp [buildLookup]
  | append_singleton l x ih =>
    obtain ⟨hlt, hmap⟩ := ih
    have hold : ((buildLookup (l.map key) v).getD []).filterMap ((l ++ [x])[·]?)
        = l.filter (key · == v) := by
      rw [← hmap]
      refine filterMap_congr fun i hi => ?_
      exact getElem?_append_left (hlt i hi)
    rw [map_append, map_singleton, buildLookup_snoc, length_map, pushEntry]
    by_cases hkey : v = key x
    · subst hkey
      rw [Function.update_self]
      refine ⟨?_, ?_⟩
      · intro i hi
        simp only [Option.getD_some, mem_append, mem_singleton] at hi
        simp only [length_append, length_singleton]
        rcases hi with hi | hi
        · exact Nat.lt_succ_of_lt (hlt i hi)
        · omega
      · simp only [Option.getD_some, filterMap_append, hold, filter_append]
        simp
    · rw [Function.update_of_ne hkey]
      refine ⟨?_, ?_⟩
      · intro i hi
        simp only [length_append, length_singleton]
        exact Nat.lt_succ_of_lt (hlt i hi)
      · have hne : (key x == v) = false := by simpa using fun h => hkey h.symm
        rw [hold]
        simp [hne]

section Matching

variable (strongHash : List UInt8 → Digest)

/-- The signature a window is taken for: the first in the table whose rolling
checksum and strong hash are the window's. -/
def matchWindow (sigs : List BlockSignature) (window : List UInt8) : Option BlockSignature :=
  sigs.find? fun sig =>
    sig.rolling == (RollingChecksum.new window).value && sig.strong == strongHash window

theorem findSignature_eq (sigs : List BlockSignature) (window : List UInt8) :
    findSignature strongHash sigs (buildRollingLookup sigs)
      (new window).value window = matchWindow strongHash sigs window := by
  have hs := (buildLookup_spec (·.rolling) sigs (new window).value).2
  have hf : matchWindow strongHash sigs window
      = (((buildRollingLookup sigs (new window).value).getD []).filterMap
          (sigs[·]?)).find? fun sig => sig.strong == strongHash window := by
    unfold matchWindow buildRollingLookup
    rw [hs, find?_filter]
    simp only [Bool.decide_and, Bool.decide_eq_true]
  rw [hf]
  unfold findSignature
  cases buildRollingLookup sigs (new window).value with
  | none => rfl
  | some candidates => rfl

/-- The walk `compute_delta` makes over its source. -/
abbrev deltaWalk (table : SignatureTable) (s : List UInt8) : List (Event UInt8 UInt32) :=
  walk table.blockSize (fun w => (matchWindow strongHash table.signatures w).map (·.index)) s

end Matching

/-! ### The loop of `compute_delta` is the walk

`Settled` is what a loop state stands for: the bytes in front of `pos` are dealt
with, and the rolling checksum is the one of the window at `pos`.  The equations of
the walk then say what each branch of the loop does.
-/

/-- The rolling checksum is up to date at the loop's position. -/
structure Settled (source : List UInt8) (n : Nat) (st : DeltaLoop) : Prop where
  pos : st.pos ≤ source.length
  rolling : st.pos + n ≤ source.length →
    st.rolling = RollingChecksum.new ((source.drop st.pos).take n)

variable (st : DeltaLoop) {source : List UInt8}

@[simp] theorem flushLiteral_pos : st.flushLiteral.pos = st.pos := by
  unfold flushLiteral; split <;> rfl

@[simp] theorem flushLiteral_rolling : st.flushLiteral.rolling = st.rolling := by
  unfold flushLiteral; split <;> rfl

@[simp] theorem flushLiteral_copyBlocks : st.flushLiteral.copyBlocks = st.copyBlocks := by
  unfold flushLiteral; split <;> rfl

@[simp] theorem flushLiteral_literalBuf : st.flushLiteral.literalBuf = [] := by
  unfold flushLiteral
  split
  · rename_i h
    exact isEmpty_iff.mp h
  · rfl

theorem flushLiteral_ops : st.flushLiteral.ops = st.ops ++ flush .literal st.literalBuf := by
  unfold flushLiteral
  cases h : st.literalBuf with
  | nil => simp
  | cons x xs => rfl

theorem flushLiteral_literalTotal :
    st.flushLiteral.literalTotal = st.literalTotal + st.literalBuf.length := by
  unfold flushLiteral
  cases h : st.literalBuf with
  | nil => simp
  | cons x xs => rfl

variable {st : DeltaLoop}

theorem settled_copy {n : Nat} (hle : st.pos + n ≤ source.length) (sig : BlockSignature) :
    Settled source n (st.copy source n sig) := by
  refine ⟨?_, ?_⟩
  · show st.flushLiteral.pos + n ≤ source.length
    rw [flushLiteral_pos]
    exact hle
  · intro hnext
    have hpos : (st.copy source n sig).pos = st.pos + n := by simp [copy]
    rw [hpos] at hnext ⊢
    simp [copy, hnext]

variable {pos : Nat}

theorem drop_eq_getD_cons (h : pos < source.length) :
    source.drop pos = source.getD pos 0 :: source.drop (pos + 1) := by
  rw [drop_eq_getElem_cons h, getD_eq_getElem _ _ h]

theorem settled_skip {n : Nat} (hn : 0 < n)
    (hst : Settled source n st) (hle : st.pos + n ≤ source.length) :
    Settled source n (st.skip source n) := by
  refine ⟨?_, ?_⟩
  · show st.pos + 1 ≤ source.length
    omega
  · intro hnext
    have hnext' : st.pos + 1 + n ≤ source.length := hnext
    obtain ⟨m, rfl⟩ := Nat.exists_eq_succ_of_ne_zero (Nat.ne_of_gt hn)
    have hnew : (source.drop (st.pos + 1))[m]? = some (source.getD (st.pos + (m + 1)) 0) := by
      rw [getElem?_drop, show st.pos + 1 + m = st.pos + (m + 1) by omega,
        getD_eq_getElem?_getD, getElem?_eq_getElem (by omega)]
      rfl
    show (if st.pos + (m + 1) < source.length then _ else _) = _
    rw [if_pos (by omega), hst.rolling hle, drop_eq_getD_cons (by omega)]
    exact roll_window hnew

section Loop

variable (strongHash : List UInt8 → Digest) (source : List UInt8) (table : SignatureTable)

variable (hn : 0 < table.blockSize)
include hn

theorem deltaWalk_hit {sig : BlockSignature} (hle : pos + table.blockSize ≤ source.length)
    (hm : matchWindow strongHash table.signatures ((source.drop pos).take table.blockSize)
      = some sig) :
    deltaWalk strongHash table (source.drop pos)
      = .copy sig.index ((source.drop pos).take table.blockSize)
        :: deltaWalk strongHash table (source.drop (pos + table.blockSize)) := by
  unfold deltaWalk
  rw [walk_hit hn (by rw [length_drop]; omega) (i := sig.index) (by rw [hm]; rfl), drop_drop]

theorem deltaWalk_miss (hle : pos + table.blockSize ≤ source.length)
    (hm : matchWindow strongHash table.signatures ((source.drop pos).take table.blockSize) = none) :
    deltaWalk strongHash table (source.drop pos)
      = .lit (source.getD pos 0) :: deltaWalk strongHash table (source.drop (pos + 1)) := by
  have hwin : table.blockSize ≤ (source.drop pos).length := by
    rw [length_drop]
    omega
  rw [drop_eq_getD_cons (by omega)] at hwin hm ⊢
  exact walk_miss hwin (by rw [hm]; rfl)

/-- **What the loop leaves behind.**  Run from a settled state with enough fuel and
flushed, it has appended the plan of the walk over what was left of the source, and
counted its references and literal bytes. -/
theorem deltaLoop_spec :
    ∀ (fuel : Nat) (st : DeltaLoop), Settled source table.blockSize st →
      source.length < st.pos + fuel →
      let es := deltaWalk strongHash table (source.drop st.pos)
      let r := (deltaLoop strongHash source table (buildRollingLookup table.signatures) fuel
        st).flushLiteral
      r.ops = st.ops ++ plan .literal .copyBlock st.literalBuf es ∧
        r.copyBlocks = st.copyBlocks + UInt32.ofNat (copyCount es) ∧
        r.literalTotal = st.literalTotal + st.literalBuf.length + litCount es := by
  intro fuel
  induction fuel with
  | zero =>
    intro st hst hf
    have := hst.pos
    omega
  | succ fuel ih =>
    intro st hst hf
    rw [deltaLoop]
    by_cases hend : st.pos + table.blockSize > source.length
    · -- Fewer bytes than a window are left: they all become literals.
      have hshort : (source.drop st.pos).length < table.blockSize := by
        rw [length_drop]; omega
      simp only [if_pos hend, flushLiteral_ops, flushLiteral_copyBlocks, flushLiteral_literalTotal]
      unfold deltaWalk
      rw [walk_short hshort]
      refine ⟨?_, ?_, ?_⟩
      · simp only [plan, emit_lits, nil_append]
      · rw [(count_lits _).2]
        simp
      · rw [(count_lits _).1, length_append]
        omega
    · have hle : st.pos + table.blockSize ≤ source.length := by omega
      simp only [if_neg hend]
      rw [extract_eq_take_drop, show st.pos + table.blockSize - st.pos = table.blockSize by
        omega, hst.rolling hle, findSignature_eq]
      cases hm : matchWindow strongHash table.signatures
        ((source.drop st.pos).take table.blockSize) with
      | some sig =>
        obtain ⟨hops, hc, hlit⟩ := ih (st.copy source table.blockSize sig)
          (settled_copy hle sig) (by simp [copy]; omega)
        have hpos : (st.copy source table.blockSize sig).pos = st.pos + table.blockSize := by
          simp [copy]
        rw [hpos] at hops hc hlit
        simp only [deltaWalk_hit strongHash source table hn hle hm, plan_copy,
          litCount_copy, copyCount_copy]
        refine ⟨?_, ?_, ?_⟩
        · rw [hops]
          simp [copy, flushLiteral_ops]
        · rw [hc]
          simp only [copy, flushLiteral_copyBlocks, UInt32.ofNat_add]
          grind
        · rw [hlit]
          simp [copy, flushLiteral_literalTotal]
      | none =>
        obtain ⟨hops, hc, hlit⟩ := ih (st.skip source table.blockSize)
          (settled_skip hn hst hle) (by simp [skip]; omega)
        simp only [deltaWalk_miss strongHash source table hn hle hm, plan_lit,
          litCount_lit, copyCount_lit]
        refine ⟨hops, ?_, ?_⟩
        · exact hc
        · rw [hlit]
          simp only [skip, length_append, length_singleton]
          omega

/-- **`compute_delta` plans the walk.**  The one exception is the empty source, for
which the early return sends a single empty literal where the walk has nothing to
say. -/
theorem computeDelta_spec :
    (computeDelta strongHash source table).1
        = (if source = [] then [.literal []]
          else plan .literal .copyBlock [] (deltaWalk strongHash table source)) ∧
      (computeDelta strongHash source table).2.copyBlocks
        = UInt32.ofNat (copyCount (deltaWalk strongHash table source)) ∧
      (computeDelta strongHash source table).2.literalBytes
        = litCount (deltaWalk strongHash table source) := by
  unfold computeDelta
  by_cases hshort : source.length < table.blockSize
  · have hw : deltaWalk strongHash table source = source.map .lit := walk_short hshort
    simp only [if_pos hshort, hw]
    refine ⟨?_, ?_, ?_⟩
    · cases source with
      | nil => rfl
      | cons x xs =>
        rw [plan, emit_lits]
        rfl
    · rw [(count_lits source).2]
      rfl
    · exact (count_lits source).1.symm
  · have hne : source ≠ [] := by
      intro h
      rw [h] at hshort
      exact hshort hn
    have hst : Settled source table.blockSize
        { ops := [], literalBuf := [], copyBlocks := 0, literalTotal := 0, pos := 0
          rolling := .new (source.take (min table.blockSize source.length)) } := by
      refine ⟨Nat.zero_le _, ?_⟩
      intro hle
      simp [Nat.min_eq_left (show table.blockSize ≤ source.length by omega)]
    obtain ⟨hops, hc, hlit⟩ := deltaLoop_spec strongHash source table hn
      (source.length + 1) _ hst (by simp)
    simp only [if_neg hshort, if_neg hne]
    refine ⟨?_, ?_, ?_⟩
    · simpa using hops
    · simpa using hc
    · simpa using hlit

end Loop

end AeroFtp.DeltaEngine
