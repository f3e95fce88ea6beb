/-
Whether a path that a `!` rule re-includes is reached.

A scan goes into an excluded folder only if some `!` rule may match below it, and an anchored
rule without a wildcard is taken to match the one path its glob spells.  A glob that is matched
without regard to case, or that does not compile and is matched as it is written, matches other
paths too: a folder above such a path may be pruned, and then the path is not reached.
-/
import AeroFtp.Proofs.SyncFilter.Ignore

namespace AeroFtp.SyncFilter

open List AeroIgnore

open Sync (Path)

/-- The entry is kept and every folder above it is walked, in each file in which `rule` is the
last one to match the entry, and with each configured list. -/
def AlwaysReached (env : Platform) (rule : IgnoreRule) (p : List Path) (isDir : Bool) : Prop :=
  ∀ content excludes, ((rulesOf (AeroIgnore.parse env content)).filter
      (·.applies (relativeKey p) isDir)).getLast? = some rule →
    scanDecision env (AeroIgnore.parse env content) (relativeKey p) isDir excludes = .keep ∧
      ∀ q, Between [] q p →
        scanDecision env (AeroIgnore.parse env content) (relativeKey q) true excludes ≠ .skip

/-- **What a `!` rule re-includes is always reached** if and only if the rule is not anchored, has
a wildcard left, or spells a path below each folder above the entry. -/
theorem reincluded_reached_iff (env : Platform) (p : List Path) (isDir : Bool) (line : Path)
    (rule : IgnoreRule) (hline : '\n' ∉ line) (hrule : parseLine env line = some rule)
    (hneg : rule.negated = true) (happ : rule.applies (relativeKey p) isDir = true)
    (hsep : ∀ q, Between [] q p → Separable env q p isDir) :
    AlwaysReached env rule p isDir ↔ ∀ q, Between [] q p → rule.Leads (belowKey q) := by
  constructor
  · intro hreached q hq
    by_contra hleads
    -- a file with the rule, and behind it one that excludes the folder
    obtain ⟨other, dirRule, hother, hdirRule, hdirNeg, hdir, hnot⟩ := hsep q hq
    obtain ⟨content, hc⟩ := exists_content env [line, other] (by simp [hline, hother])
    rw [filterMap_cons_some hrule, filterMap_cons_some hdirRule, filterMap_nil] at hc
    have hlast := hreached content noExcludes (by rw [hc]; simp [happ, hnot])
    refine hlast.2 q hq (scanDecision_eq_skip_iff.mpr (pruned_iff.mpr ⟨?_, ?_⟩))
    · rw [isLeftOut_eq, hc, lastMatch_cons, lastMatch_cons, if_pos hdir, hdirNeg]
      rfl
    · simp [hc, hdirNeg, hleads]
  · intro hleads content excludes hlast
    refine ⟨?_, fun q hq hskip => ?_⟩
    · rw [scanDecision_eq_keep_iff, isLeftOut_eq, lastMatch, hlast, Option.map_some, hneg]
      rfl
    · obtain ⟨-, hnone⟩ := pruned_iff.mp (scanDecision_eq_skip_iff.mp hskip)
      exact hnone rule (mem_of_filter_getLast? hlast) hneg (hleads q hq)

/-! ### A folder written in two cases -/

/-- A host on which case makes no difference to a glob. -/
def foldingPlatform : Platform :=
  { plainPlatform with
    build := fun pattern separator insensitive =>
      (plainPlatform.build (pattern.map Char.toLower) separator
      insensitive).map fun isMatch text => isMatch (text.map Char.toLower)
    macos := true }

def keepNames : List Path := ["build".toList, "keep.txt".toList]

/-- The file `build/keep.txt` is re-included by its path: the folder is always walked. -/
theorem reincluded_reached_build :
    ∃ rule, parseLine plainPlatform "!/build/keep.txt".toList = some rule ∧
      AlwaysReached plainPlatform rule keepNames false := by
  have hfolder : ∀ q, Between [] q keepNames → q = buildNames := by
    intro q hq
    have hmem := (mem_inits _ _).mpr hq.above
    have hne := hq.ne_top
    have hne' := hq.ne_bottom
    simp only [keepNames, inits, map_cons, map_nil, mem_cons, not_mem_nil, or_false] at hmem hne'
    exact (hmem.resolve_left hne).resolve_right hne'
  refine ⟨_, rfl, (reincluded_reached_iff plainPlatform keepNames false "!/build/keep.txt".toList _
    (by decide) rfl rfl (by decide +kernel) fun q hq => ?_).mpr fun q hq => ?_⟩
  · rw [hfolder q hq]
    exact ⟨"build/".toList, _, by decide, rfl, rfl, by decide +kernel, by decide +kernel⟩
  · rw [hfolder q hq, ← mayMatchBelow_iff]
    decide +kernel

/-- The same folder, re-included as `/BUILD/keep.txt`: the rule matches the file, and the folder is
pruned. -/
theorem folded_not_reached :
    lastMatch (rulesOf (AeroIgnore.parse foldingPlatform "build\n!/BUILD/keep.txt".toList))
      (relativeKey keepNames) false = some true ∧
    scanDecision foldingPlatform (AeroIgnore.parse foldingPlatform "build\n!/BUILD/keep.txt".toList)
      (relativeKey keepNames) false noExcludes = .keep ∧
    scanDecision foldingPlatform (AeroIgnore.parse foldingPlatform "build\n!/BUILD/keep.txt".toList)
      (relativeKey buildNames) true noExcludes = .skip := by
  refine ⟨?_, ?_, ?_⟩ <;> decide +kernel

end AeroFtp.SyncFilter
