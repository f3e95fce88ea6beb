/-
What is in the report of a comparison.

The loop over the pairs adds one row after the other: the report shows the rows that are
not of identical files, and counts all of them.
-/
import AeroFtp.Proofs.Sync.Walk
import AeroFtp.Sync.Classify

namespace AeroFtp.Sync

open List CompareReport

variable {nfc : Nfc} {now : DateTime} {locals remotes : Inventory} {options : CompareOptions}
  {index : Option SyncIndex} {pairs : List Pair} {row : FileComparison}

/-- The rows of the pairs that are examined. -/
def rowsOf (nfc : Nfc) (now : DateTime) (locals remotes : Inventory) (options : CompareOptions)
    (index : Option SyncIndex) (pairs : List Pair) : List FileComparison :=
  pairs.filterMap (examine nfc now locals remotes options index)

theorem foldl_add (rows : List FileComparison) (report : CompareReport) :
    (rows.foldl add report).differences = report.differences ++ rows.filter (·.shown) ∧
    (rows.foldl add report).summary.examinedCount = report.summary.examinedCount + rows.length ∧
    (rows.foldl add report).summary.identicalCount =
      report.summary.identicalCount + rows.countP (·.status = .identical) := by
  induction rows generalizing report with
  | nil => simp
  | cons row rows ih =>
    obtain ⟨hd, he, hi⟩ := ih (report.add row)
    rw [foldl_cons, hd, he, hi]
    refine ⟨?_, ?_, ?_⟩
    · by_cases hshown : row.shown = true <;> simp [add, hshown]
    · simp [add, CompareSummary.count]
      omega
    · by_cases hstatus : row.status = .identical
      · simp [add, CompareSummary.count, hstatus]
        omega
      · simp [add, CompareSummary.count, hstatus]

theorem perm_differences :
    (classifyPairs nfc now locals remotes options index pairs).differences.Perm
      ((rowsOf nfc now locals remotes options index pairs).filter (·.shown)) := by
  refine (perm_insertionSort _ _).trans (List.Perm.of_eq ?_)
  rw [(foldl_add _ _).1]
  rfl

theorem mem_differences :
    row ∈ (classifyPairs nfc now locals remotes options index pairs).differences ↔
      ∃ pair ∈ pairs, examine nfc now locals remotes options index pair = some row ∧
        row.shown = true := by
  rw [perm_differences.mem_iff, mem_filter, rowsOf, mem_filterMap]
  constructor
  · rintro ⟨⟨pair, hp, hrow⟩, hs⟩
    exact ⟨pair, hp, hrow, hs⟩
  · rintro ⟨pair, hp, hrow, hs⟩
    exact ⟨⟨pair, hp, hrow⟩, hs⟩

theorem examine_eq_some {pair : Pair} :
    examine nfc now locals remotes options index pair = some row ↔
      passedOver now options pair (pair.localInfo locals) (pair.remoteInfo remotes) = false ∧
      row = comparison nfc locals remotes options index pair (pair.localInfo locals)
        (pair.remoteInfo remotes) := by
  cases hp : passedOver now options pair (pair.localInfo locals) (pair.remoteInfo remotes) with
  | true => simp [examine, hp]
  | false => simp [examine, hp, eq_comm]

theorem comparison_mem_differences {pair : Pair} (hpair : pair ∈ pairs)
    (hpass : passedOver now options pair (pair.localInfo locals) (pair.remoteInfo remotes) = false)
    (hs : pairStatus nfc locals remotes options index pair (pair.localInfo locals)
      (pair.remoteInfo remotes) ≠ .identical) :
    comparison nfc locals remotes options index pair (pair.localInfo locals)
        (pair.remoteInfo remotes) ∈
      (classifyPairs nfc now locals remotes options index pairs).differences :=
  mem_differences.mpr ⟨pair, hpair, examine_eq_some.mpr ⟨hpass, rfl⟩, by
    simp [FileComparison.shown, comparison, hs]⟩

theorem examinedCount_eq :
    (classifyPairs nfc now locals remotes options index pairs).summary.examinedCount =
      (rowsOf nfc now locals remotes options index pairs).length := by
  show (foldl add _ _).summary.examinedCount = _
  rw [(foldl_add _ _).2.1]
  exact Nat.zero_add _

theorem identicalCount_eq :
    (classifyPairs nfc now locals remotes options index pairs).summary.identicalCount =
      (rowsOf nfc now locals remotes options index pairs).countP (·.status = .identical) := by
  show (foldl add _ _).summary.identicalCount = _
  rw [(foldl_add _ _).2.2]
  exact Nat.zero_add _

theorem examinedCount_split :
    (classifyPairs nfc now locals remotes options index pairs).summary.examinedCount =
      (classifyPairs nfc now locals remotes options index pairs).summary.identicalCount +
      (classifyPairs nfc now locals remotes options index pairs).differences.countP
        (·.status ≠ .identical) := by
  rw [examinedCount_eq, identicalCount_eq, perm_differences.countP_eq, countP_filter,
    length_eq_countP_add_countP (fun row : FileComparison => decide (row.status = .identical))]
  congr 1
  refine countP_congr fun row _ => ?_
  by_cases hs : row.status = .identical <;> simp [FileComparison.shown, hs]

end AeroFtp.Sync
