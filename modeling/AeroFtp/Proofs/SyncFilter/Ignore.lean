/-
When an ignored folder stays ignored.

A scan lists an entry exactly if the entry is not excluded and no folder above it is pruned.
An excluded folder is pruned unless some `!` rule may match below it; from there on each entry
is decided alone.  A rule that names the folder, such as `build/`, matches none of what is in
it, so one `!` rule without a slash (`!keep.txt`) is enough to list everything in every folder
that is ignored by name.
-/
import Mathlib.Data.List.DropRight
import Mathlib.Data.List.Infix
import Mathlib.Data.List.Induction
import AeroFtp.SyncFilter.Ignore

namespace AeroFtp.SyncFilter

open List Option AeroIgnore

open Sync (Path trimEndSlash)

variable {name path : Path} {tree : Folder}

/-! ### What a scan lists -/

/-- The folder `q` is below `a` and above `p`. -/
structure Between (a q p : List Path) : Prop where
  below : a <+: q
  ne_top : q ≠ a
  above : q <+: p
  ne_bottom : q ≠ p

variable {p : List Path} {a : List Path} {q : List Path}

theorem Between.lt_length (h : Between a q p) : a.length < q.length ∧ q.length < p.length := by
  constructor
  · refine Nat.lt_of_le_of_ne h.below.length_le fun heq => h.ne_top ?_
    exact (h.below.eq_of_length heq).symm
  · exact Nat.lt_of_le_of_ne h.above.length_le fun heq => h.ne_bottom (h.above.eq_of_length heq)

theorem not_between_child : ¬ Between a q (a ++ [name]) := by
  intro h
  have hlt := h.lt_length
  rw [length_append, length_singleton] at hlt
  omega

theorem between_inside {P : List Path → Prop} (hp : a ++ [name] <+: p) (hne : a ++ [name] ≠ p) :
    (∀ q, Between a q p → P q) ↔ P (a ++ [name]) ∧ ∀ q, Between (a ++ [name]) q p → P q := by
  constructor
  · intro h
    refine ⟨h _ ⟨prefix_append a _, by simp, hp, hne⟩, fun q hq => h q ?_⟩
    have hlt := hq.lt_length.1
    refine ⟨(prefix_append a _).trans hq.below, fun heq => ?_, hq.above, hq.ne_bottom⟩
    rw [heq, length_append] at hlt
    omega
  · intro ⟨hf, h⟩ q hq
    by_cases heq : q = a ++ [name]
    · rw [heq]; exact hf
    · have hlen : (a ++ [name]).length ≤ q.length := by
        rw [length_append]
        exact hq.lt_length.1
      exact h q ⟨prefix_of_prefix_length_le hp hq.above hlen, heq, hq.above, hq.ne_bottom⟩

variable {e : Entry}

theorem entries_below (h : e ∈ tree.entries a) : a <+: e.1 ∧ a ≠ e.1 := by
  induction tree generalizing a with
  | nil => cases h
  | file name rest ih =>
    rcases mem_cons.mp h with rfl | h
    · exact ⟨prefix_append a _, by simp⟩
    · exact ih h
  | folder name inside rest ihi ihr =>
    rcases mem_cons.mp h with rfl | h
    · exact ⟨prefix_append a _, by simp⟩
    rcases mem_append.mp h with h | h
    · obtain ⟨hp, hne⟩ := ihi h
      refine ⟨(prefix_append a _).trans hp, fun heq => ?_⟩
      have hle := hp.length_le
      rw [← heq, length_append, length_singleton] at hle
      omega
    · exact ihr h

section Scan

variable {decide : List Path → Bool → ScanDecision} {a p : List Path} {isDir : Bool}

/-- An entry found below `a` is kept, and no folder on the way to it is pruned. -/
structure Listed (decide : List Path → Bool → ScanDecision) (a p : List Path) (isDir : Bool) :
    Prop where
  kept : decide p isDir = .keep
  walked : ∀ q, Between a q p → decide q true ≠ .skip

theorem listed_child : Listed decide a (a ++ [name]) isDir ↔ decide (a ++ [name]) isDir = .keep :=
  ⟨Listed.kept, fun h => ⟨h, fun _ hq => absurd hq not_between_child⟩⟩

theorem listed_inside (hp : a ++ [name] <+: p) (hne : a ++ [name] ≠ p) :
    Listed decide a p isDir ↔ decide (a ++ [name]) true ≠ .skip ∧
      Listed decide (a ++ [name]) p isDir := by
  have hway := between_inside (P := fun q => decide q true ≠ .skip) hp hne
  constructor
  · intro h
    have hb := hway.mp h.walked
    exact ⟨hb.1, h.kept, hb.2⟩
  · intro h
    exact ⟨h.2.kept, hway.mpr ⟨h.1, h.2.walked⟩⟩

theorem mem_scanRecursive_file {rest : Folder} :
    e ∈ scanRecursive decide a (.file name rest) ↔
      e = (a ++ [name], false) ∧ decide (a ++ [name]) false = .keep ∨
        e ∈ scanRecursive decide a rest := by
  rw [scanRecursive]
  cases decide (a ++ [name]) false <;> simp

theorem mem_scanRecursive_folder {inside rest : Folder} :
    e ∈ scanRecursive decide a (.folder name inside rest) ↔
      e = (a ++ [name], true) ∧ decide (a ++ [name]) true = .keep ∨
        decide (a ++ [name]) true ≠ .skip ∧ e ∈ scanRecursive decide (a ++ [name]) inside ∨
        e ∈ scanRecursive decide a rest := by
  rw [scanRecursive]
  cases decide (a ++ [name]) true <;> simp

/-- **A scan lists the entries that are kept and have no pruned folder above them.** -/
theorem mem_scanRecursive : (p, isDir) ∈ scanRecursive decide a tree ↔
      (p, isDir) ∈ tree.entries a ∧ Listed decide a p isDir := by
  induction tree generalizing a with
  | nil => simp [scanRecursive, Folder.entries]
  | file name rest ih =>
    rw [mem_scanRecursive_file, ih, Folder.entries, mem_cons, or_and_right]
    refine or_congr (and_congr_right fun heq => ?_) Iff.rfl
    cases heq
    exact listed_child.symm
  | folder name inside rest ihi ihr =>
    rw [mem_scanRecursive_folder, ihi, ihr, Folder.entries, mem_cons, mem_append,
      or_and_right, or_and_right, and_left_comm]
    refine or_congr (and_congr_right fun heq => ?_)
      (or_congr (and_congr_right fun hmem => ?_) Iff.rfl)
    · cases heq
      exact listed_child.symm
    · obtain ⟨hp, hne⟩ := entries_below hmem
      exact (listed_inside hp hne).symm

end Scan

/-! ### The last rule that matches decides -/

/-- The rules in force; without a file there are none. -/
def rulesOf (aeroignore : Option AeroIgnore) : List IgnoreRule :=
  aeroignore.elim [] AeroIgnore.rules

variable (env : Platform) (aeroignore : Option AeroIgnore) {rules : List IgnoreRule}

theorem rulesOf_parse (content : Path) :
    rulesOf (parse env content) = (lines content).filterMap (parseLine env) := by
  unfold parse
  cases h : (lines content).filterMap (parseLine env) with
  | nil => rfl
  | cons rule rules => rfl

/-- Whether the last rule that matches an entry is a negation. -/
def lastMatch (rules : List IgnoreRule) (path : Path) (isDir : Bool) : Option Bool :=
  (rules.filter (·.applies path isDir)).getLast?.map IgnoreRule.negated

theorem foldl_last {α β : Type*} (P : α → Bool) (g : α → β) (init : β) (l : List α) :
    l.foldl (fun acc x => if P x then g x else acc) init
      = ((l.filter P).getLast?.map g).getD init := by
  induction l using reverseRecOn with
  | nil => rfl
  | append_singleton l x ih =>
    rw [foldl_append, ih]
    cases hx : P x <;> simp [hx]

/-- **The rules decide by the last one that matches, the configured list where none does.** -/
theorem isLeftOut_eq (path : Path) (isDir : Bool) (excludes : ExcludeMatcher) :
    isLeftOut env aeroignore path isDir excludes
      = ((lastMatch (rulesOf aeroignore) path isDir).map (!·)).getD
        (excludes.isExcluded env path) := by
  cases aeroignore with
  | none => rfl
  | some ignore =>
    rw [isLeftOut, shouldExclude, isIgnored, foldl_last, foldl_last, lastMatch,
      rulesOf, elim_some]
    cases (ignore.rules.filter (·.applies path isDir)).getLast? with
    | none => simp
    | some rule => cases h : rule.negated <;> simp [h]

variable {isDir : Bool}

theorem lastMatch_eq_none_iff :
    lastMatch rules path isDir = none ↔ ∀ rule ∈ rules, rule.applies path isDir = false := by
  rw [lastMatch, map_eq_none_iff, getLast?_eq_none_iff, filter_eq_nil_iff]
  simp only [Bool.not_eq_true]

theorem exists_of_lastMatch {negated : Bool} (h : lastMatch rules path isDir = some negated) :
    ∃ rule ∈ rules, rule.negated = negated ∧ rule.applies path isDir = true := by
  obtain ⟨rule, hl, hneg⟩ := map_eq_some_iff.mp h
  have hmem := mem_filter.mp (mem_of_getLast? hl)
  exact ⟨rule, hmem.1, hneg, hmem.2⟩

theorem lastMatch_append (before after : List IgnoreRule) (path : Path) (isDir : Bool) :
    lastMatch (before ++ after) path isDir
      = (lastMatch after path isDir).or (lastMatch before path isDir) := by
  rw [lastMatch, filter_append, getLast?_append, lastMatch, lastMatch, map_or]

theorem lastMatch_cons (rule : IgnoreRule) (after : List IgnoreRule) (path : Path) (isDir : Bool) :
    lastMatch (rule :: after) path isDir = (lastMatch after path isDir).or
          (if rule.applies path isDir then some rule.negated else none) := by
  rw [← singleton_append, lastMatch_append]
  cases h : rule.applies path isDir <;> simp [lastMatch, h]

/-! ### What a scan decides -/

section Decide

variable (env : Platform) (aeroignore : Option AeroIgnore) (excludes : ExcludeMatcher)

/-- An excluded directory below which no `!` rule may re-include anything. -/
def Pruned (names : List Path) : Prop :=
  isLeftOut env aeroignore (relativeKey names) true excludes = true ∧
    ∀ ignore ∈ aeroignore, ignore.mayReincludeBelow (relativeKey names) = false

/-- Some folder above the entry is pruned. -/
def PrunedAbove (p : List Path) : Prop := ∃ q, Between [] q p ∧ Pruned env aeroignore excludes q

variable {env aeroignore excludes}

theorem scanDecision_eq_keep_iff :
    scanDecision env aeroignore path isDir excludes = .keep ↔
      isLeftOut env aeroignore path isDir excludes = false := by
  unfold scanDecision
  cases isLeftOut env aeroignore path isDir excludes with
  | false => simp
  | true =>
    split <;> simp

theorem scanDecision_eq_skip_iff {names : List Path} :
    scanDecision env aeroignore (relativeKey names) true excludes = .skip ↔
      Pruned env aeroignore excludes names := by
  unfold scanDecision Pruned
  cases isLeftOut env aeroignore (relativeKey names) true excludes with
  | false => simp
  | true =>
    cases aeroignore with
    | none => simp
    | some ignore => cases h : ignore.mayReincludeBelow (relativeKey names) <;> simp

theorem mem_scanned_iff (hp : (p, isDir) ∈ tree.entries []) :
    (p, isDir) ∈ scanned env aeroignore excludes tree ↔
      isLeftOut env aeroignore (relativeKey p) isDir excludes = false ∧
        ¬ PrunedAbove env aeroignore excludes p := by
  rw [scanned, mem_scanRecursive]
  constructor
  · intro ⟨_, hl⟩
    refine ⟨scanDecision_eq_keep_iff.mp hl.kept, fun ⟨q, hq, hpruned⟩ => ?_⟩
    exact hl.walked q hq (scanDecision_eq_skip_iff.mpr hpruned)
  · intro ⟨hk, hway⟩
    refine ⟨hp, scanDecision_eq_keep_iff.mpr hk, fun q hq hs => ?_⟩
    exact hway ⟨q, hq, scanDecision_eq_skip_iff.mp hs⟩

end Decide

/-! ### Below a folder -/

/-- The rule is not anchored, has a wildcard left, or spells a path with this beginning. -/
def IgnoreRule.Leads (rule : IgnoreRule) (start : Path) : Prop :=
  ['*', '*', '/'] <+: rule.glob ∨
    ∀ literal, anchoredLiteralPath rule.glob = some literal → start <+: literal

theorem mayMatchBelow_iff {rule : IgnoreRule} {below : Path} :
    rule.mayMatchBelow below = true ↔ rule.Leads below := by
  unfold IgnoreRule.mayMatchBelow IgnoreRule.Leads
  by_cases h : ['*', '*', '/'].isPrefixOf rule.glob = true
  · rw [if_pos h]
    exact iff_of_true rfl (.inl ( isPrefixOf_iff_prefix.mp h))
  · rw [if_neg h, or_iff_right (mt isPrefixOf_iff_prefix.mpr h)]
    cases anchoredLiteralPath rule.glob <;> simp

theorem IgnoreRule.Leads.mono {rule : IgnoreRule} {start start' : Path} (h : rule.Leads start)
    (hpre : start' <+: start) : rule.Leads start' :=
  h.imp_right fun hl literal hs => hpre.trans (hl literal hs)

/-- The beginning of the keys below a folder, as `may_reinclude_below` takes it. -/
def belowKey (names : List Path) : Path := trimEndSlash (relativeKey names) ++ ['/']

theorem trimEndSlash_concat (key : Path) (ch : Char) :
    trimEndSlash (key ++ [ch]) = if ch == '/' then trimEndSlash key else key ++ [ch] :=
  rdropWhile_concat ..

theorem prefix_trimEndSlash (key : Path) : trimEndSlash key ++ ['/'] <+: key ++ ['/'] := by
  induction key using reverseRecOn with
  | nil => exact prefix_rfl
  | append_singleton key ch ih =>
    rw [trimEndSlash_concat]
    split
    · next hc =>
        rw [eq_of_beq hc]
        exact ih.trans (prefix_append _ _)
    · exact prefix_rfl

theorem trimEndSlash_mono {start key : Path} (h : start <+: key) :
    trimEndSlash start <+: trimEndSlash key := by
  induction key using reverseRecOn with
  | nil =>
    rw [prefix_nil.mp h]
  | append_singleton key ch ih =>
    rcases prefix_concat_iff.mp h with rfl | h
    · exact prefix_rfl
    rw [trimEndSlash_concat]
    split
    · exact ih h
    · exact ( rdropWhile_prefix _ start).trans (h.trans (prefix_append _ _))

theorem relativeKey_append {rest : List Path} (hq : q ≠ []) (hr : rest ≠ []) :
    relativeKey q ++ ['/'] <+: relativeKey (q ++ rest) := by
  unfold relativeKey
  induction q with
  | nil => exact absurd rfl hq
  | cons name q ih =>
    rw [cons_append, intercalate_cons_of_ne_nil (append_ne_nil_of_right_ne_nil q hr), append_assoc]
    by_cases hnil : q = []
    · rw [hnil, intercalate_singleton]
      exact (prefix_append_right_inj name).mpr (prefix_append ..)
    · rw [intercalate_cons_of_ne_nil hnil, append_assoc, append_assoc]
      exact (prefix_append_right_inj name).mpr ((prefix_append_right_inj _).mpr (ih hnil))

theorem belowKey_prefix_of (hq : q ≠ []) (h : q <+: p) (hne : q ≠ p) :
    belowKey q <+: relativeKey p := by
  obtain ⟨rest, rfl⟩ := h
  have hr : rest ≠ [] := fun hnil => hne (by rw [hnil, append_nil])
  exact (prefix_trimEndSlash _).trans (relativeKey_append hq hr)

theorem belowKey_mono (hq : q ≠ []) (h : q <+: p) : belowKey q <+: belowKey p := by
  by_cases hne : q = p
  · rw [hne]
  · have hkey := belowKey_prefix_of hq h hne
    refine prefix_of_prefix_length_le (hkey.trans (prefix_append _ ['/']))
      (prefix_trimEndSlash _) ?_
    have hlen := (trimEndSlash_mono ((prefix_append _ ['/']).trans hkey)).length_le
    rw [belowKey, belowKey, length_append, length_append]
    have htrim : trimEndSlash (trimEndSlash (relativeKey q)) = trimEndSlash (relativeKey q) :=
      rdropWhile_idempotent _ _
    rw [htrim] at hlen
    exact Nat.add_le_add_right hlen _

section Decide

variable {env : Platform} {aeroignore : Option AeroIgnore} {excludes : ExcludeMatcher}

theorem pruned_iff : Pruned env aeroignore excludes q ↔
    isLeftOut env aeroignore (relativeKey q) true excludes = true ∧
      ∀ rule ∈ rulesOf aeroignore, rule.negated = true → ¬ rule.Leads (belowKey q) := by
  refine and_congr_right fun _ => ?_
  simp only [← mayMatchBelow_iff, Bool.not_eq_true]
  cases aeroignore with
  | none => simp [rulesOf]
  | some ignore => simp [rulesOf, mayReincludeBelow, belowKey]

theorem mem_entries_of_scanned (h : e ∈ scanned env aeroignore excludes tree) :
    e ∈ tree.entries [] :=
  (mem_scanRecursive.mp h).1

/-- No negated rule matches the entry. -/
def NotReincluded (aeroignore : Option AeroIgnore) (path : Path) (isDir : Bool) : Prop :=
  ∀ rule ∈ rulesOf aeroignore, rule.negated = true → rule.applies path isDir = false

/-- Such an entry is left out where a rule matches it. -/
theorem isLeftOut_of_applies {rule : IgnoreRule} (hr : rule ∈ rulesOf aeroignore)
    (happ : rule.applies path isDir = true) (hno : NotReincluded aeroignore path isDir) :
    isLeftOut env aeroignore path isDir excludes = true := by
  rw [isLeftOut_eq]
  cases hl : lastMatch (rulesOf aeroignore) path isDir with
  | none =>
    rw [lastMatch_eq_none_iff.mp hl rule hr] at happ
    cases happ
  | some negated =>
    obtain ⟨last, hmem, hneg, hlast⟩ := exists_of_lastMatch hl
    cases negated with
    | false => rfl
    | true =>
      rw [hno last hmem hneg] at hlast
      cases hlast

theorem cases_of_isLeftOut (h : isLeftOut env aeroignore path isDir excludes = true) :
    (∃ rule ∈ rulesOf aeroignore, rule.negated = false ∧ rule.applies path isDir = true) ∨
      excludes.isExcluded env path = true := by
  rw [isLeftOut_eq] at h
  cases hl : lastMatch (rulesOf aeroignore) path isDir with
  | none =>
    rw [hl] at h
    exact .inr h
  | some negated =>
    rw [hl] at h
    obtain ⟨rule, hr, hneg, happ⟩ := exists_of_lastMatch hl
    refine .inl ⟨rule, hr, ?_, happ⟩
    cases negated with
    | false => exact hneg
    | true => cases h

/-- The same where the configured list matches it. -/
theorem isLeftOut_of_isExcluded (hex : excludes.isExcluded env path = true)
    (hno : NotReincluded aeroignore path isDir) :
    isLeftOut env aeroignore path isDir excludes = true := by
  by_cases h : ∃ rule ∈ rulesOf aeroignore, rule.applies path isDir = true
  · obtain ⟨rule, hr, happ⟩ := h
    exact isLeftOut_of_applies hr happ hno
  · rw [isLeftOut_eq, lastMatch_eq_none_iff.mpr fun rule hr => ?_]
    · exact hex
    · exact Bool.eq_false_iff.mpr fun happ => h ⟨rule, hr, happ⟩

end Decide

/-! ### A file of given rules -/

/-- Lines without a line break are the lines of a text. -/
theorem exists_lines (ls : List Path) (h : ∀ line ∈ ls, '\n' ∉ line) :
    ∃ content, lines content = ls := by
  have hline : ∀ (line acc rest : Path), '\n' ∉ line →
      linesFrom acc (line ++ '\r' :: '\n' :: rest) = (acc.reverse ++ line) :: lines rest := by
    intro line
    induction line with
    | nil =>
      intro acc rest _
      simp [linesFrom, lines]
    | cons ch line ih =>
      intro acc rest hn
      rw [mem_cons, not_or] at hn
      have hstep : linesFrom acc (ch :: line ++ '\r' :: '\n' :: rest)
          = linesFrom (ch :: acc) (line ++ '\r' :: '\n' :: rest) := if_neg (Ne.symm hn.1)
      rw [hstep, ih _ _ hn.2, reverse_cons, append_assoc, singleton_append]
  induction ls with
  | nil => exact ⟨[], rfl⟩
  | cons line ls ih =>
    obtain ⟨hl, hls⟩ := forall_mem_cons.mp h
    obtain ⟨content, hc⟩ := ih hls
    exact ⟨line ++ '\r' :: '\n' :: content, by rw [lines, hline line [] content hl, hc]; rfl⟩

/-- Some content has exactly the rules of these lines. -/
theorem exists_content (ls : List Path) (h : ∀ line ∈ ls, '\n' ∉ line) :
    ∃ content, rulesOf (parse env content) = ls.filterMap (parseLine env) := by
  obtain ⟨content, hc⟩ := exists_lines ls h
  exact ⟨content, by rw [rulesOf_parse, hc]⟩

/-- Some negated rule matches the entry, or a directory on the way from `d` to it. -/
def ReincludedFrom (rules : List IgnoreRule) (d p : List Path) (isDir : Bool) : Prop :=
  ∃ rule ∈ rules, rule.negated = true ∧
    (rule.applies (relativeKey p) isDir = true ∨
      ∃ q, d <+: q ∧ q <+: p ∧ q ≠ p ∧ rule.applies (relativeKey q) true = true)

theorem not_reincludedFrom {d : List Path} {isDir : Bool}
    (h : ∀ rule ∈ rules, rule.negated = true → ∀ q ∈ p.inits, ∀ isDir,
      rule.applies (relativeKey q) isDir = false) : ¬ ReincludedFrom rules d p isDir := by
  intro ⟨rule, hrule, hneg, happ⟩
  rcases happ with happ | ⟨q, _, hq, _, happ⟩
  · rw [h rule hrule hneg p (by simp)] at happ
    cases happ
  · rw [h rule hrule hneg q ((mem_inits _ _).mpr hq)] at happ
    cases happ

/-! ### What excludes a folder, and what is in it -/

/-- What excludes a folder matches the entry as well, or a directory on the way from `d` to it
below which no rule of `keeps` leads. -/
def StopsAt (hit : Path → Bool → Bool) (keeps : List IgnoreRule) (d p : List Path)
    (isDir : Bool) : Prop :=
  hit (relativeKey p) isDir = true ∨
    ∃ q, d <+: q ∧ q <+: p ∧ q ≠ p ∧ hit (relativeKey q) true = true ∧
      ∀ rule ∈ keeps, ¬ rule.Leads (belowKey q)

section Stops

variable {env : Platform} {aeroignore : Option AeroIgnore} {excludes : ExcludeMatcher}
  {hit : Path → Bool → Bool} {keeps : List IgnoreRule} {d : List Path} {isDir : Bool}

theorem notMem_scanned (hd : d ≠ [])
    (hkeeps : ∀ rule ∈ rulesOf aeroignore, rule.negated = true → rule ∈ keeps)
    (hquiet : ¬ ReincludedFrom keeps d p isDir) (hleft : ∀ path isDir, hit path isDir = true →
      NotReincluded aeroignore path isDir → isLeftOut env aeroignore path isDir excludes = true)
    (h : StopsAt hit keeps d p isDir) : (p, isDir) ∉ scanned env aeroignore excludes tree := by
  intro hmem
  obtain ⟨hk, hway⟩ := (mem_scanned_iff (mem_entries_of_scanned hmem)).mp hmem
  rcases h with h | ⟨q, hdq, hqp, hne, hq, hleads⟩
  · rw [hleft _ _ h fun rule hr hneg => ?_] at hk
    · cases hk
    · exact Bool.eq_false_iff.mpr fun happ => hquiet ⟨rule, hkeeps rule hr hneg, hneg, .inl happ⟩
  · refine hway ⟨q, ⟨ nil_prefix, ?_, hqp, hne⟩, pruned_iff.mpr ⟨hleft _ _ hq ?_, ?_⟩⟩
    · intro hnil
      exact hd (prefix_nil.mp (hnil ▸ hdq))
    · intro rule hr hneg
      exact Bool.eq_false_iff.mpr fun happ =>
        hquiet ⟨rule, hkeeps rule hr hneg, hneg, .inr ⟨q, hdq, hqp, hne, happ⟩⟩
    · exact fun rule hr hneg => hleads rule (hkeeps rule hr hneg)

theorem mem_scanned_of_not_stopsAt (hdp : d <+: p) (hne : d ≠ p)
    (hkeeps : ∀ rule ∈ keeps, rule ∈ rulesOf aeroignore ∧ rule.negated = true)
    (hhit : hit (relativeKey d) true = true)
    (hleft : ∀ path isDir, isLeftOut env aeroignore path isDir excludes = true →
      hit path isDir = true)
    (h : ¬ StopsAt hit keeps d p isDir) (hp : (p, isDir) ∈ tree.entries []) :
    (p, isDir) ∈ scanned env aeroignore excludes tree := by
  have hled : ∀ q, d <+: q → q <+: p → q ≠ p → hit (relativeKey q) true = true →
      ∃ rule ∈ keeps, rule.Leads (belowKey q) := by
    intro q hdq hqp hqne hq
    by_contra hnone
    exact h (.inr ⟨q, hdq, hqp, hqne, hq, fun rule hr hl => hnone ⟨rule, hr, hl⟩⟩)
  refine (mem_scanned_iff hp).mpr ⟨Bool.eq_false_iff.mpr fun hl => h (.inl (hleft _ _ hl)), ?_⟩
  intro ⟨q, hq, hpruned⟩
  obtain ⟨hl, hnone⟩ := pruned_iff.mp hpruned
  -- a folder above `d` is on the way of what leads below `d`
  obtain ⟨rule, hr, hleads⟩ : ∃ rule ∈ keeps, rule.Leads (belowKey q) := by
    rcases prefix_or_prefix_of_prefix hq.above hdp with hqd | hdq
    · obtain ⟨rule, hr, hleads⟩ := hled d prefix_rfl hdp hne hhit
      exact ⟨rule, hr, hleads.mono (belowKey_mono hq.ne_top hqd)⟩
    · exact hled q hdq hq.above hq.ne_bottom (hleft _ _ hl)
  exact hnone rule (hkeeps rule hr).1 (hkeeps rule hr).2 hleads

end Stops

/-! ### One more negation -/

section OneMore

variable {env : Platform} {excludes : ExcludeMatcher} {aeroignore more : Option AeroIgnore}
  {before after : List IgnoreRule} {rule : IgnoreRule} {d : List Path}

variable {isDir : Bool}

theorem isLeftOut_of_more (hr : rulesOf aeroignore = before ++ after)
    (hm : rulesOf more = before ++ rule :: after) (hneg : rule.negated = true)
    (h : isLeftOut env more path isDir excludes = true) :
    isLeftOut env aeroignore path isDir excludes = true := by
  rw [isLeftOut_eq, hm, lastMatch_append, lastMatch_cons, hneg] at h
  rw [isLeftOut_eq, hr, lastMatch_append]
  cases hl : lastMatch after path isDir with
  | some negated =>
    rw [hl] at h
    exact h
  | none =>
    cases ha : rule.applies path isDir with
    | true => rw [hl, ha] at h; cases h
    | false => rw [hl, ha] at h; exact h

theorem isLeftOut_more (hr : rulesOf aeroignore = before ++ after)
    (hm : rulesOf more = before ++ rule :: after) (ha : rule.applies path isDir = false) :
    isLeftOut env more path isDir excludes = isLeftOut env aeroignore path isDir excludes := by
  rw [isLeftOut_eq, isLeftOut_eq, hm, hr, lastMatch_append, lastMatch_append, lastMatch_cons, ha]
  simp

theorem mem_more (hr : rulesOf aeroignore = before ++ after)
    (hm : rulesOf more = before ++ rule :: after) {other : IgnoreRule} :
    other ∈ rulesOf more ↔ other = rule ∨ other ∈ rulesOf aeroignore := by
  rw [hr, hm, mem_append, mem_cons, mem_append]
  tauto

/-- A rule that leads nowhere below an excluded folder, and matches nothing there, leaves what
is listed there. -/
theorem scanned_more (before after : List IgnoreRule) (hr : rulesOf aeroignore = before ++ after)
    (hm : rulesOf more = before ++ rule :: after) (hneg : rule.negated = true)
    (hnothing : ∀ q isDir, d <+: q → rule.applies (relativeKey q) isDir = false)
    (hleads : ¬ rule.Leads (belowKey d)) (hd : d ≠ []) (hdp : d <+: p) (hne : d ≠ p)
    (hl : isLeftOut env aeroignore (relativeKey d) true excludes = true) :
    (p, isDir) ∈ scanned env more excludes tree ↔
      (p, isDir) ∈ scanned env aeroignore excludes tree := by
  have hbelow : ∀ q, Pruned env aeroignore excludes q → d <+: q → Pruned env more excludes q := by
    intro q hq hdq
    obtain ⟨hlq, hnone⟩ := pruned_iff.mp hq
    refine pruned_iff.mpr ⟨(isLeftOut_more hr hm (hnothing q true hdq)).trans hlq, ?_⟩
    intro other ho hno hlo
    rcases (mem_more hr hm).mp ho with rfl | ho
    · exact hleads (hlo.mono (belowKey_mono hd hdq))
    · exact hnone other ho hno hlo
  have hprune : PrunedAbove env more excludes p ↔ PrunedAbove env aeroignore excludes p := by
    constructor
    · intro ⟨q, hq, hpruned⟩
      obtain ⟨hlq, hnone⟩ := pruned_iff.mp hpruned
      refine ⟨q, hq, pruned_iff.mpr ⟨isLeftOut_of_more hr hm hneg hlq, fun other ho => ?_⟩⟩
      exact hnone other ((mem_more hr hm).mpr (.inr ho))
    · intro ⟨q, hq, hpruned⟩
      rcases prefix_or_prefix_of_prefix hdp hq.above with hdq | hqd
      · exact ⟨q, hq, hbelow q hpruned hdq⟩
      · -- what is pruned above `d` has no rule that leads below `d`
        refine ⟨d, ⟨ nil_prefix, hd, hdp, hne⟩, hbelow d (pruned_iff.mpr ⟨hl, ?_⟩) prefix_rfl⟩
        intro other ho hno hlo
        exact (pruned_iff.mp hpruned).2 other ho hno (hlo.mono (belowKey_mono hq.ne_top hqd))
  by_cases hp : (p, isDir) ∈ tree.entries []
  · rw [mem_scanned_iff hp, mem_scanned_iff hp, hprune, isLeftOut_more hr hm (hnothing p isDir hdp)]
  · exact iff_of_false (mt mem_entries_of_scanned hp) (mt mem_entries_of_scanned hp)

end OneMore

/-! ### Ignored folders -/

/-- No configured pattern. -/
def noExcludes : ExcludeMatcher := { patterns := [], asWritten := [], everything := false }

variable (env : Platform) (tree : Folder) (keeps : List Path) (d p : List Path) (isDir : Bool)

/-- The negated rules of a content. -/
def negations (content : Path) : List IgnoreRule :=
  (rulesOf (parse env content)).filter (·.negated)

/-- Lines of `!` rules that match neither the entry nor a directory on the way from `d` to it. -/
structure QuietKeeps : Prop where
  oneLine : ∀ line ∈ keeps, '\n' ∉ line
  negated : ∀ rule ∈ keeps.filterMap (parseLine env), rule.negated = true
  quiet : ¬ ReincludedFrom (keeps.filterMap (parseLine env)) d p isDir

/-- The entry is listed under no content with these `!` rules and no list for which `excluded`
holds. -/
def StaysOut (excluded : Path → ExcludeMatcher → Prop) : Prop :=
  ∀ content excludes, negations env content = keeps.filterMap (parseLine env) →
    excluded content excludes →
    (p, isDir) ∉ scanned env (parse env content) excludes tree

/-- The rule is the last one of the content to match the folder. -/
def ExcludedByRule (rule : IgnoreRule) (content : Path) (_ : ExcludeMatcher) : Prop :=
  ((rulesOf (parse env content)).filter
    (·.applies (relativeKey d) true)).getLast? = some rule

/-- The configured list is this one, and no rule of the content matches the folder. -/
def ExcludedByList (list : ExcludeMatcher) (content : Path) (excludes : ExcludeMatcher) : Prop :=
  excludes = list ∧ ∀ rule ∈ rulesOf (parse env content),
    rule.applies (relativeKey d) true = false

/-- The line, added to any content, changes nothing of what is listed below the folder `d` where
it is ignored. -/
def ChangesNothingBelow (line : Path) : Prop :=
  ∀ content content' before after excludes p isDir,
    lines content = before ++ after → lines content' = before ++ line :: after →
    scanDecision env (parse env content) (relativeKey d) true excludes ≠ .keep →
    d <+: p → d ≠ p →
    ((p, isDir) ∈ scanned env (parse env content') excludes tree ↔
      (p, isDir) ∈ scanned env (parse env content) excludes tree)

/-- Some rule excludes the folder `d` and does not match the entry: with globset, the path of the
folder and a slash. -/
def Separable : Prop :=
  ∃ line rule, '\n' ∉ line ∧ parseLine env line = some rule ∧ rule.negated = false ∧
    rule.applies (relativeKey d) true = true ∧ rule.applies (relativeKey p) isDir = false

variable {env tree keeps d p isDir}

theorem mem_of_filter_getLast? {α : Type*} {P : α → Bool} {l : List α} {x : α}
    (h : (l.filter P).getLast? = some x) : x ∈ l :=
  mem_of_mem_filter (mem_of_getLast? h)

theorem QuietKeeps.not_applies (hkeeps : QuietKeeps env keeps d p isDir) (hdp : d <+: p)
    (hne : d ≠ p) : ∀ rule ∈ keeps.filterMap (parseLine env),
      rule.applies (relativeKey d) true = false :=
  fun rule hr => Bool.eq_false_iff.mpr fun happ =>
    hkeeps.quiet ⟨rule, hr, hkeeps.negated rule hr, .inr ⟨d, prefix_rfl, hdp, hne, happ⟩⟩

section StaysOut

variable (hp : (p, isDir) ∈ tree.entries []) (hd : d ≠ []) (hdp : d <+: p) (hne : d ≠ p)
  (hkeeps : QuietKeeps env keeps d p isDir)
include hp hd hdp hne hkeeps

/-- What is listed is decided by the content with the rules of the lines `own` alone. -/
theorem staysOut_iff {excluded : Path → ExcludeMatcher → Prop} {hit : Path → Bool → Bool}
    (own : List Path) (list : ExcludeMatcher) (hown : ∀ line ∈ own, '\n' ∉ line)
    (hpos : ∀ rule ∈ own.filterMap (parseLine env), rule.negated = false)
    (hmatch : hit (relativeKey d) true = true)
    (hleft : ∀ content excludes, excluded content excludes → ∀ path isDir, hit path isDir = true →
      NotReincluded (parse env content) path isDir →
      isLeftOut env (parse env content) path isDir excludes = true)
    (hown' : ∀ content, rulesOf (parse env content) =
        own.filterMap (parseLine env) ++ keeps.filterMap (parseLine env) →
      excluded content list ∧ ∀ path isDir,
        isLeftOut env (parse env content) path isDir list = true → hit path isDir = true) :
    StaysOut env tree keeps p isDir excluded ↔
      StopsAt hit (keeps.filterMap (parseLine env)) d p isDir := by
  constructor
  · intro hout
    by_contra hstops
    obtain ⟨content, hc⟩ := exists_content env (own ++ keeps)
      (forall_mem_append.mpr ⟨hown, hkeeps.oneLine⟩)
    rw [filterMap_append] at hc
    obtain ⟨hexcluded, hhit⟩ := hown' content hc
    refine hout content list ?_ hexcluded (mem_scanned_of_not_stopsAt hdp hne
      (fun rule hr => ⟨hc ▸ mem_append_right _ hr, hkeeps.negated rule hr⟩) hmatch hhit hstops hp)
    rw [negations, hc, filter_append, filter_eq_nil_iff.mpr (by simpa using hpos), nil_append]
    exact filter_eq_self.mpr hkeeps.negated
  · intro hstops content excludes hneg hexcluded
    refine notMem_scanned hd (fun rule hr hrule => ?_) hkeeps.quiet
      (hleft content excludes hexcluded) hstops
    exact hneg ▸ mem_filter.mpr ⟨hr, hrule⟩

theorem staysOut_rule_iff {line : Path} {rule : IgnoreRule} (hline : '\n' ∉ line)
    (hrule : parseLine env line = some rule) (hneg : rule.negated = false)
    (hmatch : rule.applies (relativeKey d) true = true) :
    StaysOut env tree keeps p isDir (ExcludedByRule env d rule) ↔
      StopsAt rule.applies (keeps.filterMap (parseLine env)) d p isDir := by
  have hown : [line].filterMap (parseLine env) = [rule] := by
    rw [filterMap_cons_some hrule, filterMap_nil]
  refine staysOut_iff hp hd hdp hne hkeeps [line] noExcludes
    (by simpa using hline) (by simpa [hown] using hneg) hmatch
    (fun content excludes hlast path isDir happ hno => ?_) fun content hc => ⟨?_, ?_⟩
  · exact isLeftOut_of_applies (mem_of_filter_getLast? hlast) happ hno
  · have hquiet : (keeps.filterMap (parseLine env)).filter (·.applies (relativeKey d) true) = [] :=
      filter_eq_nil_iff.mpr fun other ho => by simp [hkeeps.not_applies hdp hne other ho]
    rw [ExcludedByRule, hc, hown, filter_append, hquiet]
    simp [hmatch]
  · intro path isDir hl
    rcases cases_of_isLeftOut hl with ⟨other, hr, hpos, happ⟩ | hex
    · rw [hc, hown, mem_append, mem_singleton] at hr
      rcases hr with rfl | hr
      · exact happ
      · rw [hkeeps.negated other hr] at hpos
        cases hpos
    · cases hex

theorem staysOut_list_iff {list : ExcludeMatcher}
    (hmatch : list.isExcluded env (relativeKey d) = true) :
    StaysOut env tree keeps p isDir (ExcludedByList env d list) ↔
      StopsAt (fun path _ => list.isExcluded env path) (keeps.filterMap (parseLine env))
        d p isDir := by
  refine staysOut_iff hp hd hdp hne hkeeps [] list (by simp) (by simp) hmatch
    (fun content excludes hex path isDir hhit hno => ?_) fun content hc => ⟨⟨rfl, ?_⟩, ?_⟩
  · rw [hex.1]
    exact isLeftOut_of_isExcluded hhit hno
  · rw [hc]
    exact hkeeps.not_applies hdp hne
  · intro path isDir hl
    rcases cases_of_isLeftOut hl with ⟨other, hr, hpos, -⟩ | hex
    · rw [hc] at hr
      rw [hkeeps.negated other hr] at hpos
      cases hpos
    · exact hex

end StaysOut

theorem changesNothingBelow_iff {line name : Path} {rule : IgnoreRule} (hd : d ≠ [])
    (hp : (d ++ [name], isDir) ∈ tree.entries []) (hsep : Separable env d (d ++ [name]) isDir)
    (hline : '\n' ∉ line) (hrule : parseLine env line = some rule) (hneg : rule.negated = true)
    (hnothing : ∀ q isDir, d <+: q → rule.applies (relativeKey q) isDir = false) :
    ChangesNothingBelow env tree d line ↔ ¬ rule.Leads (belowKey d) := by
  have hbelow : d <+: d ++ [name] := prefix_append d _
  have hne : d ≠ d ++ [name] := by simp
  constructor
  · -- a content with one rule, which excludes the folder and not the entry
    intro hsame hleads
    obtain ⟨dirLine, dirRule, hdirLine, hdirRule, hdirNeg, happ, hnot⟩ := hsep
    obtain ⟨content, hc⟩ := exists_lines [dirLine] (by simpa using hdirLine)
    obtain ⟨content', hc'⟩ := exists_lines [dirLine, line] (by simp [hdirLine, hline])
    have hr : rulesOf (parse env content) = [dirRule] := by
      rw [rulesOf_parse, hc, filterMap_cons_some hdirRule, filterMap_nil]
    have hr' : rulesOf (parse env content') = [dirRule, rule] := by
      rw [rulesOf_parse, hc', filterMap_cons_some hdirRule, filterMap_cons_some hrule,
        filterMap_nil]
    have hout : isLeftOut env (parse env content) (relativeKey d) true noExcludes = true :=
      isLeftOut_of_applies (by simp [hr]) happ (by simp [NotReincluded, hr, hdirNeg])
    have hlisted := hsame content content' [dirLine] [] noExcludes (d ++ [name]) isDir hc hc'
      (mt scanDecision_eq_keep_iff.mp (by simp [hout])) hbelow hne
    rw [mem_scanned_iff hp, mem_scanned_iff hp] at hlisted
    refine (hlisted.mp ⟨?_, fun ⟨q, hq, hpruned⟩ => ?_⟩).2 ⟨d, ⟨ nil_prefix, hd, hbelow, hne⟩, ?_⟩
    · rw [isLeftOut_eq, hr', lastMatch_eq_none_iff.mpr]
      · rfl
      · simp [hnot, hnothing _ isDir hbelow]
    · have hqd : q <+: d := (prefix_concat_iff.mp hq.above).resolve_left hq.ne_bottom
      refine (pruned_iff.mp hpruned).2 rule (by simp [hr']) hneg ?_
      exact hleads.mono (belowKey_mono hq.ne_top hqd)
    · exact pruned_iff.mpr ⟨hout, by simp [hr, hdirNeg]⟩
  · intro hleads content content' before after excludes p isDir hc hc' hk hdp hne
    refine scanned_more (before.filterMap (parseLine env)) (after.filterMap (parseLine env)) ?_ ?_
      hneg hnothing hleads hd hdp hne ?_
    · rw [rulesOf_parse, hc, filterMap_append]
    · rw [rulesOf_parse, hc', filterMap_append, filterMap_cons_some hrule]
    · exact (Bool.not_eq_false _).mp (mt scanDecision_eq_keep_iff.mpr hk)

/-- A host on which globs are of plain characters, with `**/` before a name for any folder. -/
def plainPlatform : Platform :=
  { build := fun pattern _ _ => .ok fun text =>
      match pattern with
      | '*' :: '*' :: '/' :: name => text == name || ('/' :: name).isSuffixOf text
      | pattern => text == pattern
    escape := id
    toLowercase := id
    isWhitespace := Char.isWhitespace
    windows := false
    macos := false }

/-- The folder `build` with the file `drop.txt`. -/
def buildTree : Folder := .folder "build".toList (.file "drop.txt".toList .nil) .nil

def buildNames : List Path := ["build".toList]

def dropNames : List Path := ["build".toList, "drop.txt".toList]

def otherLine : Path := "!/other/keep.txt".toList

theorem otherLine_quiet : QuietKeeps plainPlatform [otherLine] buildNames dropNames false := by
  refine ⟨by decide, by decide +kernel, not_reincludedFrom ?_⟩
  decide +kernel

end AeroFtp.SyncFilter
