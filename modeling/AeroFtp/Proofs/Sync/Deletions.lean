/-
When a one-sided row is read as a deletion.

A row with a file on one side and a baseline says that the other copy was deleted.  It is
right unless the index recorded a spelling of the remote path: the pair goes by the names
that stand for each other now, the baseline by the spelling recorded then, and a folder that
has come up since, with a name equivalent to the recorded one, takes them apart.
-/
import AeroFtp.Proofs.Sync.ClearWay
import AeroFtp.Proofs.Sync.Owners

namespace AeroFtp.Sync

open List SyncIndex

variable {nfc : Nfc} {now : DateTime} {locals remotes : Inventory} {options : CompareOptions}
  {idx : SyncIndex}
  {fuel : Nat} {pairs : List Pair} {pair : Pair} {key : Path} {ps qs : List Path} {sides : Sides}
  {info : FileInfo}

/-! ### What stands where a copy is missing -/

/-- A local file whose pair is not on the remote side: neither its own path nor the path it
would have is there. -/
theorem Placed.apart (hroots : ¬Opens locals [[]] ∧ ¬Opens remotes [[]])
    (h : Placed nfc locals remotes ps qs sides) (hkey : pathOf (ps ++ [sides.localName]) ∈ locals)
    (habs : ∀ key ∈ remotes, sides.kind.onRemote (pathOf (qs ++ [sides.remoteName])) ≠ some key) :
    pathOf (ps ++ [sides.localName]) ∉ remotes ∧ pathOf (qs ++ [sides.remoteName]) ∉ remotes := by
  obtain ⟨hlacc, hlsplit⟩ := h.accepted_local hroots
  obtain ⟨hracc, hrsplit⟩ := h.accepted_remote hroots
  have hf : Fate nfc locals remotes (ps ++ [sides.localName])
      (qs ++ [sides.remoteName]) sides.kind := by
    obtain ⟨⟨kind, hreach⟩, hb⟩ := h
    exact hreach.fate.below hb
  have hthere : pathOf (qs ++ [sides.remoteName]) ∉ remotes := by
    intro hmem
    have hlies := lies_of_mem hmem hracc
    rw [hrsplit] at hlies
    have hkind : sides.kind ≠ .localOnly := by
      intro hkind
      rw [hkind] at hf
      exact hf.2.1 hlies
    refine habs _ hmem ?_
    cases hk : sides.kind with
    | both => rfl
    | localOnly => exact absurd hk hkind
    | remoteOnly => rfl
  refine ⟨fun hmem => ?_, hthere⟩
  have hlies := lies_of_mem hkey hlacc
  have hlies' := lies_of_mem hmem hlacc
  rw [hlsplit] at hlies hlies'
  have htwins : Twins nfc locals remotes (ps ++ [sides.localName]) (ps ++ [sides.localName]) :=
    .exact hlies hlies'
  cases hk : sides.kind with
  | both =>
    rw [hk] at hf
    rw [htwins.functional hf] at hmem
    exact hthere hmem
  | localOnly =>
    rw [hk] at hf
    exact hf.2.2 _ htwins
  | remoteOnly =>
    rw [hk] at hf
    exact hf.2.1 hlies

section
variable (h : pairPaths nfc locals remotes fuel = some pairs)

include h

theorem lookup_of_localInfo (hpair : pair ∈ pairs) (hinfo : pair.localInfo locals = some info) :
    pair.localKey = some pair.localPath ∧ locals.lookup pair.localPath = some info := by
  obtain ⟨path, hkey, hlook⟩ := Option.bind_eq_some_iff.mp hinfo
  obtain rfl := localPath_of_localKey h hpair hkey
  exact ⟨hkey, hlook⟩

theorem localOnly_apart (hpair : pair ∈ pairs) (hlocal : pair.localInfo locals = some info)
    (hremote : pair.remoteInfo remotes = none) :
    pair.localPath ∉ remotes ∧ pair.remotePath ∉ remotes := by
  obtain ⟨ps, qs, sides, hplaced, hat, -⟩ := pair_placed h hpair
  have hmem : pair.localPath ∈ locals :=
    AList.lookup_isSome.mp (by rw [(lookup_of_localInfo h hpair hlocal).2]; rfl)
  rw [hat.localPath] at hmem ⊢
  rw [hat.remotePath]
  refine hplaced.apart (roots_of_pairPaths h) hmem fun key hkey hon => ?_
  rw [Pair.remoteInfo, hat.remoteKey, hon, Option.bind_some, AList.lookup_eq_none] at hremote
  exact hremote hkey

theorem remoteOnly_apart (hp : pair ∈ pairs) (hlocal : pair.localInfo locals = none)
    (hremote : pair.remoteInfo remotes = some info) :
    pair.localPath ∉ locals ∧ pair.remotePath ∉ locals := by
  obtain ⟨fuel', pairs', h', -⟩ := exists_swap h
  exact (localOnly_apart h' (swap_mem_pairPaths h h' hp) hremote hlocal).symm

end

/-! ### The key of a one-sided pair -/

theorem verified_eq_some_iff {k : Path} :
    verified idx key = some k ↔ key = k ∧ k ∉ idx.unverifiedKeys := by
  unfold verified
  by_cases hkey : key ∈ idx.unverifiedKeys
  · simp only [contains_eq_mem, hkey, decide_true, if_true, reduceCtorEq, false_iff]
    rintro ⟨rfl, hv⟩
    exact hv hkey
  · simp only [contains_eq_mem, hkey, decide_false, Bool.false_eq_true, if_false, Option.some.injEq]
    exact ⟨fun heq => ⟨heq, heq ▸ hkey⟩, And.left⟩

/-- The verified key that may stand for a file: its path, or else the only key of its form. -/
def SyncIndex.KeyOf (nfc : Nfc) (idx : SyncIndex) (path key : Path) : Prop :=
  key ∉ idx.unverifiedKeys ∧ (path ∈ idx.files ∧ key = path ∨
    path ∉ idx.files ∧ indexKeysByNfc nfc idx (nfcPath nfc path) = [key])

theorem trustedBaselineKey_eq_some {localPath remotePath : Path}
    (hforms : nfcPath nfc remotePath = nfcPath nfc localPath) :
    trustedBaselineKey nfc idx localPath remotePath = some key ↔ idx.KeyOf nfc localPath key := by
  rw [trustedBaselineKey, hforms, KeyOf]
  by_cases hmem : localPath ∈ idx.files
  · rw [if_pos hmem, verified_eq_some_iff]
    simp [hmem, and_comm, eq_comm]
  · rw [if_neg hmem]
    split
    · rename_i single hs
      rw [verified_eq_some_iff, hs]
      simp [hmem, and_comm]
    · rename_i hnone
      simp only [hmem, reduceCtorEq, false_and, not_false_eq_true, true_and, false_or, false_iff,
        not_and]
      exact fun _ => hnone key

theorem SyncIndex.KeyOf.mem {path : Path} (h : idx.KeyOf nfc path key) :
    key ∈ idx.files ∧ nfcPath nfc key = nfcPath nfc path := by
  rcases h.2 with ⟨hmem, rfl⟩ | ⟨-, hs⟩
  · exact ⟨hmem, rfl⟩
  · have hkey : key ∈ indexKeysByNfc nfc idx (nfcPath nfc path) := by simp [hs]
    obtain ⟨hmem, hform⟩ := mem_filter.mp hkey
    exact ⟨AList.mem_keys.mpr hmem, by simpa using hform⟩

/-- A key is spelled like one of the two paths, or nothing else stands at its place. -/
def Fitting (locals remotes : Inventory) (localPath remotePath key : Path) : Prop :=
  key = localPath ∨ key = remotePath ∨
    (aliasHasOtherOwner key localPath (inventoryPrefixes locals) = false ∧
      aliasHasOtherOwner key remotePath (inventoryPrefixes remotes) = false)

variable {r : Option FileInfo}

theorem ownsKey_iff :
    ownsKey idx (inventoryPrefixes locals) (inventoryPrefixes remotes) pair r key = true ↔
      (r.isSome = true → ∀ q, idx.remoteSpellings.lookup key = some q → q = pair.remotePath) ∧
        (idx.remoteSpellings.lookup key = some pair.remotePath ∨
          Fitting locals remotes pair.localPath pair.remotePath key) := by
  unfold ownsKey Fitting
  cases hr : idx.remoteSpellings.lookup key with
  | none => simp [or_assoc]
  | some q =>
    by_cases hq : q = pair.remotePath
    · simp [hq]
    · cases r <;> simp [or_assoc]

variable {l : Option FileInfo}

theorem baselineKey_eq_some :
    baselineKey nfc locals remotes (some idx) pair l r = some key ↔
      selectedKey nfc idx pair l r = some key ∧
      ownsKey idx (inventoryPrefixes locals) (inventoryPrefixes remotes) pair r key = true := by
  simp [baselineKey]

section
variable (h : pairPaths nfc locals remotes fuel = some pairs)

include h

/-- A key with the form of the pair's paths that is listed and has no other owner is the
pair's path on that side. -/
theorem eq_of_listed (hpair : pair ∈ pairs)
    (hform : nfcPath nfc key = nfcPath nfc pair.remotePath) {inv : Inventory} {path : Path}
    (hpath : path = pair.localPath ∨ path = pair.remotePath)
    (ho : aliasHasOtherOwner key path (inventoryPrefixes inv) = false) (hkey : key ∈ inv) :
    key = path := by
  obtain ⟨-, hr, hforms⟩ := pair_paths h hpair
  have hkeyForm := map_form_eq_of_nfcPath_eq hform
  obtain ⟨init, last, hs⟩ := (eq_nil_or_concat' _).resolve_left (splitSlash_ne_nil key)
  refine eq_of_not_aliasHasOtherOwner hkey hs (proper_of_form_eq hr hkeyForm hs) ?_ ho
  rcases hpath with rfl | rfl
  · rw [hforms.length_eq]
    simpa using congrArg length hkeyForm
  · simpa using congrArg length hkeyForm

theorem nfcPath_remotePath (hpair : pair ∈ pairs) :
    nfcPath nfc pair.remotePath = nfcPath nfc pair.localPath := by
  obtain ⟨-, -, hforms⟩ := pair_paths h hpair
  have hmap : (splitSlash pair.localPath).map nfc.form
      = (splitSlash pair.remotePath).map nfc.form := by
    simpa [← forall₂_eq_eq_eq, forall₂_map_left_iff, forall₂_map_right_iff] using hforms
  rw [nfcPath, nfcPath, hmap]

theorem localOnly_safe_iff (hp : pair ∈ pairs) (hlocal : pair.localInfo locals = some info)
    (hremote : pair.remoteInfo remotes = none) :
    (∀ key, baselineKey nfc locals remotes (some idx) pair (some info) none = some key →
      idx.recordedPath key ∉ remotes) ↔
      ∀ key q, idx.KeyOf nfc pair.localPath key → idx.remoteSpellings.lookup key = some q →
        Fitting locals remotes pair.localPath pair.remotePath key → q ∉ remotes := by
  obtain ⟨hlpath, hrpath⟩ := localOnly_apart h hp hlocal hremote
  have hform := nfcPath_remotePath h hp
  have hselected {key : Path} :
      selectedKey nfc idx pair (some info) none = some key ↔ idx.KeyOf nfc pair.localPath key := by
    rw [← trustedBaselineKey_eq_some hform]
    simp [selectedKey]
  constructor
  · intro hsafe key q hkeyOf hrecorded hfitting
    have hkey := hsafe key
      (baselineKey_eq_some.mpr ⟨hselected.mpr hkeyOf, ownsKey_iff.mpr ⟨by simp, .inr hfitting⟩⟩)
    rwa [recordedPath, hrecorded] at hkey
  · intro hspelled key hkey
    obtain ⟨hsel, howns⟩ := baselineKey_eq_some.mp hkey
    rw [hselected] at hsel
    obtain ⟨-, howns⟩ := ownsKey_iff.mp howns
    cases hrecorded : idx.remoteSpellings.lookup key with
    | some q =>
      rw [recordedPath, hrecorded]
      rcases howns with hq | hfitting
      · rw [hrecorded] at hq
        cases hq
        exact hrpath
      · exact hspelled key q hsel hrecorded hfitting
    | none =>
      rw [recordedPath, hrecorded]
      rw [hrecorded] at howns
      rcases howns with hq | rfl | rfl | ⟨-, howner⟩
      · cases hq
      · exact hlpath
      · exact hrpath
      · intro hmem
        rw [eq_of_listed h hp (hsel.mem.2.trans hform.symm) (.inr rfl) howner hmem] at hmem
        exact hrpath hmem

theorem remoteOnly_safe_iff (hp : pair ∈ pairs) (hlocal : pair.localInfo locals = none)
    (hremote : pair.remoteInfo remotes = some info) :
    (∀ key, baselineKey nfc locals remotes (some idx) pair none (some info) = some key →
      key ∉ locals) ↔
      ∀ key, indexByRemote idx pair.remotePath = [key] → key ∉ idx.unverifiedKeys →
        idx.remoteSpellings.lookup key = some pair.remotePath → key ∉ locals := by
  obtain ⟨hlpath, hrpath⟩ := remoteOnly_apart h hp hlocal hremote
  have hside : ((none : Option FileInfo).isNone && (some info).isSome) = true := rfl
  constructor
  · intro hsafe key hindexed hv hrecorded
    refine hsafe key (baselineKey_eq_some.mpr
      ⟨?_, ownsKey_iff.mpr ⟨fun _ q hq => ?_, .inl hrecorded⟩⟩)
    · rw [selectedKey, if_pos hside, hindexed]
      exact verified_eq_some_iff.mpr ⟨rfl, hv⟩
    · rw [hrecorded] at hq
      exact (Option.some.inj hq).symm
  · intro hspelled key hkey hmem
    obtain ⟨hsel, howns⟩ := baselineKey_eq_some.mp hkey
    obtain ⟨-, howns⟩ := ownsKey_iff.mp howns
    rw [selectedKey, if_pos hside] at hsel
    split at hsel
    · -- no key is recorded with the remote path, so this one has no recorded spelling
      rename_i hn
      have hform := nfcPath_remotePath h hp
      obtain ⟨hfile, hkeyForm⟩ := ((trustedBaselineKey_eq_some hform).mp hsel).mem
      have hu : idx.remoteSpellings.lookup key ≠ some pair.remotePath := by
        intro hrecorded
        have hin : key ∈ indexByRemote idx pair.remotePath :=
          mem_filter.mpr ⟨AList.mem_keys.mp hfile, by simp [recordedPath, hrecorded]⟩
        rw [hn] at hin
        cases hin
      rcases howns.resolve_left hu with rfl | rfl | ⟨howner, -⟩
      · exact hlpath hmem
      · exact hrpath hmem
      · rw [eq_of_listed h hp (hkeyForm.trans hform.symm) (.inl rfl) howner hmem] at hmem
        exact hlpath hmem
    · rename_i single hsingle
      obtain ⟨rfl, hv⟩ := verified_eq_some_iff.mp hsel
      have hrecorded : idx.recordedPath single = pair.remotePath := by
        have hin : single ∈ indexByRemote idx pair.remotePath := by simp [hsingle]
        simpa using (mem_filter.mp hin).2
      cases hspell : idx.remoteSpellings.lookup single with
      | none =>
        rw [recordedPath, hspell] at hrecorded
        exact hrpath (hrecorded ▸ hmem)
      | some q =>
        rw [recordedPath, hspell] at hrecorded
        exact hspelled single hsingle hv (hrecorded ▸ hspell) hmem
    · cases hsel

end

/-! ### The rows -/

/-- The row says that a copy was deleted only where it is gone. -/
structure FileComparison.Honest (idx : SyncIndex) (locals remotes : Inventory)
    (row : FileComparison) : Prop where
  localOnly : row.localInfo.isSome = true → row.remoteInfo = none →
    ∀ key, row.baselineKey = some key → idx.recordedPath key ∉ remotes
  remoteOnly : row.localInfo = none → row.remoteInfo.isSome = true →
    ∀ key, row.baselineKey = some key → key ∉ locals

/-- The rows of a comparison, those of blocked names apart, are right about deletions. -/
def DeletionsReal (nfc : Nfc) (now : DateTime) (locals remotes : Inventory)
    (options : CompareOptions) (idx : SyncIndex) : Prop :=
  ∀ fuel report, classifyWithSummary nfc now locals remotes options (some idx) fuel = some report →
    ∀ row ∈ report.differences, row.nameMatchBlocked = false → row.Honest idx locals remotes

/-- A listed path whose clear way leads to the path `there`, which the other side does not list. -/
def Strays (nfc : Nfc) (inv other : Inventory) (path there : Path) : Prop :=
  path ∈ inv ∧ there ∉ other ∧ ∃ ps qs sides, ClearlyPlaced nfc inv other ps qs sides ∧
    sides.kind.onLocal (pathOf (ps ++ [sides.localName])) = some path ∧
    pathOf (qs ++ [sides.remoteName]) = there

/-- The other side lists `copy`, which is no spelling of the path, or stands beside a twin. -/
def OffTheWay (nfc : Nfc) (other : Inventory) (path copy : Path) : Prop :=
  copy ∈ other ∧ (accepted copy = false ∨ nfcPath nfc copy ≠ nfcPath nfc path ∨
    TwinBeside other (splitSlash path) (splitSlash copy))

/-- No file that strays, and is neither left out nor filtered, has a key that is recorded with a
copy off its way. -/
structure NoneAstray (nfc : Nfc) (now : DateTime) (locals remotes : Inventory)
    (options : CompareOptions) (idx : SyncIndex) : Prop where
  onLocal : ∀ path there info key copy, Strays nfc locals remotes path there →
    locals.lookup path = some info → leavesOut options path there info.isDir = false →
    shouldFilter now (some info) options = false → idx.KeyOf nfc path key →
    Fitting locals remotes path there key → idx.remoteSpellings.lookup key = some copy →
    ¬OffTheWay nfc remotes path copy
  onRemote : ∀ path there info key, Strays nfc remotes locals path there →
    remotes.lookup path = some info → leavesOut options there path info.isDir = false →
    shouldFilter now (some info) options = false → indexByRemote idx path = [key] →
    key ∉ idx.unverifiedKeys → idx.remoteSpellings.lookup key = some path →
    ¬OffTheWay nfc locals path key

/-- **A copy that a straying file has on the other side is off its way.** -/
theorem Strays.offTheWay {path there copy : Path}
    (hroots : ¬Opens locals [[]] ∧ ¬Opens remotes [[]]) (h : Strays nfc locals remotes path there)
    (hcopy : copy ∈ remotes) : OffTheWay nfc remotes path copy := by
  obtain ⟨-, hmissing, ps, qs, sides, hplaced, hpath, rfl⟩ := h
  refine ⟨hcopy, ?_⟩
  by_cases hacc : accepted copy = true
  · by_cases hform : nfcPath nfc copy = nfcPath nfc path
    · obtain ⟨-, hsplit⟩ := hplaced.placed.accepted_local hroots
      rw [(Kind.onLocal_eq_some hpath).1] at hsplit
      have hforms := map_form_eq_of_nfcPath_eq hform
      rw [hsplit] at hforms ⊢
      refine .inr (.inr ((hplaced.follows hforms.symm (lies_of_mem hcopy hacc)).resolve_left ?_))
      intro heq
      rw [heq, pathOf_splitSlash hacc] at hmissing
      exact hmissing hcopy
    · exact .inr (.inl hform)
  · exact .inl (Bool.not_eq_true _ ▸ hacc)

section
variable (h : pairPaths nfc locals remotes fuel = some pairs)
include h

theorem exists_pair_of_strays {path there : Path} (hs : Strays nfc locals remotes path there) :
    ∃ pair ∈ pairs, pair.blocked = false ∧ pair.localInfo locals = locals.lookup path ∧
      pair.localPath = path ∧ pair.remotePath = there ∧ pair.remoteInfo remotes = none := by
  obtain ⟨hmem, hmissing, ps, qs, sides, hplaced, hpath, rfl⟩ := hs
  obtain ⟨pair, hpair, hat, hopen⟩ := exists_pair_clear h hplaced ⟨path, hmem, hpath⟩
  have hkey : pair.localKey = some path := hat.localKey.trans hpath
  refine ⟨pair, hpair, hopen, by rw [Pair.localInfo, hkey, Option.bind_some],
    localPath_of_localKey h hpair hkey, hat.remotePath, ?_⟩
  rw [Pair.remoteInfo, hat.remoteKey]
  cases sides.kind with
  | localOnly => rfl
  | both | remoteOnly => exact AList.lookup_eq_none.mpr hmissing

theorem strays_of_pair (hpair : pair ∈ pairs) (hopen : pair.blocked = false)
    (hlocal : pair.localInfo locals = some info) (hremote : pair.remoteInfo remotes = none) :
    Strays nfc locals remotes pair.localPath pair.remotePath := by
  obtain ⟨ps, qs, sides, hplaced, hat⟩ := pair_clear h hpair hopen
  obtain ⟨hkey, hlook⟩ := lookup_of_localInfo h hpair hlocal
  refine ⟨AList.lookup_isSome.mp (by rw [hlook]; rfl), (localOnly_apart h hpair hlocal hremote).2,
    ps, qs, sides, hplaced, ?_, hat.remotePath.symm⟩
  rw [← hkey, hat.localKey]

end

/-- A pair on one side is passed over if its path is left out or its file is filtered. -/
theorem passedOver_eq_false (hacc : accepted pair.localPath = true)
    (hinfo : l = some info ∧ r = none ∨ l = none ∧ r = some info) :
    passedOver now options pair l r = false ↔
      leavesOut options pair.localPath pair.remotePath info.isDir = false ∧
        shouldFilter now (some info) options = false := by
  rcases hinfo with ⟨rfl, rfl⟩ | ⟨rfl, rfl⟩ <;> simp [passedOver, hacc, shouldFilter]

theorem pairStatus_oneSided (index : Option SyncIndex) (hb : pair.blocked = false) :
    pairStatus nfc locals remotes options index pair (some info) none = .localOnly ∧
      pairStatus nfc locals remotes options index pair none (some info) = .remoteOnly := by
  simp [pairStatus, hb, compareFilePair]

theorem DeletionsReal.honest (hreal : DeletionsReal nfc now locals remotes options idx)
    (h : pairPaths nfc locals remotes fuel = some pairs) (hpair : pair ∈ pairs)
    (hb : pair.blocked = false) (hl : pair.localInfo locals = l) (hr : pair.remoteInfo remotes = r)
    (hpassed : passedOver now options pair l r = false)
    (hs : pairStatus nfc locals remotes options (some idx) pair l r ≠ .identical) :
    (comparison nfc locals remotes options (some idx) pair l r).Honest idx locals remotes := by
  subst hl hr
  exact hreal fuel _ (congrArg _ h) _ (comparison_mem_differences hpair hpassed hs) hb

theorem DeletionsReal.noneAstray (hreal : DeletionsReal nfc now locals remotes options idx)
    (hroots : ¬Opens locals [[]] ∧ ¬Opens remotes [[]]) :
    NoneAstray nfc now locals remotes options idx := by
  obtain ⟨fuel, pairs, h⟩ := (pairPaths_returns_iff nfc locals remotes).mpr hroots
  refine ⟨fun path there info key copy hs hlook hleaves hfilter hkeyOf hfitting hrecorded hoff =>
    ?_, fun path there info key hs hlook hleaves hfilter hindexed hverified hrecorded hoff => ?_⟩
  · obtain ⟨pair, hpair, hopen, hlocal, rfl, rfl, hremote⟩ := exists_pair_of_strays h hs
    rw [hlook] at hlocal
    have hpassed := (passedOver_eq_false (pair_paths h hpair).1 (.inl ⟨rfl, rfl⟩)).mpr
      ⟨hleaves, hfilter⟩
    have hhonest := hreal.honest h hpair hopen hlocal hremote hpassed
      (by simp [(pairStatus_oneSided _ hopen).1])
    exact (localOnly_safe_iff h hpair hlocal hremote).mp (hhonest.localOnly rfl rfl) key copy hkeyOf
      hrecorded hfitting hoff.1
  · obtain ⟨fuel', pairs', h', -⟩ := exists_swap h
    obtain ⟨pair', hpair', hopen, hremote, rfl, rfl, hlocal⟩ := exists_pair_of_strays h' hs
    rw [hlook] at hremote
    obtain ⟨pair, rfl⟩ : ∃ pair : Pair, pair' = pair.swap := ⟨pair'.swap, rfl⟩
    have hpair : pair ∈ pairs := swap_mem_pairPaths h' h hpair'
    have hpassed := (passedOver_eq_false (pair_paths h hpair).1 (.inr ⟨rfl, rfl⟩)).mpr
      ⟨hleaves, hfilter⟩
    have hhonest := hreal.honest h hpair hopen hlocal hremote hpassed
      (by simp [(pairStatus_oneSided _ (show pair.blocked = false from hopen)).2])
    exact (remoteOnly_safe_iff h hpair hlocal hremote).mp (hhonest.remoteOnly rfl rfl) key hindexed
      hverified hrecorded hoff.1

/-- **One-sided rows are right about deletions exactly when no file astray is recorded with a copy
off its way.**  An inventory that lists the root as a directory is not compared. -/
theorem deletionsReal_iff (nfc : Nfc) (now : DateTime) (locals remotes : Inventory)
    (options : CompareOptions) (idx : SyncIndex) :
    DeletionsReal nfc now locals remotes options idx ↔
      (¬Opens locals [[]] ∧ ¬Opens remotes [[]] →
        NoneAstray nfc now locals remotes options idx) := by
  refine ⟨DeletionsReal.noneAstray, fun hnone fuel report hreport row hrow hopen => ?_⟩
  obtain ⟨pairs, h, rfl⟩ := Option.map_eq_some_iff.mp hreport
  obtain ⟨pair, hpair, hexamine, -⟩ := mem_differences.mp hrow
  obtain ⟨hpassed, rfl⟩ := examine_eq_some.mp hexamine
  have hroots := roots_of_pairPaths h
  have hopen : pair.blocked = false := hopen
  refine ⟨fun hlocal hremote => ?_, fun hlocal hremote => ?_⟩
  · obtain ⟨info, hlocal⟩ := Option.isSome_iff_exists.mp hlocal
    have hstrays := strays_of_pair h hpair hopen hlocal hremote
    obtain ⟨hleaves, hfilter⟩ :=
      (passedOver_eq_false (pair_paths h hpair).1 (.inl ⟨hlocal, hremote⟩)).mp hpassed
    have hsafe := (localOnly_safe_iff h hpair hlocal hremote).mpr
      fun key copy hkeyOf hrecorded hfitting hcopy =>
        (hnone hroots).onLocal _ _ info key copy hstrays (lookup_of_localInfo h hpair hlocal).2
          hleaves hfilter hkeyOf hfitting hrecorded (hstrays.offTheWay hroots hcopy)
    rwa [← hlocal, ← hremote] at hsafe
  · obtain ⟨info, hremote⟩ := Option.isSome_iff_exists.mp hremote
    obtain ⟨fuel', pairs', h', -⟩ := exists_swap h
    have hpair' := swap_mem_pairPaths h h' hpair
    have hstrays := strays_of_pair h' hpair' hopen hremote hlocal
    obtain ⟨hleaves, hfilter⟩ :=
      (passedOver_eq_false (pair_paths h hpair).1 (.inr ⟨hlocal, hremote⟩)).mp hpassed
    have hsafe := (remoteOnly_safe_iff h hpair hlocal hremote).mpr
      fun key hindexed hverified hrecorded hkey =>
        (hnone hroots).onRemote _ _ info key hstrays (lookup_of_localInfo h' hpair' hremote).2
          hleaves hfilter hindexed hverified hrecorded (hstrays.offTheWay hroots.symm hkey)
    rwa [← hlocal, ← hremote] at hsafe

/-! ### A folder that takes a file from its record -/

/-- A letter with its accent behind it is the accented letter; nothing else is changed. -/
def Nfc.acute : Nfc where
  form name := if name = ['e', '\u0301'] then ['\u00e9'] else name
  idem name := by split <;> simp_all
  nil name := by split <;> simp_all
  slash name := by split <;> simp_all

/-- The options of the tests of the source: sizes and times, no excludes. -/
def CompareOptions.plain : CompareOptions where
  compareTimestamp := true
  compareSize := true
  compareChecksum := false
  strictChecksum := false
  excludesPath _ _ := false
  minSize := none
  maxSize := none
  minAgeSecs := none
  maxAgeSecs := none
  backupDir := none
  modifyWindow := .seconds 2

/-- The file `é/a` under the two spellings of its folder. -/
def decomposedPath : Path := ['e', '\u0301', '/', 'a']

def composedPath : Path := ['\u00e9', '/', 'a']

/-- The local file is spelled in one way, and the remote copy of the last sync in the other. -/
def twoSpellings : SyncIndex where
  files := AList.singleton decomposedPath ⟨1, none, false, none⟩
  remoteSpellings := AList.singleton decomposedPath composedPath
  unverifiedKeys := []

/-- The remote copy is still there, and beside it a folder with the local spelling. -/
def twinFolder : Inventory := ⟨[⟨composedPath, plainFile⟩, ⟨['e', '\u0301', '/', 'b'], plainFile⟩],
  show List.Nodup [composedPath, ['e', '\u0301', '/', 'b']] by decide⟩

/-- The local file goes to the folder that is spelled like its own, and finds nothing there. -/
def twinPair : Pair := ⟨some decomposedPath, none, decomposedPath, decomposedPath, false⟩

/-- With neither copy nor twin on the remote side the file is rightly read as deleted there. -/
theorem twinFolder_gone : DeletionsReal Nfc.acute 0 (AList.singleton decomposedPath plainFile)
    (AList.singleton ['b'] plainFile) .plain twoSpellings := by
  refine (deletionsReal_iff _ _ _ _ _ _).mpr fun _ => ⟨?_, ?_⟩
  · rintro path there info key copy - - - - - - hrecorded ⟨hcopy, -⟩
    obtain ⟨-, rfl⟩ : key = decomposedPath ∧ copy = composedPath := by
      have hmem := AList.mem_lookup_iff.mp hrecorded
      simpa [twoSpellings] using hmem
    exact absurd hcopy (by decide)
  · rintro path there info key ⟨hpath, -⟩ - - - hindexed - - -
    obtain rfl : path = ['b'] := mem_singleton.mp hpath
    have hnone : indexByRemote twoSpellings ['b'] = [] := by decide
    cases hnone.symm.trans hindexed

/-- The local file is read as deleted on the remote side, where its copy is. -/
theorem twinFolder_misread :
    ¬DeletionsReal Nfc.acute 0 (AList.singleton decomposedPath plainFile) twinFolder .plain
      twoSpellings := by
  intro hreal
  have hpairs : pairPaths .acute (AList.singleton decomposedPath plainFile) twinFolder 4 =
      some [⟨none, some composedPath, composedPath, composedPath, true⟩, twinPair,
        ⟨none, some ['e', '\u0301', '/', 'b'], ['e', '\u0301', '/', 'b'], ['e', '\u0301', '/', 'b'],
          false⟩] := by
    decide
  have hhonest := hreal.honest hpairs (mem_cons_of_mem _ mem_cons_self) rfl rfl rfl (by decide)
    (by decide)
  exact hhonest.localOnly rfl rfl decomposedPath (by decide) (by decide)

end AeroFtp.Sync
