/-
Which inventories lose no entry in the pairing.

An entry is reported when the loop looks into every folder above it.  The tree takes a
folder for a file when the inventory lists a file there behind everything below it, and then
the loop does not look into it, unless its counterpart is a folder.  Apart from that nothing
is lost: no path is given twice, paired names are equivalent, and every pair is counted.
-/
import AeroFtp.Proofs.Sync.Classify

namespace AeroFtp.Sync

open List

/-- Nothing is excluded or filtered. -/
structure CompareOptions.Unfiltered (options : CompareOptions) : Prop where
  excludes : ∀ path isDir, options.excludesPath path isDir = false
  backup : options.backupDir = none
  minSize : options.minSize = none
  maxSize : options.maxSize = none
  minAge : options.minAgeSecs = none
  maxAge : options.maxAgeSecs = none

/-- What is expected of the pairs of two inventories. -/
structure Lossless (nfc : Nfc) (locals remotes : Inventory) (fuel : Nat) (pairs : List Pair) :
    Prop where
  localKeys : ∀ key ∈ locals, accepted key = true → pairs.countP (·.localKey = some key) = 1
  remoteKeys : ∀ key ∈ remotes, accepted key = true → pairs.countP (·.remoteKey = some key) = 1
  localPaths : (pairs.map Pair.localPath).Nodup
  remotePaths : (pairs.map Pair.remotePath).Nodup
  forms : ∀ pair ∈ pairs, pair.blocked = false → ∀ l r, pair.localKey = some l →
    pair.remoteKey = some r →
    List.Forall₂ (fun n m => nfc.form n = nfc.form m) (splitSlash l) (splitSlash r)
  counts : ∀ now options index, options.Unfiltered →
    ∃ report, classifyWithSummary nfc now locals remotes options index fuel = some report ∧
      report.summary.examinedCount = pairs.length ∧
      report.summary.examinedCount =
        report.summary.identicalCount + report.differences.countP (·.status ≠ .identical)

/-- Pairing ends and loses nothing. -/
def PairsAll (nfc : Nfc) (locals remotes : Inventory) : Prop :=
  ∃ fuel pairs, pairPaths nfc locals remotes fuel = some pairs ∧
    Lossless nfc locals remotes fuel pairs

/-- The folders above the accepted keys of a side are looked into, and the root is not listed
as a directory. -/
structure Unhidden (nfc : Nfc) (inv other : Inventory) : Prop where
  root : ∀ info, inv.lookup [] = some info → info.isDir = false
  above : ∀ key ∈ inv, accepted key = true → ∀ folder, folder ≠ [] → folder <+: splitSlash key →
    folder ≠ splitSlash key → LookedInto nfc inv other folder

variable {nfc : Nfc} {locals remotes : Inventory} {fuel : Nat} {pairs : List Pair} {pair : Pair}
  {key : Path}
  {ps qs init : List Path} {last : Path} {kind : Kind} {sides : Sides}

theorem not_opens_root {inv : Inventory} :
    ¬Opens inv [[]] ↔ ∀ info, inv.lookup [] = some info → info.isDir = false := by
  simp [opens_root_iff]

/-! ### Entries and places -/

theorem lies_of_mem (hkey : key ∈ locals) (hacc : accepted key = true) :
    Lies locals (splitSlash key) := by
  obtain ⟨info, hi⟩ := Option.isSome_iff_exists.mp (AList.lookup_isSome.mpr hkey)
  exact ⟨⟨key, info⟩, AList.mem_lookup_iff.mp hi, hacc, prefix_refl _⟩

theorem Kind.onLocal_eq_some {path : Path} (h : kind.onLocal path = some key) :
    path = key ∧ kind ≠ .remoteOnly := by
  cases kind with
  | both => exact ⟨Option.some.inj h, by simp⟩
  | localOnly => exact ⟨Option.some.inj h, by simp⟩
  | remoteOnly => cases h

theorem Kind.onLocal_of_ne {path : Path} (h : kind ≠ .remoteOnly) :
    kind.onLocal path = some path := by
  cases kind with
  | both => rfl
  | localOnly => rfl
  | remoteOnly => exact absurd rfl h

section
variable (hroots : ¬Opens locals [[]] ∧ ¬Opens remotes [[]])
  (h : Placed nfc locals remotes ps qs sides)

include hroots h

theorem Placed.accepted_local : accepted (pathOf (ps ++ [sides.localName])) = true ∧
      splitSlash (pathOf (ps ++ [sides.localName])) = ps ++ [sides.localName] := by
  obtain ⟨⟨kind, hreached⟩, hb⟩ := h
  rw [pathOf_append_singleton]
  exact ⟨accepted_join (hreached.proper_local hroots) hb.slashFree.1
    (hb.acceptable hreached.forms hreached.acceptable),
    (hreached.proper_local hroots).splitSlash_join hb.slashFree.1⟩

theorem Placed.accepted_remote : accepted (pathOf (qs ++ [sides.remoteName])) = true ∧
      splitSlash (pathOf (qs ++ [sides.remoteName])) = qs ++ [sides.remoteName] := by
  obtain ⟨⟨kind, hreached⟩, hb⟩ := h
  have hs := Placed.accepted_local hroots.symm ⟨⟨_, hreached.swap⟩, hb.swap⟩
  cases sides <;> exact hs

end

/-- The key is the local path of a name below a place that is reached. -/
def IsPlaced (nfc : Nfc) (locals remotes : Inventory) (key : Path) : Prop :=
  ∃ ps qs sides, Placed nfc locals remotes ps qs sides ∧
    sides.kind.onLocal (pathOf (ps ++ [sides.localName])) = some key

theorem isPlaced_iff (hroots : ¬Opens locals [[]] ∧ ¬Opens remotes [[]]) (hkey : key ∈ locals)
    (hacc : accepted key = true) : IsPlaced nfc locals remotes key ↔ ∀ folder, folder ≠ [] →
      folder <+: splitSlash key → folder ≠ splitSlash key →
        LookedInto nfc locals remotes folder := by
  obtain ⟨init, last, hs⟩ := (eq_nil_or_concat' _).resolve_left (splitSlash_ne_nil key)
  have hlies : Lies locals (init ++ [last]) := hs ▸ lies_of_mem hkey hacc
  have hreach : IsPlaced nfc locals remotes key ↔
      ∃ qs kind, Reached nfc locals remotes init qs kind ∧ kind ≠ .remoteOnly := by
    constructor
    · rintro ⟨ps, qs, sides, hplaced, hlocal⟩
      have hparts := (hplaced.accepted_local hroots).2
      rw [(Kind.onLocal_eq_some hlocal).1, hs] at hparts
      obtain ⟨rfl, -⟩ := append_inj' hparts rfl
      obtain ⟨⟨kind, hreached⟩, -⟩ := hplaced
      refine ⟨qs, kind, hreached, ?_⟩
      rintro rfl
      exact hreached.fate.2.1 hlies.of_append
    · rintro ⟨qs, kind, hreached, -⟩
      obtain ⟨sides, hb, hln⟩ := exists_stands_ln nfc (fun n => Lies locals (init ++ [n]))
        (fun m => Lies remotes (qs ++ [m])) hlies
      obtain ⟨hname, hkind⟩ := Sides.localName_of_ln hln
      refine ⟨init, qs, sides, ⟨⟨kind, hreached⟩, hb⟩, ?_⟩
      rw [Kind.onLocal_of_ne hkind, hname, ← hs, pathOf_splitSlash hacc]
  rw [hreach, reached_local_iff fun _ => hlies.of_append, hs]
  refine forall₂_congr fun folder _ => ⟨fun h hf hne => h ?_, fun h hf => h ?_ ?_⟩
  · exact (prefix_concat_iff.mp hf).resolve_left hne
  · exact hf.trans (prefix_append _ _)
  · rintro rfl
    have := hf.length_le
    simp only [length_append, length_singleton] at this
    omega

section
variable (h : pairPaths nfc locals remotes fuel = some pairs)

include h

theorem pair_paths (hpair : pair ∈ pairs) :
    accepted pair.localPath = true ∧ accepted pair.remotePath = true ∧
      List.Forall₂ (fun n m => nfc.form n = nfc.form m) (splitSlash pair.localPath)
        (splitSlash pair.remotePath) := by
  obtain ⟨ps, qs, sides, hplaced, hat, -⟩ := pair_placed h hpair
  obtain ⟨hlacc, hlsplit⟩ := hplaced.accepted_local (roots_of_pairPaths h)
  obtain ⟨hracc, hrsplit⟩ := hplaced.accepted_remote (roots_of_pairPaths h)
  rw [hat.localPath, hat.remotePath, hlsplit, hrsplit]
  obtain ⟨⟨kind, hreached⟩, hb⟩ := hplaced
  exact ⟨hlacc, hracc, hb.forms hreached.forms⟩

theorem exists_pair_localKey_iff (hkey : key ∈ locals) :
    (∃ pair ∈ pairs, pair.localKey = some key) ↔ IsPlaced nfc locals remotes key := by
  constructor
  · rintro ⟨pair, hpair, hl⟩
    obtain ⟨ps, qs, sides, hplaced, hat, -⟩ := pair_placed h hpair
    exact ⟨ps, qs, sides, hplaced, hat.localKey.symm.trans hl⟩
  · rintro ⟨ps, qs, sides, hplaced, hl⟩
    obtain ⟨pair, hpair, hat⟩ := exists_pair h hplaced (.inl ⟨key, hkey, hl⟩)
    exact ⟨pair, hpair, hat.localKey.trans hl⟩

theorem localPath_of_localKey (hp : pair ∈ pairs) (hl : pair.localKey = some key) :
    pair.localPath = key := by
  obtain ⟨ps, qs, sides, -, hat, -⟩ := pair_placed h hp
  rw [hat.localKey] at hl
  rw [hat.localPath]
  exact (Kind.onLocal_eq_some hl).1

theorem remotePath_of_remoteKey (hp : pair ∈ pairs) (hr : pair.remoteKey = some key) :
    pair.remotePath = key := by
  obtain ⟨fuel', pairs', h', -⟩ := exists_swap h
  exact localPath_of_localKey h' (swap_mem_pairPaths h h' hp) hr

end

theorem countP_eq_one {α κ : Type} [DecidableEq κ] {f : α → κ} {g : α → Option κ} {k : κ} :
    ∀ {l : List α}, (l.map f).Nodup → (∀ a ∈ l, g a = some k → f a = k) →
      (l.countP (g · = some k) = 1 ↔ ∃ a ∈ l, g a = some k)
  | [], _, _ => by simp
  | a :: l, hnd, hkey => by
    obtain ⟨hf, hnd⟩ := nodup_cons.mp hnd
    have ih := countP_eq_one (k := k) hnd fun b hb => hkey b (mem_cons_of_mem _ hb)
    by_cases ha : g a = some k
    · have hnone : ∀ b ∈ l, ¬g b = some k := by
        intro b hb hbk
        refine hf (mem_map.mpr ⟨b, hb, ?_⟩)
        rw [hkey a mem_cons_self ha, hkey b (mem_cons_of_mem _ hb) hbk]
      have hz : l.countP (g · = some k) = 0 := countP_eq_zero.mpr (by simpa using hnone)
      simp [ha, hz]
    · simp [ha, ih]

/-- **A local key is in one pair exactly when the folders above it are looked into.** -/
theorem count_localKey_iff (h : pairPaths nfc locals remotes fuel = some pairs)
    (hkey : key ∈ locals) (hacc : accepted key = true) :
    pairs.countP (·.localKey = some key) = 1 ↔ ∀ folder, folder ≠ [] →
      folder <+: splitSlash key → folder ≠ splitSlash key →
        LookedInto nfc locals remotes folder := by
  have hpath : ∀ pair ∈ pairs, pair.localKey = some key → pair.localPath = key := fun pair hpair =>
    localPath_of_localKey h hpair
  rw [countP_eq_one (nodup_localPath h) hpath, exists_pair_localKey_iff h hkey,
    isPlaced_iff (roots_of_pairPaths h) hkey hacc]

theorem count_remoteKey_iff (h : pairPaths nfc locals remotes fuel = some pairs)
    (hkey : key ∈ remotes) (hacc : accepted key = true) :
    pairs.countP (·.remoteKey = some key) = 1 ↔ ∀ folder, folder ≠ [] →
      folder <+: splitSlash key → folder ≠ splitSlash key →
        LookedInto nfc remotes locals folder := by
  obtain ⟨fuel', pairs', h', hp⟩ := exists_swap h
  rw [← count_localKey_iff h' hkey hacc, hp.countP_eq, countP_map]
  rfl

/-! ### What always holds -/

section
variable (h : pairPaths nfc locals remotes fuel = some pairs)

include h

theorem pair_forms (hp : pair ∈ pairs) {l r : Path} (hl : pair.localKey = some l)
    (hr : pair.remoteKey = some r) :
    List.Forall₂ (fun n m => nfc.form n = nfc.form m) (splitSlash l) (splitSlash r) := by
  rw [← localPath_of_localKey h hp hl, ← remotePath_of_remoteKey h hp hr]
  exact (pair_paths h hp).2.2

theorem length_rowsOf {now : DateTime} {options : CompareOptions} {index : Option SyncIndex}
    (ho : options.Unfiltered) :
    (rowsOf nfc now locals remotes options index pairs).length = pairs.length := by
  have he : ∀ pair ∈ pairs, (examine nfc now locals remotes options index pair).isSome = true := by
    intro pair hp
    have hacc := (pair_paths h hp).1
    have hnot : ∀ l r, passedOver now options pair l r = false := by
      intro l r
      simp [passedOver, hacc, leavesOut, shouldFilter, ho.excludes, ho.backup, ho.minSize,
        ho.maxSize, ho.minAge, ho.maxAge]
    simp [examine, hnot]
  rw [rowsOf, length_filterMap_eq_countP, countP_eq_length]
  exact he

end

/-- **Pairing ends and loses nothing exactly when no folder above an entry is hidden by a
file.** -/
theorem pairsAll_iff (nfc : Nfc) (locals remotes : Inventory) :
    PairsAll nfc locals remotes ↔ Unhidden nfc locals remotes ∧ Unhidden nfc remotes locals := by
  constructor
  · rintro ⟨fuel, pairs, h, hall⟩
    obtain ⟨hl, hr⟩ := roots_of_pairPaths h
    refine ⟨⟨not_opens_root.mp hl, fun key hkey hacc => ?_⟩,
      ⟨not_opens_root.mp hr, fun key hkey hacc => ?_⟩⟩
    · exact (count_localKey_iff h hkey hacc).mp (hall.localKeys key hkey hacc)
    · exact (count_remoteKey_iff h hkey hacc).mp (hall.remoteKeys key hkey hacc)
  · rintro ⟨hlocals, hremotes⟩
    have hl := not_opens_root.mpr hlocals.root
    have hr := not_opens_root.mpr hremotes.root
    obtain ⟨fuel, pairs, h⟩ := (pairPaths_returns_iff nfc locals remotes).mpr ⟨hl, hr⟩
    refine ⟨fuel, pairs, h, fun key hkey hacc => ?_, fun key hkey hacc => ?_, nodup_localPath h,
      nodup_remotePath h,
      fun pair hpair _ l r hlocal hremote => pair_forms h hpair hlocal hremote,
        fun now options index hoptions => ?_⟩
    · exact (count_localKey_iff h hkey hacc).mpr (hlocals.above key hkey hacc)
    · exact (count_remoteKey_iff h hkey hacc).mpr (hremotes.above key hkey hacc)
    · refine ⟨_, congrArg _ h, ?_, examinedCount_split⟩
      rw [examinedCount_eq, length_rowsOf h hoptions]

/-! ### A file listed behind what is below it -/

/-- Names in ASCII are their own normal form. -/
def Nfc.ascii : Nfc := ⟨id, fun _ => rfl, fun _ => Iff.rfl, fun _ => Iff.rfl⟩

def plainFile : FileInfo := ⟨1, none, false, none, none⟩

/-- The keys `k/x` and `k`, iterated in this order. -/
def hidingInventory : Inventory := ⟨[⟨['k', '/', 'x'], plainFile⟩, ⟨['k'], plainFile⟩],
    show List.Nodup [['k', '/', 'x'], ['k']] by decide⟩

/-- An object store may list both `k/x` and `k`.  If `k` is the last of them, `k/x` is not
in any pair. -/
theorem hidingInventory_loses : ¬PairsAll Nfc.ascii hidingInventory ∅ := by
  rintro ⟨fuel, pairs, h, hall⟩
  have hpairs : pairPaths .ascii hidingInventory ∅ 2 = some
      [⟨some ['k'], none, ['k'], ['k'], false⟩] := by decide
  cases Worklist.walk_det h hpairs
  have hcount := hall.localKeys ['k', '/', 'x'] (by decide) (by decide)
  revert hcount
  decide

end AeroFtp.Sync
