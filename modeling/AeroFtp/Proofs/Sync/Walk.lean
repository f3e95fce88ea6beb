/-
The loop of `pair_paths` walks the places.

A folder of the work list stands at a place: its paths are those of the components, and it
has a path of its own on the sides that have the place.  Its siblings in the two trees are
the names below the place, so the loop comes to the folders that stand at reached places,
and the pairs it reports are those of the names below them.  None is reported twice: a
folder reports only what lies below it.
-/
import AeroFtp.Proofs.Sync.Places

namespace AeroFtp.Sync

open Std List Folder Worklist

/-- The path on the local side, where the place is on it. -/
def Kind.onLocal : Kind → Path → Option Path
  | remoteOnly, _ => none
  | _, path => some path

def Kind.onRemote : Kind → Path → Option Path
  | localOnly, _ => none
  | _, path => some path

/-- The folder stands at the place. -/
structure Folder.IsAt (folder : Folder) (ps qs : List Path) (kind : Kind) : Prop where
  lp : folder.lp = kind.onLocal (pathOf ps)
  rp : folder.rp = kind.onRemote (pathOf qs)
  ld : folder.ld = pathOf ps
  rd : folder.rd = pathOf qs

variable {nfc : Nfc} {locals remotes : Inventory} {ps qs : List Path} {kind : Kind} {sides : Sides}
  {folder below : Folder} {name : Path}

/-! ### One folder -/

/-- What stands in the folder under a name, with the names of the two sides. -/
abbrev Folder.ls (locals : Inventory) (folder : Folder) : Siblings :=
  siblingsAt (tree locals) folder.lp

abbrev Folder.rs (remotes : Inventory) (folder : Folder) : Siblings :=
  siblingsAt (tree remotes) folder.rp

abbrev Folder.under (locals remotes : Inventory) (folder : Folder) (p : Sides × Bool) : Folder :=
  folder.child (folder.ls locals) (folder.rs remotes) p.1 p.2

theorem visit_fst_eq : (visit nfc locals remotes folder).1 =
    (((pairNames nfc (folder.ls locals) (folder.rs remotes)).map
      (folder.under locals remotes)).filter (listed locals remotes)).map toPair := by
  simp only [visit, children, map_map]
  rfl

theorem visit_snd_eq : (visit nfc locals remotes folder).2 =
    ((pairNames nfc (folder.ls locals) (folder.rs remotes)).filter fun p =>
      p.1.isFolder (folder.ls locals) (folder.rs remotes)).map (folder.under locals remotes) := by
  simp only [visit, children, filter_map, map_map]
  rfl

variable {pair : Pair}

theorem mem_visit_fst : pair ∈ (visit nfc locals remotes folder).1 ↔
    ∃ p ∈ pairNames nfc (folder.ls locals) (folder.rs remotes),
      (folder.under locals remotes p).listed locals remotes = true ∧
        (folder.under locals remotes p).toPair = pair := by
  simp only [visit_fst_eq, mem_map, mem_filter, and_assoc, exists_exists_and_eq_and]

theorem mem_visit_snd : below ∈ (visit nfc locals remotes folder).2 ↔
    ∃ p ∈ pairNames nfc (folder.ls locals) (folder.rs remotes),
      p.1.isFolder (folder.ls locals) (folder.rs remotes) = true ∧ folder.under locals remotes p
        = below := by
  simp only [visit_snd_eq, mem_map, mem_filter, and_assoc]

/-! ### The sides exchanged -/

def Folder.swap (folder : Folder) : Folder :=
  ⟨folder.rp, folder.lp, folder.rd, folder.ld, folder.blocked⟩

def Pair.swap (pair : Pair) : Pair :=
  ⟨pair.remoteKey, pair.localKey, pair.remotePath, pair.localPath, pair.blocked⟩

theorem child_swap (ls rs : Siblings) (ambiguous : Bool) :
    folder.swap.child rs ls sides.swap ambiguous = (folder.child ls rs sides ambiguous).swap := by
  cases sides with
  | both ln rn =>
    simp [Folder.swap, Folder.child, Sides.swap, Sides.collision, Sides.ln, Sides.rn,
      Sides.localName, Sides.remoteName, eq_comm]
  | _ => rfl

theorem swap_mem_visit_fst (h : pair ∈ (visit nfc locals remotes folder).1) :
    pair.swap ∈ (visit nfc remotes locals folder.swap).1 := by
  obtain ⟨p, hp, hl, rfl⟩ := mem_visit_fst.mp h
  refine mem_visit_fst.mpr ⟨(p.1.swap, p.2), swap_mem_pairNames hp, ?_, ?_⟩
  · rw [under, child_swap, ← hl]
    exact Bool.or_comm _ _
  · rw [under, child_swap]
    rfl

theorem swap_mem_visit_snd (h : below ∈ (visit nfc locals remotes folder).2) :
    below.swap ∈ (visit nfc remotes locals folder.swap).2 := by
  obtain ⟨⟨sides, ambiguous⟩, hp, hf, rfl⟩ := mem_visit_snd.mp h
  refine mem_visit_snd.mpr ⟨(sides.swap, ambiguous), swap_mem_pairNames hp, ?_, child_swap _ _ _⟩
  rw [← hf, Sides.isFolder, Bool.or_comm]
  cases sides <;> rfl

/-! ### Folders and places -/

theorem siblingsAt_none (tree : Tree) : siblingsAt tree none = ∅ := rfl

/-- A folder on the stack: it stands at a place that is reached. -/
structure Folder.Stacked (nfc : Nfc) (locals remotes : Inventory) (folder : Folder)
    (ps qs : List Path) (kind : Kind) : Prop where
  reached : Reached nfc locals remotes ps qs kind
  isAt : folder.IsAt ps qs kind
  proper : Proper ps
  proper' : Proper qs

theorem Folder.IsAt.swap (h : folder.IsAt ps qs kind) : folder.swap.IsAt qs ps kind.swap := by
  cases kind <;> exact ⟨h.rp, h.lp, h.rd, h.ld⟩

section

variable (h : folder.Stacked nfc locals remotes ps qs kind)
include h

theorem Folder.Stacked.swap : folder.swap.Stacked nfc remotes locals qs ps kind.swap :=
  ⟨h.reached.swap, h.isAt.swap, h.proper', h.proper⟩

/-- The names of a folder on the local side: those that lie there, and none where the side has no
place. -/
theorem mem_localSiblings : (name ∈ folder.ls locals ↔ Lies locals (ps ++ [name])) ∧
      ((folder.ls locals)[name]? = some true ↔ Opens locals (ps ++ [name])) := by
  have hp : folder.lp = some (pathOf ps) ∨ folder.lp = none ∧ ¬Lies locals ps := by
    rw [h.isAt.lp]
    cases kind with
    | both => exact .inl rfl
    | localOnly => exact .inl rfl
    | remoteOnly => exact .inr ⟨rfl, h.reached.fate.2.1⟩
  rw [ls]
  rcases hp with hlp | ⟨hlp, hnone⟩
  · rw [hlp]
    exact ⟨mem_siblingsAt h.proper, siblingsAt_eq_true h.proper⟩
  · have hnot : ¬Lies locals (ps ++ [name]) := fun hlies => hnone hlies.of_append
    rw [hlp]
    refine ⟨by simp [siblingsAt_none, hnot], ?_⟩
    simp only [siblingsAt_none, TreeMap.getElem?_emptyc, reduceCtorEq, false_iff]
    exact fun ho => hnot ho.lies

theorem mem_remoteSiblings : (name ∈ folder.rs remotes ↔ Lies remotes (qs ++ [name])) ∧
      ((folder.rs remotes)[name]? = some true ↔ Opens remotes (qs ++ [name])) :=
  mem_localSiblings h.swap

/-- What the code finds in a folder is what stands below the place. -/
theorem exists_mem_pairNames_iff :
    (∃ ambiguous, (sides, ambiguous) ∈ pairNames nfc (folder.ls locals) (folder.rs remotes)) ↔
      NamesBelow nfc locals remotes ps qs sides := by
  simp only [exists_mem_pairNames, NamesBelow, mem_localSiblings h, mem_remoteSiblings h]

theorem isFolder_iff : sides.isFolder (folder.ls locals) (folder.rs remotes) = true ↔
      FolderBelow locals remotes ps qs sides := by
  simp only [Sides.isFolder, FolderBelow, Bool.or_eq_true, Option.any_eq_true, decide_eq_true_eq,
    (mem_localSiblings h).2, (mem_remoteSiblings h).2]

theorem child_lp (hb : NamesBelow nfc locals remotes ps qs sides) (ls rs : Siblings)
    (ambiguous : Bool) :
    (folder.child ls rs sides ambiguous).lp = sides.kind.onLocal
      (pathOf (ps ++ [sides.localName])) := by
  have hlp : Lies locals ps → folder.lp = some (pathOf ps) := by
    intro hlies
    rw [h.isAt.lp]
    cases kind with
    | both => rfl
    | localOnly => rfl
    | remoteOnly => exact absurd hlies h.reached.fate.2.1
  cases hb with
  | both hnames =>
    simp [child, hlp hnames.left.of_append, Sides.ln, Sides.kind, Kind.onLocal, Sides.localName]
  | localOnly hl _ =>
    simp [child, hlp hl.of_append, Sides.ln, Sides.kind, Kind.onLocal, Sides.localName]
  | remoteOnly _ _ => rfl

theorem child_isAt (hb : NamesBelow nfc locals remotes ps qs sides) (ls rs : Siblings)
    (ambiguous : Bool) :
    (folder.child ls rs sides ambiguous).IsAt (ps ++ [sides.localName])
      (qs ++ [sides.remoteName]) sides.kind where
  lp := child_lp h hb ls rs ambiguous
  rp := by
    have hrp := child_lp h.swap hb.swap rs ls ambiguous
    cases sides <;> exact hrp
  ld := by
    rw [pathOf_append_singleton, ← h.isAt.ld]
    rfl
  rd := by
    rw [pathOf_append_singleton, ← h.isAt.rd]
    rfl

end

/-! ### The whole walk -/

theorem stacked_root : root.Stacked nfc locals remotes [] [] .both :=
  ⟨.root, ⟨rfl, rfl, rfl, rfl⟩, .nil, .nil⟩

section
variable (hroots : ¬Opens locals [[]] ∧ ¬Opens remotes [[]])

include hroots

theorem Folder.Stacked.child (h : folder.Stacked nfc locals remotes ps qs kind)
    (hb : NamesBelow nfc locals remotes ps qs sides) (hf : FolderBelow locals remotes ps qs sides)
    (ls rs : Siblings) (ambiguous : Bool) :
    (folder.child ls rs sides ambiguous).Stacked nfc locals remotes (ps ++ [sides.localName])
      (qs ++ [sides.remoteName]) sides.kind :=
  have hreached := .step h.reached hb hf
  ⟨hreached, child_isAt h hb ls rs ambiguous, hreached.proper_local hroots,
    hreached.proper_remote hroots⟩

theorem Folder.Stacked.of_mem_visit (h : folder.Stacked nfc locals remotes ps qs kind)
    (hmem : below ∈ (visit nfc locals remotes folder).2) :
    ∃ sides, NamesBelow nfc locals remotes ps qs sides ∧
      below.Stacked nfc locals remotes (ps ++ [sides.localName])
        (qs ++ [sides.remoteName]) sides.kind := by
  obtain ⟨⟨sides, ambiguous⟩, hnames, hf, rfl⟩ := mem_visit_snd.mp hmem
  have hb := (exists_mem_pairNames_iff h).mp ⟨ambiguous, hnames⟩
  exact ⟨sides, hb, h.child hroots hb ((isFolder_iff h).mp hf) _ _ _⟩

/-- The folders the loop comes to stand at reached places. -/
theorem stacked_of_reaches (h : Worklist.Reaches (visit nfc locals remotes) root folder) :
    ∃ ps qs kind, folder.Stacked nfc locals remotes ps qs kind := by
  refine inv_of_reaches (fun folder => ∃ ps qs kind, folder.Stacked nfc locals remotes ps qs kind)
    (fun x y hx hy => ?_) ⟨[], [], .both, stacked_root⟩ h
  obtain ⟨ps, qs, kind, hx⟩ := hx
  obtain ⟨sides, -, hy⟩ := hx.of_mem_visit hroots hy
  exact ⟨_, _, _, hy⟩

/-- The loop comes to every place that is reached. -/
theorem reaches_of_reached (h : Reached nfc locals remotes ps qs kind) :
    ∃ folder, Worklist.Reaches (visit nfc locals remotes) root folder ∧
      folder.Stacked nfc locals remotes ps qs kind := by
  induction h with
  | root => exact ⟨_, Relation.ReflTransGen.refl, stacked_root⟩
  | step _ hb hf ih =>
    obtain ⟨folder, hreach, hs⟩ := ih
    obtain ⟨ambiguous, hnames⟩ := (exists_mem_pairNames_iff hs).mpr hb
    have hmem := mem_visit_snd.mpr ⟨_, hnames, (isFolder_iff hs).mpr hf, rfl⟩
    exact ⟨_, hreach.tail hmem, hs.child hroots hb hf _ _ _⟩

end

/-! ### When the loop ends -/

theorem lies_length_le (inv : Inventory) :
    ∃ bound, ∀ parts, Lies inv parts → parts.length ≤ bound := by
  have hent : ∃ bound, ∀ entry ∈ inv.entries, (splitSlash entry.1).length ≤ bound := by
    induction inv.entries with
    | nil => exact ⟨0, by simp⟩
    | cons first rest ih =>
      obtain ⟨bound, hb⟩ := ih
      refine ⟨max (splitSlash first.1).length bound, fun entry hentry => ?_⟩
      rcases mem_cons.mp hentry with rfl | hentry
      · exact Nat.le_max_left _ _
      · exact Nat.le_trans (hb entry hentry) (Nat.le_max_right _ _)
  obtain ⟨bound, hb⟩ := hent
  refine ⟨bound, fun parts hl => ?_⟩
  obtain ⟨entry, hentry, hl⟩ := hl
  exact Nat.le_trans hl.2.length_le (hb entry hentry)

/-- A folder in a folder is one name deeper, so the walk is finite. -/
theorem acc_of_stacked (hroots : ¬Opens locals [[]] ∧ ¬Opens remotes [[]]) {bound : Nat}
    (hbound : ∀ parts, Lies locals parts ∨ Lies remotes parts → parts.length ≤ bound) :
    ∀ (depth : Nat) {folder : Folder} {ps qs : List Path} {kind : Kind},
      folder.Stacked nfc locals remotes ps qs kind → bound ≤ ps.length + depth →
      Acc (Worklist.Child (visit nfc locals remotes)) folder := by
  intro depth
  induction depth with
  | zero =>
    intro folder ps qs kind h hd
    refine .intro _ fun below hbelow => ?_
    obtain ⟨sides, hnames, -⟩ := h.of_mem_visit hroots hbelow
    have hlen : ps.length = qs.length := h.reached.forms.length_eq
    have hle : ps.length + 1 ≤ bound := by
      rcases hnames.lies.1 with hlies | hlies
      · simpa using hbound _ (.inl hlies)
      · simpa [hlen] using hbound _ (.inr hlies)
    omega
  | succ depth ih =>
    intro folder ps qs kind h hd
    refine .intro _ fun below hbelow => ?_
    obtain ⟨sides, -, hbelow⟩ := h.of_mem_visit hroots hbelow
    refine ih hbelow ?_
    rw [length_append, length_singleton]
    omega

/-- A root that is listed as a directory is among its own siblings, so it is found in itself
again. -/
theorem endless_local (hl : Opens locals [[]]) (folder : Folder) (h : folder.lp = some []) :
    ∃ below ∈ (visit nfc locals remotes folder).2, below.lp = some [] := by
  have ht : (folder.ls locals)[([] : Path)]? = some true := by
    rw [ls, h]
    exact (siblingsAt_eq_true .nil).mpr hl
  have hmem : ([] : Path) ∈ folder.ls locals := by
    rw [TreeMap.mem_iff_isSome_getElem?, ht]
    rfl
  obtain ⟨sides, hs, hln⟩ := exists_stands_ln nfc (· ∈ folder.ls locals)
    (· ∈ folder.rs remotes) hmem
  obtain ⟨ambiguous, hnames⟩ := exists_mem_pairNames.mpr hs
  refine ⟨_, mem_visit_snd.mpr ⟨_, hnames, ?_, rfl⟩, ?_⟩
  · simp [Sides.isFolder, hln, ht]
  · simp [child, hln, h, join_nil]

theorem endless_remote (hr : Opens remotes [[]]) (folder : Folder) (h : folder.rp = some []) :
    ∃ below ∈ (visit nfc locals remotes folder).2, below.rp = some [] := by
  obtain ⟨below, hmem, hlp⟩ := endless_local hr folder.swap h
  exact ⟨below.swap, swap_mem_visit_snd hmem, hlp⟩

/-- **The loop ends exactly when no side lists the root as a directory.** -/
theorem pairPaths_returns_iff (nfc : Nfc) (locals remotes : Inventory) :
    (∃ fuel pairs, pairPaths nfc locals remotes fuel = some pairs) ↔
      ¬Opens locals [[]] ∧ ¬Opens remotes [[]] := by
  rw [show (∃ fuel pairs, pairPaths nfc locals remotes fuel = some pairs) ↔ _ from walk_returns_iff]
  constructor
  · intro hacc
    refine ⟨fun hl => ?_, fun hr => ?_⟩
    · exact not_acc_of_endless (fun folder : Folder => folder.lp = some [])
        (endless_local hl) rfl hacc
    · exact not_acc_of_endless (fun folder : Folder => folder.rp = some [])
        (endless_remote hr) rfl hacc
  · intro hroots
    obtain ⟨b, hb⟩ := lies_length_le locals
    obtain ⟨b', hb'⟩ := lies_length_le remotes
    have hbound : ∀ parts, Lies locals parts ∨ Lies remotes parts → parts.length ≤ b + b' := by
      rintro parts (hlies | hlies)
      · exact Nat.le_trans (hb parts hlies) (Nat.le_add_right _ _)
      · exact Nat.le_trans (hb' parts hlies) (Nat.le_add_left _ _)
    exact acc_of_stacked hroots hbound (b + b') stacked_root (by simp)

variable {pairs : List Pair}

theorem roots_of_pairPaths {fuel : Nat} (h : pairPaths nfc locals remotes fuel = some pairs) :
    ¬Opens locals [[]] ∧ ¬Opens remotes [[]] :=
  (pairPaths_returns_iff nfc locals remotes).mp ⟨fuel, pairs, h⟩

/-! ### What it reports -/

/-- A name below a place that is reached. -/
def Placed (nfc : Nfc) (locals remotes : Inventory) (ps qs : List Path) (sides : Sides) : Prop :=
  (∃ kind, Reached nfc locals remotes ps qs kind) ∧ NamesBelow nfc locals remotes ps qs sides

/-- What a pair says of the names it stands for. -/
structure Pair.IsAt (pair : Pair) (ps qs : List Path) (kind : Kind) : Prop where
  localKey : pair.localKey = kind.onLocal (pathOf ps)
  remoteKey : pair.remoteKey = kind.onRemote (pathOf qs)
  localPath : pair.localPath = pathOf ps
  remotePath : pair.remotePath = pathOf qs

/-- A side lists the pair. -/
def Pair.Listed (locals remotes : Inventory) (pair : Pair) : Prop :=
  (∃ key ∈ locals, pair.localKey = some key) ∨ ∃ key ∈ remotes, pair.remoteKey = some key

theorem listed_iff : folder.listed locals remotes = true ↔ folder.toPair.Listed locals remotes := by
  simp [listed, toPair, Pair.Listed, Option.any_eq_true, and_comm]

section
variable {fuel : Nat} {pairs : List Pair} {pair : Pair}
variable (h : pairPaths nfc locals remotes fuel = some pairs)

include h

/-- **Each pair stands for a name below a place that is reached.** -/
theorem pair_placed (hp : pair ∈ pairs) : ∃ ps qs sides, Placed nfc locals remotes ps qs sides ∧
    pair.IsAt (ps ++ [sides.localName]) (qs ++ [sides.remoteName]) sides.kind ∧
      pair.Listed locals remotes := by
  obtain hnil | ⟨x, hx, folder, hr, hmem⟩ := (mem_walk fuel h).mp hp
  · cases hnil
  · cases mem_singleton.mp hx
    obtain ⟨ps, qs, kind, hs⟩ := stacked_of_reaches (roots_of_pairPaths h) hr
    obtain ⟨⟨sides, ambiguous⟩, hnames, hl, rfl⟩ := mem_visit_fst.mp hmem
    have hb := (exists_mem_pairNames_iff hs).mp ⟨ambiguous, hnames⟩
    have hat := child_isAt hs hb (folder.ls locals) (folder.rs remotes) ambiguous
    exact ⟨ps, qs, sides, ⟨⟨kind, hs.reached⟩, hb⟩, ⟨hat.lp, hat.rp, hat.ld, hat.rd⟩,
      listed_iff.mp hl⟩

/-- **Each name below a place that is reached is reported, where a side lists it.** -/
theorem exists_pair (hp : Placed nfc locals remotes ps qs sides)
    (hl : (∃ key ∈ locals, sides.kind.onLocal (pathOf (ps ++ [sides.localName])) = some key) ∨
      ∃ key ∈ remotes, sides.kind.onRemote (pathOf (qs ++ [sides.remoteName])) = some key) :
    ∃ pair ∈ pairs, pair.IsAt (ps ++ [sides.localName]) (qs ++ [sides.remoteName]) sides.kind := by
  obtain ⟨⟨kind, hreached⟩, hb⟩ := hp
  obtain ⟨folder, hreach, hs⟩ := reaches_of_reached (roots_of_pairPaths h) hreached
  obtain ⟨ambiguous, hnames⟩ := (exists_mem_pairNames_iff hs).mpr hb
  have hat := child_isAt hs hb (folder.ls locals) (folder.rs remotes) ambiguous
  have hmem := mem_visit_fst.mpr ⟨_, hnames, listed_iff.mpr ?_, rfl⟩
  · refine ⟨_, (mem_walk fuel h).mpr (.inr ⟨_, mem_singleton.mpr rfl, folder, hreach, hmem⟩), ?_⟩
    exact ⟨hat.lp, hat.rp, hat.ld, hat.rd⟩
  · exact hl.imp (fun ⟨key, hkey, heq⟩ => ⟨key, hkey, hat.lp.trans heq⟩)
      fun ⟨key, hkey, heq⟩ => ⟨key, hkey, hat.rp.trans heq⟩

end

/-! ### No path is given twice -/

/-- The components of a folder's path. -/
def components (dir : Path) : List Path := if dir = [] then [] else splitSlash dir

theorem Proper.components_pathOf (h : Proper ps) : components (pathOf ps) = ps := by
  by_cases hnil : ps = []
  · subst hnil
    rfl
  · rw [components, if_neg fun he => hnil (h.pathOf_eq_nil.mp he), h.splitSlash_pathOf hnil]

/-- The path lies below the folder with the path `dir`. -/
def LiesBelow (dir path : Path) : Prop :=
  ∃ more, more ≠ [] ∧ splitSlash path = components dir ++ more

section
variable {p : Sides × Bool} (h : folder.Stacked nfc locals remotes ps qs kind)
  (hnames : p ∈ pairNames nfc (folder.ls locals) (folder.rs remotes))

include h hnames

theorem splitSlash_under :
    splitSlash (folder.under locals remotes p).ld = components folder.ld ++ [p.1.localName] := by
  have hb := (exists_mem_pairNames_iff h).mp ⟨p.2, hnames⟩
  show splitSlash (join folder.ld p.1.localName) = _
  rw [h.isAt.ld, h.proper.splitSlash_join hb.slashFree.1, h.proper.components_pathOf]

theorem components_under (hroots : ¬Opens locals [[]] ∧ ¬Opens remotes [[]])
    (hf : p.1.isFolder (folder.ls locals) (folder.rs remotes) = true) :
    components (folder.under locals remotes p).ld = components folder.ld ++ [p.1.localName] := by
  have hb := (exists_mem_pairNames_iff h).mp ⟨p.2, hnames⟩
  have hc := h.child hroots hb ((isFolder_iff h).mp hf) (folder.ls locals) (folder.rs remotes) p.2
  rw [hc.isAt.ld, hc.proper.components_pathOf, h.isAt.ld, h.proper.components_pathOf]

end

theorem nodup_visit (h : folder.Stacked nfc locals remotes ps qs kind) :
    ((visit nfc locals remotes folder).1.map Pair.localPath).Nodup := by
  have hpaths : ((pairNames nfc (folder.ls locals) (folder.rs remotes)).map fun p =>
      (folder.under locals remotes p).ld).Nodup := by
    refine (List.Nodup.of_map _ nodup_localNames).map_on fun p hp p' hp' heq => ?_
    have hs := congrArg splitSlash heq
    rw [splitSlash_under h hp, splitSlash_under h hp'] at hs
    exact inj_on_of_nodup_map nodup_localNames hp hp' (singleton_inj.mp (append_cancel_left hs))
  rw [visit_fst_eq, map_map]
  refine List.Nodup.sublist (filter_sublist.map _) ?_
  rw [map_map]
  exact hpaths

section
variable (hroots : ¬Opens locals [[]] ∧ ¬Opens remotes [[]])

include hroots

/-- A folder owns the paths below it. -/
theorem territories : Worklist.Territories (visit nfc locals remotes) Pair.localPath
    (fun folder => ∃ ps qs kind, folder.Stacked nfc locals remotes ps qs kind)
    (fun folder => LiesBelow folder.ld) := by
  refine ⟨?_, ?_, ?_, ?_, ?_, ?_⟩
  · rintro x y ⟨ps, qs, kind, hx⟩ hy
    obtain ⟨sides, -, hy⟩ := hx.of_mem_visit hroots hy
    exact ⟨_, _, _, hy⟩
  · rintro x ⟨ps, qs, kind, hx⟩
    exact nodup_visit hx
  · rintro x pair ⟨ps, qs, kind, hx⟩ hpair
    obtain ⟨p, hnames, -, rfl⟩ := mem_visit_fst.mp hpair
    exact ⟨[p.1.localName], by simp, splitSlash_under hx hnames⟩
  · rintro x y path ⟨ps, qs, kind, hx⟩ hy ⟨more, hne, hs⟩
    obtain ⟨p, hnames, hf, rfl⟩ := mem_visit_snd.mp hy
    rw [components_under hx hnames hroots hf, append_assoc] at hs
    exact ⟨_, by simp, hs⟩
  · rintro x y pair ⟨ps, qs, kind, hx⟩ hy hpair ⟨more, hne, hs⟩
    obtain ⟨p, hnames, hf, rfl⟩ := mem_visit_snd.mp hy
    obtain ⟨p', hnames', -, rfl⟩ := mem_visit_fst.mp hpair
    have hlen := congrArg length ((splitSlash_under hx hnames').symm.trans hs)
    have hm := length_pos_iff.mpr hne
    rw [components_under hx hnames hroots hf] at hlen
    simp only [length_append, length_cons] at hlen
    omega
  · rintro x ⟨ps, qs, kind, hx⟩
    rw [visit_snd_eq, pairwise_map]
    refine ((pairwise_map.mp nodup_localNames).filter _).imp_of_mem
      fun {p p'} hp hp' hne path hown hown' => ?_
    obtain ⟨hp, hf⟩ := mem_filter.mp hp
    obtain ⟨hp', hf'⟩ := mem_filter.mp hp'
    obtain ⟨more, -, hs⟩ := hown
    obtain ⟨more', -, hs'⟩ := hown'
    rw [components_under hx hp hroots hf, append_assoc] at hs
    rw [components_under hx hp' hroots hf', append_assoc] at hs'
    exact hne (cons.inj (append_cancel_left (hs.symm.trans hs'))).1

end

/-- **No local path is given twice.** -/
theorem nodup_localPath {fuel : Nat} (h : pairPaths nfc locals remotes fuel = some pairs) :
    (pairs.map Pair.localPath).Nodup :=
  nodup_walk (territories (roots_of_pairPaths h)) ⟨[], [], .both, stacked_root⟩ h

/-! ### The pairs with the sides exchanged -/

section
variable {fuel fuel' : Nat} {pairs pairs' : List Pair}
  (h : pairPaths nfc locals remotes fuel = some pairs)

include h

theorem swap_mem_pairPaths (h' : pairPaths nfc remotes locals fuel' = some pairs')
    (hp : pair ∈ pairs) : pair.swap ∈ pairs' := by
  obtain hnil | ⟨x, hx, folder, hr, hmem⟩ := (mem_walk fuel h).mp hp
  · cases hnil
  · cases mem_singleton.mp hx
    have hs : Worklist.Reaches (visit nfc remotes locals) .root folder.swap :=
      Relation.ReflTransGen.lift Folder.swap (fun _ _ => swap_mem_visit_snd) _ _ hr
    exact (mem_walk fuel' h').mpr
      (.inr ⟨_, mem_singleton.mpr rfl, _, hs, swap_mem_visit_fst hmem⟩)

/-- **It does not matter which side is the local one.** -/
theorem exists_swap : ∃ fuel' pairs', pairPaths nfc remotes locals fuel' = some pairs' ∧
    pairs'.Perm (pairs.map Pair.swap) := by
  obtain ⟨fuel', pairs', h'⟩ := (pairPaths_returns_iff nfc remotes locals).mpr
    (roots_of_pairPaths h).symm
  have hinj : Function.Injective Pair.swap := Function.Involutive.injective fun _ => rfl
  refine ⟨fuel', pairs', h', (perm_ext_iff_of_nodup (.of_map _ (nodup_localPath h'))
    ((List.Nodup.of_map _ (nodup_localPath h)).map hinj)).mpr fun pair => ?_⟩
  rw [mem_map]
  constructor
  · intro hp
    exact ⟨pair.swap, swap_mem_pairPaths h' h hp, rfl⟩
  · rintro ⟨pair, hp, rfl⟩
    exact swap_mem_pairPaths h h' hp

/-- **No remote path is given twice.** -/
theorem nodup_remotePath : (pairs.map Pair.remotePath).Nodup := by
  obtain ⟨fuel', pairs', h', hp⟩ := exists_swap h
  have hn := (hp.map Pair.localPath).nodup_iff.mp (nodup_localPath h')
  rwa [map_map] at hn

end

end AeroFtp.Sync
