/-
A sync does not reach what its scans did not see.

The bound only grows.  Every prefix that was looked up is known as the disk has it, and one
that is a link or cannot be read is bounded; a walk along the prefixes of a path therefore
ends at a bounded prefix, at one that is absent, or at the path.  Where nothing that stops
a run lies below an absent prefix, a path that is left is below no link and no unreadable
prefix.  The plan names only what is left.
-/
import AeroFtp.Proofs.TransferDag.SyncPlan

namespace AeroFtp.SyncCore

open Sync List ScanBound SymlinkMetadata PrefixWalk

/-! ### Prefixes of a path -/

/-- `path` is `above` or lies under it. -/
def AtOrUnder (above path : Path) : Prop := path = above ∨ (above ++ ['/']) <+: path

theorem take_slash {path : Path} {i : Nat} (h : path[i]? = some '/') :
    path.take i ++ ['/'] = path.take (i + 1) := by
  rw [take_add_one, h]
  rfl

theorem mem_beforeSlashes_iff {above path : Path} :
    above ∈ beforeSlashes path ↔ (above ++ ['/']) <+: path := by
  constructor
  · intro h
    obtain ⟨i, hi, hs⟩ := mem_filterMap.mp h
    split at hs
    · rename_i hc
      cases hs
      rw [take_slash hc]
      exact take_prefix ..
    · cases hs
  · intro h
    obtain ⟨rest, rfl⟩ := h
    refine mem_filterMap.mpr ⟨above.length, mem_range.mpr (by simp), ?_⟩
    simp

theorem mem_prefixEnds {above path : Path} : above ∈ prefixEnds path ↔ AtOrUnder above path := by
  rw [prefixEnds, mem_append, mem_singleton, mem_beforeSlashes_iff, AtOrUnder,
    or_comm, eq_comm]

variable (path : Path)

theorem pairwise_prefixEnds :
    (prefixEnds path).Pairwise fun above below => (above ++ ['/']) <+: below := by
  rw [prefixEnds, pairwise_append]
  refine ⟨?_, pairwise_singleton .., ?_⟩
  · refine List.Pairwise.filterMap _ ?_ pairwise_lt_range
    intro i j hij above ha below hb
    simp only [Option.ite_none_right_eq_some, Option.some.injEq] at ha hb
    obtain ⟨hs, rfl⟩ := ha
    obtain ⟨-, rfl⟩ := hb
    rw [take_slash hs]
    exact take_prefix_take_left hij
  · intro above ha below hb
    rw [mem_singleton.mp hb]
    exact mem_beforeSlashes_iff.mp ha

/-! ### The bound -/

namespace ScanBound

variable {bound : ScanBound}

theorem covers_iff {path : Path} :
    bound.covers path = true ↔ ∃ above ∈ bound.paths, AtOrUnder above path := by
  have hp : bound.covers path = true ↔ ∃ above ∈ prefixEnds path, above ∈ bound.paths := by
    unfold covers
    split
    · rename_i he
      rw [isEmpty_iff.mp he]
      simp
    · simp [prefixEnds, or_comm]
  rw [hp]
  constructor
  · intro h
    obtain ⟨above, habove, hmem⟩ := h
    exact ⟨above, hmem, mem_prefixEnds.mp habove⟩
  · intro h
    obtain ⟨above, hmem, habove⟩ := h
    exact ⟨above, mem_prefixEnds.mpr habove, hmem⟩

theorem addLink_paths (bound : ScanBound) (link : SkippedLink) :
    (bound.addLink link).paths = bound.paths.insert link.relPath := by
  unfold addLink List.insert
  split <;> rfl

theorem addUnseen_paths (bound : ScanBound) (unseen : UnseenPath) :
    (bound.addUnseen unseen).paths = bound.paths.insert unseen.relPath := by
  unfold addUnseen List.insert
  split <;> rfl

/-- What a bound can become: links and unseen paths are added to it. -/
inductive Grown (bound : ScanBound) : ScanBound → Prop where
  | refl : Grown bound bound
  | link {grown : ScanBound} (h : Grown bound grown) (link : SkippedLink) :
      Grown bound (grown.addLink link)
  | unseen {grown : ScanBound} (h : Grown bound grown) (path : UnseenPath) :
      Grown bound (grown.addUnseen path)

theorem Grown.trans {a b c : ScanBound} (hab : Grown a b) (hbc : Grown b c) : Grown a c := by
  induction hbc with
  | refl => exact hab
  | link h link ih => exact .link ih link
  | unseen h path ih => exact .unseen ih path

variable {grown : ScanBound}

theorem Grown.paths (h : Grown bound grown) : bound.paths ⊆ grown.paths := by
  induction h with
  | refl => exact List.Subset.refl _
  | link h link ih =>
    intro path hp
    rw [addLink_paths]
    exact mem_insert_of_mem (ih hp)
  | unseen h unseen ih =>
    intro path hp
    rw [addUnseen_paths]
    exact mem_insert_of_mem (ih hp)

theorem Grown.covers (h : Grown bound grown) {path : Path}
    (hp : bound.covers path = true) : grown.covers path = true := by
  obtain ⟨above, hmem, hu⟩ := covers_iff.mp hp
  exact covers_iff.mpr ⟨above, h.paths hmem, hu⟩

theorem addLink_grown (bound : ScanBound) (link : SkippedLink) :
    Grown bound (bound.addLink link) ∧ link.relPath ∈ (bound.addLink link).paths := by
  refine ⟨Grown.refl.link link, ?_⟩
  rw [addLink_paths]
  exact mem_insert_self

theorem addUnseen_grown (bound : ScanBound) (path : UnseenPath) :
    Grown bound (bound.addUnseen path) ∧ path.relPath ∈ (bound.addUnseen path).paths := by
  refine ⟨Grown.refl.unseen path, ?_⟩
  rw [addUnseen_paths]
  exact mem_insert_self

theorem foldl_grown {α : Type} {add : ScanBound → α → ScanBound} {rel : α → Path}
    (hadd : ∀ bound item, Grown bound (add bound item) ∧ rel item ∈ (add bound item).paths)
    (items : List α) (bound : ScanBound) :
    Grown bound (items.foldl add bound) ∧ ∀ item ∈ items,
      rel item ∈ (items.foldl add bound).paths := by
  induction items generalizing bound with
  | nil => exact ⟨.refl, fun _ h => absurd h not_mem_nil⟩
  | cons first rest ih =>
    obtain ⟨hf, hmem⟩ := hadd bound first
    obtain ⟨hg, hr⟩ := ih (add bound first)
    refine ⟨hf.trans hg, ?_⟩
    intro item hi
    rcases mem_cons.mp hi with rfl | hi
    · exact hg.paths hmem
    · exact hr item hi

/-- The paths the two scans name: the remote links and the unseen paths of both sides. -/
def named (here there : ScanBoundaries) : List Path :=
  there.links.map (·.relPath) ++ (there.unseen ++ here.unseen).map (·.relPath)

theorem mem_ofBoundaries {here there : ScanBoundaries} {path : Path} (h : path ∈ named here there) :
    path ∈ (ofBoundaries here there).paths := by
  rcases mem_append.mp h with h | h
  · obtain ⟨link, hl, rfl⟩ := mem_map.mp h
    exact (foldl_grown addUnseen_grown _ _).1.paths ((foldl_grown addLink_grown _ _).2 link hl)
  · obtain ⟨unseen, hu, rfl⟩ := mem_map.mp h
    exact (foldl_grown addUnseen_grown _ _).2 unseen hu

end ScanBound

/-! ### The walk along the prefixes -/

/-- What `symlink_metadata` says, as it is kept. -/
def SymlinkMetadata.state : SymlinkMetadata → LocalPrefix
  | .link .. => .link
  | .present => .present
  | .absent => .absent
  | .unreadable => .unreadable

/-- A run must not pass it: a link, or unreadable. -/
def SymlinkMetadata.Stops (metadata : SymlinkMetadata) : Prop :=
  metadata.state = .link ∨ metadata.state = .unreadable

namespace PrefixWalk

open ScanBound

variable {disk : Path → SymlinkMetadata} {w : PrefixWalk}

/-- The prefixes that were looked up are kept as they are, and bounded where they must be. -/
def Kept (disk : Path → SymlinkMetadata) (w : PrefixWalk) : Prop :=
  ∀ above state, w.onDisk.lookup above = some state →
    state = (disk above).state ∧ ((disk above).Stops → above ∈ w.bound.paths)

theorem lookUp_spec (disk : Path → SymlinkMetadata) (w : PrefixWalk) (above : Path) :
    (w.lookUp disk above).2 = (disk above).state ∧ Grown w.bound (w.lookUp disk above).1 ∧
      ((disk above).Stops → above ∈ (w.lookUp disk above).1.paths) := by
  unfold lookUp
  cases hd : disk above with
  | link linkTarget isDir =>
    obtain ⟨hg, hmem⟩ := addLink_grown w.bound ⟨above, linkTarget, isDir⟩
    exact ⟨rfl, hg, fun _ => hmem⟩
  | present => exact ⟨rfl, .refl, by simp [SymlinkMetadata.Stops, state]⟩
  | absent => exact ⟨rfl, .refl, by simp [SymlinkMetadata.Stops, state]⟩
  | unreadable =>
    obtain ⟨hg, hmem⟩ := addUnseen_grown w.bound ⟨above, "unreadable", some true⟩
    exact ⟨rfl, hg, fun _ => hmem⟩

theorem stateOf_spec (h : Kept disk w) (above : Path) :
    (w.stateOf disk above).2 = (disk above).state ∧ Kept disk (w.stateOf disk above).1 ∧
      Grown w.bound (w.stateOf disk above).1.bound ∧
      ((disk above).Stops → above ∈ (w.stateOf disk above).1.bound.paths) := by
  unfold stateOf
  cases hl : w.onDisk.lookup above with
  | some state => exact ⟨(h above state hl).1, h, .refl, (h above state hl).2⟩
  | none =>
    obtain ⟨hstate, hg, hb⟩ := lookUp_spec disk w above
    refine ⟨hstate, ?_, hg, hb⟩
    intro other state ho
    by_cases heq : other = above
    · subst heq
      rw [AList.lookup_insert] at ho
      exact ⟨(Option.some.inj ho).symm.trans hstate, hb⟩
    · rw [AList.lookup_insert_ne heq] at ho
      obtain ⟨hstate', hb'⟩ := h other state ho
      exact ⟨hstate', fun hstops => hg.paths (hb' hstops)⟩

/-- A walk along `aboves` ends at a bounded prefix, or all that it has passed is present
and what stopped it is absent. -/
theorem along_spec (h : Kept disk w) (aboves : List Path) :
    Kept disk (w.along disk aboves) ∧ Grown w.bound (w.along disk aboves).bound ∧
      ((∃ above ∈ aboves, above ∈ (w.along disk aboves).bound.paths) ∨
        ∃ passed rest, aboves = passed ++ rest ∧ (∀ above ∈ passed, disk above = .present) ∧
          ∀ absent ∈ rest.head?, disk absent = .absent) := by
  induction aboves generalizing w with
  | nil => exact ⟨h, .refl, .inr ⟨[], [], rfl, by simp, by simp⟩⟩
  | cons first rest ih =>
    obtain ⟨hstate, hk, hg, hb⟩ := stateOf_spec h first
    unfold along
    by_cases hpres : (w.stateOf disk first).2 = .present
    · obtain ⟨hk', hg', hend⟩ := ih hk
      simp only [hpres]
      refine ⟨hk', hg.trans hg', ?_⟩
      have hf : disk first = .present := by
        rw [hpres] at hstate
        cases hd : disk first <;> simp [hd, state] at hstate ⊢
      rcases hend with ⟨above, hmem, hpath⟩ | ⟨passed, rest', rfl, hpass, hh⟩
      · exact .inl ⟨above, mem_cons_of_mem _ hmem, hpath⟩
      · exact .inr ⟨first :: passed, rest', rfl, by simpa [hf] using hpass, hh⟩
    · simp only [hpres]
      refine ⟨hk, hg, ?_⟩
      by_cases hstops : (disk first).Stops
      · exact .inl ⟨first, mem_cons_self, hb hstops⟩
      · refine .inr ⟨[], first :: rest, rfl, by simp, ?_⟩
        intro absent habs
        cases habs
        rw [hstate] at hpres
        cases hd : disk first <;>
          simp [hd, SymlinkMetadata.Stops, state] at hstops hpres ⊢

/-- Nothing that stops a run lies below an absent prefix. -/
def NothingBelowAbsent (disk : Path → SymlinkMetadata) : Prop :=
  ∀ above below, disk above = .absent → (above ++ ['/']) <+: below → ¬ (disk below).Stops

theorem along_prefixEnds (hd : NothingBelowAbsent disk) (h : Kept disk w) {rel : Path}
    (ho : (w.along disk (prefixEnds rel)).bound.covers rel = false) {above : Path}
    (habove : AtOrUnder above rel) : ¬ (disk above).Stops := by
  obtain ⟨-, -, hend⟩ := along_spec h (prefixEnds rel)
  rcases hend with ⟨bounded, hmem, hpath⟩ | ⟨passed, rest, hs, hpass, hh⟩
  · rw [covers_iff.mpr ⟨bounded, hpath, mem_prefixEnds.mp hmem⟩] at ho
    cases ho
  have hends := pairwise_prefixEnds rel
  have hmem := mem_prefixEnds.mpr habove
  rw [hs] at hends hmem
  rcases mem_append.mp hmem with hmem | hmem
  · rw [hpass above hmem]
    simp [SymlinkMetadata.Stops, state]
  · cases rest with
    | nil => cases hmem
    | cons absent rest =>
      have habs := hh absent rfl
      rcases mem_cons.mp hmem with rfl | hmem
      · rw [habs]
        simp [SymlinkMetadata.Stops, state]
      · -- The longer prefixes lie under the absent one.
        have hu := (pairwise_append.mp hends).2.1
        exact hd absent above habs ((pairwise_cons.mp hu).1 above hmem)

theorem visit_spec (localPaths : List Path) (h : Kept disk w) (rel : Path) :
    Kept disk (w.visit disk localPaths rel) ∧
      Grown w.bound (w.visit disk localPaths rel).bound := by
  unfold visit
  split
  · exact ⟨h, .refl⟩
  · obtain ⟨hk, hg, -⟩ := along_spec h (prefixEnds rel)
    exact ⟨hk, hg⟩

theorem foldl_visit_grown (localPaths : List Path) (h : Kept disk w) (remotePaths : List Path) :
    Grown w.bound (remotePaths.foldl (visit disk localPaths) w).bound := by
  induction remotePaths generalizing w with
  | nil => exact .refl
  | cons first rest ih =>
    obtain ⟨hk, hg⟩ := visit_spec localPaths h first
    exact hg.trans (ih hk)

theorem foldl_visit_open (hd : NothingBelowAbsent disk) (localPaths : List Path) (h : Kept disk w)
    (remotePaths : List Path) : ∀ rel ∈ remotePaths, rel ∉ localPaths →
      (remotePaths.foldl (visit disk localPaths) w).bound.covers rel = false →
      ∀ above, AtOrUnder above rel → ¬ (disk above).Stops := by
  induction remotePaths generalizing w with
  | nil => exact fun _ h => absurd h not_mem_nil
  | cons first rest ih =>
    obtain ⟨hk, hg⟩ := visit_spec localPaths h first
    intro rel hrel hl ho above habove
    rcases mem_cons.mp hrel with rfl | hrel
    · -- What is not covered at the end was not covered before.
      have ho' : (w.visit disk localPaths rel).bound.covers rel = false := by
        rw [Bool.eq_false_iff] at ho ⊢
        exact fun hc => ho ((foldl_visit_grown localPaths hk rest).covers hc)
      have hs : ¬ (localPaths.contains rel || w.bound.covers rel) = true := by
        rw [Bool.or_eq_true, not_or, contains_iff_mem]
        refine ⟨hl, ?_⟩
        intro hc
        rw [hg.covers hc] at ho'
        cases ho'
      rw [visit, if_neg hs] at ho'
      exact along_prefixEnds hd h ho' habove
    · exact ih hk rel hrel hl ho above habove

theorem kept_start (bound : ScanBound) : Kept disk ⟨bound, ∅⟩ := by
  intro above state hl
  cases hl

end PrefixWalk

/-! ### What is left -/

open PrefixWalk

variable {disk : Path → SymlinkMetadata} {locals : List LocalEntry} {remotes : List RemoteEntry}
variable {here there : ScanBoundaries}

theorem forSync_grown (disk : Path → SymlinkMetadata) (localPaths remotePaths : List Path) :
    ScanBound.Grown (ofBoundaries here there) (forSync disk localPaths remotePaths here there) :=
  foldl_visit_grown localPaths (kept_start _) remotePaths

/-- A path outside all that the scans did not see: it is at or under no remote link and no
unseen path of either side, and, unless the local scan holds it, under no local prefix that
is a link or unreadable. -/
def Outside (disk : Path → SymlinkMetadata) (locals : List LocalEntry) (here there : ScanBoundaries)
    (path : Path) : Prop :=
  (∀ above ∈ ScanBound.named here there, ¬ AtOrUnder above path) ∧
    (path ∉ locals.map (·.relPath) → ∀ above, AtOrUnder above path → ¬ (disk above).Stops)

theorem outside_of_open (hd : NothingBelowAbsent disk) {path : Path}
    (ho : (forSync disk (locals.map (·.relPath)) (remotes.map (·.relPath)) here there).covers
      path = false) (hp : path ∈ locals.map (·.relPath) ∨ path ∈ remotes.map (·.relPath)) :
    Outside disk locals here there path := by
  refine ⟨?_, ?_⟩
  · intro above hn hu
    have hmem := (forSync_grown disk (locals.map (·.relPath)) (remotes.map (·.relPath))).paths
      (mem_ofBoundaries hn)
    rw [covers_iff.mpr ⟨above, hmem, hu⟩] at ho
    cases ho
  · intro hl
    rcases hp with hp | hp
    · exact absurd hp hl
    · exact foldl_visit_open hd _ (kept_start _) _ path hp hl ho

theorem apply_eq : apply disk locals remotes here there =
    let bound := forSync disk (locals.map (·.relPath)) (remotes.map (·.relPath)) here there
    (bound, locals.filter fun entry => !bound.covers entry.relPath,
      remotes.filter fun entry => !bound.covers entry.relPath) := by
  unfold apply
  dsimp only
  split
  · rename_i hempty
    have ho : ∀ path, (forSync disk (locals.map (·.relPath)) (remotes.map (·.relPath))
        here there).covers path = false := by
      intro path
      rw [covers, if_pos hempty]
    simp [ho]
  · rfl

/-- **A sync does not reach what its scans did not see.**  For all scans and boundaries, and
every disk on which nothing that stops a run lies below an absent prefix: the entries that
are left, and every transfer and deletion planned on them, are outside. -/
theorem sync_stays_outside (disk : Path → SymlinkMetadata) (hdisk : NothingBelowAbsent disk)
    (locals : List LocalEntry) (remotes : List RemoteEntry) (here there : ScanBoundaries)
    (parse : String → Option Int) (opts : SyncOptions) (window : ModifyWindow) :
    let left := (ScanBound.apply disk locals remotes here there).2
    let plan := Dag.planSyncDag parse opts window left.1 left.2
    (∀ entry ∈ left.1, Outside disk locals here there entry.relPath) ∧
      (∀ entry ∈ left.2, Outside disk locals here there entry.relPath) ∧
      (∀ t ∈ plan.transfers, Outside disk locals here there t.rel) ∧
      ∀ d ∈ plan.deletes, Outside disk locals here there d.rel := by
  intro left plan
  have hlocals : ∀ entry ∈ left.1, Outside disk locals here there entry.relPath := by
    intro entry hentry
    simp only [left, apply_eq] at hentry
    obtain ⟨hmem, hopen⟩ := mem_filter.mp hentry
    exact outside_of_open hdisk (by simpa using hopen) (.inl (mem_map_of_mem hmem))
  have hremotes : ∀ entry ∈ left.2, Outside disk locals here there entry.relPath := by
    intro entry hentry
    simp only [left, apply_eq] at hentry
    obtain ⟨hmem, hopen⟩ := mem_filter.mp hentry
    exact outside_of_open hdisk (by simpa using hopen) (.inr (mem_map_of_mem hmem))
  have hnamed : ∀ path, path ∈ left.1.map (·.relPath) ∨ path ∈ left.2.map (·.relPath) →
      Outside disk locals here there path := by
    intro path hpath
    rcases hpath with hpath | hpath
    · obtain ⟨entry, hentry, rfl⟩ := mem_map.mp hpath
      exact hlocals entry hentry
    · obtain ⟨entry, hentry, rfl⟩ := mem_map.mp hpath
      exact hremotes entry hentry
  refine ⟨hlocals, hremotes, ?_, ?_⟩
  · intro t ht
    exact hnamed t.rel (Dag.transfer_listed ht)
  · intro d hd
    rcases Dag.mem_planDeletes hd with ⟨-, hmem, -⟩ | ⟨-, hmem, -⟩
    · exact hnamed d.rel (.inr hmem)
    · exact hnamed d.rel (.inl hmem)

/-- A disk with one link and nothing else. -/
def oneLink : SymlinkMetadata := if path = ['l'] then .link none none else .absent

def remoteFile : RemoteEntry := ⟨path, 1, none, none, none⟩

def downloadAll : SyncOptions := ⟨.download, .mtime, true, .larger⟩

theorem sync_stays_outside_oneLink :
    NothingBelowAbsent oneLink ∧
      ((ScanBound.apply oneLink [] [remoteFile ['l', '/', 'x'], remoteFile ['y']] ⟨[], [], none⟩
        ⟨[], [], none⟩).2.2.map (·.relPath)) = [['y']] ∧
      ∀ t ∈ (Dag.planSyncDag (fun _ => none) downloadAll (.seconds 2)
          (ScanBound.apply oneLink [] [remoteFile ['l', '/', 'x'], remoteFile ['y']] ⟨[], [], none⟩
            ⟨[], [], none⟩).2.1
          (ScanBound.apply oneLink [] [remoteFile ['l', '/', 'x'], remoteFile ['y']] ⟨[], [], none⟩
            ⟨[], [], none⟩).2.2).transfers,
        Outside oneLink [] ⟨[], [], none⟩ ⟨[], [], none⟩ t.rel := by
  have hdisk : NothingBelowAbsent oneLink := by
    intro above below habove hunder hstops
    have hbelow : below = ['l'] := by
      by_contra hne
      simp [oneLink, hne, SymlinkMetadata.Stops, state] at hstops
    obtain ⟨rest, hrest⟩ := hunder
    rw [hbelow] at hrest
    cases above with
    | nil => simp at hrest
    | cons c above => simp at hrest
  exact ⟨hdisk, by decide, (sync_stays_outside oneLink hdisk [] _ ⟨[], [], none⟩ ⟨[], [], none⟩
    (fun _ => none) downloadAll (.seconds 2)).2.2.1⟩

/-- No disk has a link below a prefix that is absent; on one that had, the walk would stop
before it. -/
def linkBelowAbsent : SymlinkMetadata :=
  if path = ['a'] then .absent else if path = ['a', '/', 'l'] then .link none none else .present

theorem linkBelowAbsent_reached :
    let left :=
      (ScanBound.apply linkBelowAbsent [] [remoteFile ['a', '/', 'l', '/', 'x']] ⟨[], [], none⟩
      ⟨[], [], none⟩).2
    left.2.map (·.relPath) = [['a', '/', 'l', '/', 'x']] ∧
      (Dag.planSyncDag (fun _ => none) downloadAll (.seconds 2) left.1 left.2).transfers.map (·.rel)
        = [['a', '/', 'l', '/', 'x']] ∧
      ¬ Outside linkBelowAbsent [] ⟨[], [], none⟩ ⟨[], [], none⟩ ['a', '/', 'l', '/', 'x'] := by
  refine ⟨by decide, by decide, ?_⟩
  intro h
  refine h.2 not_mem_nil ['a', '/', 'l'] (.inr ?_) (.inl rfl)
  exact ⟨['x'], rfl⟩

end AeroFtp.SyncCore
