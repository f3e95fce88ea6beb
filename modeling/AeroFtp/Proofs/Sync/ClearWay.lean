/-
Pairs whose names are not in doubt.

A pair is blocked when a name on its way has equivalents on the other side and no
counterpart, or is a file on one side and a folder on the other.  Without such a name the way
follows any spelling of its path that the other side has, up to the folder where a name of
its own stands beside the other one: there the exact name wins.
-/
import AeroFtp.Proofs.Sync.Walk

namespace AeroFtp.Sync

open Std List Folder Worklist

section
variable (nfc : Nfc) (locals remotes : Inventory)

/-- The two names are both folders or both not; a name of one side has no equivalent. -/
def Sure (ps qs : List Path) : Sides → Prop
  | .both n m => (Opens locals (ps ++ [n]) ↔ Opens remotes (qs ++ [m]))
  | .localOnly n => ∀ m, Lies remotes (qs ++ [m]) → nfc.form m ≠ nfc.form n
  | .remoteOnly m => ∀ n, Lies locals (ps ++ [n]) → nfc.form n ≠ nfc.form m

/-- The places that are reached by sure names only. -/
inductive ClearlyReached : List Path → List Path → Kind → Prop
  | root : ClearlyReached [] [] .both
  | step {ps qs : List Path} {kind : Kind} {sides : Sides} (h : ClearlyReached ps qs kind)
      (hbelow : NamesBelow nfc locals remotes ps qs sides)
      (hfolder : FolderBelow locals remotes ps qs sides)
      (hsure : Sure nfc locals remotes ps qs sides) :
      ClearlyReached (ps ++ [sides.localName]) (qs ++ [sides.remoteName]) sides.kind

/-- Sure names below such a place. -/
structure ClearlyPlaced (ps qs : List Path) (sides : Sides) : Prop where
  reached : ∃ kind, ClearlyReached nfc locals remotes ps qs kind
  below : NamesBelow nfc locals remotes ps qs sides
  sure : Sure nfc locals remotes ps qs sides

end

variable {nfc : Nfc} {locals remotes : Inventory} {ps qs xs : List Path} {kind : Kind}
  {sides : Sides} {folder : Folder}

theorem ClearlyReached.reached (h : ClearlyReached nfc locals remotes ps qs kind) :
    Reached nfc locals remotes ps qs kind := by
  induction h with
  | root => exact .root
  | step _ hbelow hfolder _ ih => exact .step ih hbelow hfolder

theorem ClearlyPlaced.placed (h : ClearlyPlaced nfc locals remotes ps qs sides) :
    Placed nfc locals remotes ps qs sides :=
  ⟨h.reached.imp fun _ hreached => hreached.reached, h.below⟩

/-! ### Where the way leaves a spelling -/

/-- In a folder on the way `xs` the inventory has the name of `ps` beside that of `xs`. -/
def TwinBeside (inv : Inventory) (ps xs : List Path) : Prop :=
  ∃ above n m rest, xs = above ++ m :: rest ∧ ps[above.length]? = some n ∧ n ≠ m ∧
    Lies inv (above ++ [n])

theorem TwinBeside.snoc {inv : Inventory} (h : TwinBeside inv ps xs) (n x : Path) :
    TwinBeside inv (ps ++ [n]) (xs ++ [x]) := by
  obtain ⟨above, n', m, rest, rfl, hn, hne, hlies⟩ := h
  refine ⟨above, n', m, rest ++ [x], by simp, ?_, hne, hlies⟩
  rw [getElem?_append_left (List.getElem?_eq_some_iff.mp hn).1, hn]

theorem Sure.follows {x : Path} (hsure : Sure nfc locals remotes ps qs sides)
    (hbelow : NamesBelow nfc locals remotes ps qs sides) (hlen : ps.length = xs.length)
    (hform : nfc.form sides.localName = nfc.form x) (hlies : Lies remotes (xs ++ [x]))
    (h : qs = xs ∨ TwinBeside remotes ps xs) :
    qs ++ [sides.remoteName] = xs ++ [x] ∨
      TwinBeside remotes (ps ++ [sides.localName]) (xs ++ [x]) := by
  rcases h with rfl | h
  · by_cases heq : sides.remoteName = x
    · exact .inl (by rw [heq])
    -- the other side has both names, and the way takes the one it is spelled with
    have htwin (hname : sides.localName = sides.remoteName)
        (hl : Lies remotes (qs ++ [sides.remoteName])) :
        TwinBeside remotes (ps ++ [sides.localName]) (qs ++ [x]) :=
      ⟨qs, sides.remoteName, x, [], rfl, by rw [← hlen, getElem?_concat_length, hname], heq, hl⟩
    cases hbelow with
    | both hnames =>
      cases hnames with
      | exact _ hr => exact .inr (htwin rfl hr)
      | alone _ _ _ _ _ hremote => exact absurd (hremote x hlies hform.symm).symm heq
    | localOnly => exact absurd hform.symm (hsure x hlies)
    | remoteOnly hr => exact .inr (htwin rfl hr)
  · exact .inr (h.snoc _ _)

/-- Every spelling of the path that the other side has is where the way leads, or has a twin
beside it. -/
def Led (nfc : Nfc) (remotes : Inventory) (ps qs : List Path) : Prop :=
  ∀ xs, ps.map nfc.form = xs.map nfc.form → (xs ≠ [] → Lies remotes xs) →
    qs = xs ∨ TwinBeside remotes ps xs

theorem Led.snoc (h : Led nfc remotes ps qs) (hbelow : NamesBelow nfc locals remotes ps qs sides)
    (hsure : Sure nfc locals remotes ps qs sides) :
    Led nfc remotes (ps ++ [sides.localName]) (qs ++ [sides.remoteName]) := by
  intro xs hforms hlies
  obtain ⟨xs, x, rfl⟩ := (eq_nil_or_concat' xs).resolve_left (by rintro rfl; simp at hforms)
  rw [map_append, map_append] at hforms
  obtain ⟨hinit, hlast⟩ := append_inj' hforms rfl
  have hlies := hlies (by simp)
  exact hsure.follows hbelow (by simpa using congrArg length hinit) (by simpa using hlast) hlies
    (h xs hinit fun _ => hlies.of_append)

theorem ClearlyReached.led (h : ClearlyReached nfc locals remotes ps qs kind) :
    Led nfc remotes ps qs := by
  induction h with
  | root => exact fun xs hforms _ => .inl (map_eq_nil_iff.mp hforms.symm).symm
  | step _ hbelow _ hsure ih => exact ih.snoc hbelow hsure

/-- **A clear way leads to any spelling of its path that the other side has, unless a twin stands
beside it.** -/
theorem ClearlyPlaced.follows (h : ClearlyPlaced nfc locals remotes ps qs sides)
    (hforms : (ps ++ [sides.localName]).map nfc.form = xs.map nfc.form) (hlies : Lies remotes xs) :
    qs ++ [sides.remoteName] = xs ∨ TwinBeside remotes (ps ++ [sides.localName]) xs := by
  obtain ⟨kind, hreached⟩ := h.reached
  exact hreached.led.snoc h.below h.sure xs hforms fun _ => hlies

/-! ### What the loop blocks -/

theorem blocked_under (h : folder.Stacked nfc locals remotes ps qs kind) {p : Sides × Bool}
    (hp : p ∈ pairNames nfc (folder.ls locals) (folder.rs remotes)) :
    (folder.under locals remotes p).blocked = false ↔
      folder.blocked = false ∧ Sure nfc locals remotes ps qs p.1 := by
  obtain ⟨hstands, hambiguous⟩ := mem_pairNames.mp hp
  obtain ⟨sides, ambiguous⟩ := p
  show (folder.blocked || ambiguous || sides.collision _ _) = false ↔ _
  rw [Bool.or_eq_false_iff, Bool.or_eq_false_iff, and_assoc]
  refine and_congr_right fun _ => ?_
  rw [← Bool.not_eq_true ambiguous, hambiguous]
  cases sides with
  | both n m =>
    cases hstands with
    | both hnames =>
      obtain ⟨l, hl⟩ := Option.isSome_iff_exists.mp (TreeMap.mem_iff_isSome_getElem?.mp hnames.left)
      obtain ⟨r, hr⟩ := Option.isSome_iff_exists.mp
        (TreeMap.mem_iff_isSome_getElem?.mp hnames.right)
      simp only [Sure, ← (mem_localSiblings h).2, ← (mem_remoteSiblings h).2,
        Sides.collision, hl, hr, Sides.Crowded]
      cases l <;> cases r <;> simp
  | localOnly n => simp [Sure, Sides.Crowded, Sides.collision, (mem_remoteSiblings h).1]
  | remoteOnly m => simp [Sure, Sides.Crowded, Sides.collision, (mem_localSiblings h).1]

section
variable (hroots : ¬Opens locals [[]] ∧ ¬Opens remotes [[]])
include hroots

theorem clear_of_reaches (h : Worklist.Reaches (visit nfc locals remotes) root folder) :
    ∃ ps qs kind, folder.Stacked nfc locals remotes ps qs kind ∧
      (folder.blocked = false → ClearlyReached nfc locals remotes ps qs kind) := by
  refine inv_of_reaches (fun folder => ∃ ps qs kind, folder.Stacked nfc locals remotes ps qs kind ∧
      (folder.blocked = false → ClearlyReached nfc locals remotes ps qs kind))
    (fun x y hx hy => ?_) ⟨[], [], .both, stacked_root, fun _ => .root⟩ h
  obtain ⟨ps, qs, kind, hx, hclear⟩ := hx
  obtain ⟨p, hp, hf, rfl⟩ := mem_visit_snd.mp hy
  have hb := (exists_mem_pairNames_iff hx).mp ⟨p.2, hp⟩
  have hfolder := (isFolder_iff hx).mp hf
  refine ⟨_, _, _, hx.child hroots hb hfolder _ _ _, fun hopen => ?_⟩
  obtain ⟨hopen, hsure⟩ := (blocked_under hx hp).mp hopen
  exact .step (hclear hopen) hb hfolder hsure

theorem reaches_of_clear (h : ClearlyReached nfc locals remotes ps qs kind) :
    ∃ folder, Worklist.Reaches (visit nfc locals remotes) root folder ∧
      folder.Stacked nfc locals remotes ps qs kind ∧ folder.blocked = false := by
  induction h with
  | root => exact ⟨_, Relation.ReflTransGen.refl, stacked_root, rfl⟩
  | step _ hb hf hsure ih =>
    obtain ⟨folder, hreach, hs, hopen⟩ := ih
    obtain ⟨ambiguous, hnames⟩ := (exists_mem_pairNames_iff hs).mpr hb
    refine ⟨_, hreach.tail (mem_visit_snd.mpr ⟨_, hnames, (isFolder_iff hs).mpr hf, rfl⟩),
      hs.child hroots hb hf _ _ _, (blocked_under hs hnames).mpr ⟨hopen, hsure⟩⟩

end

section
variable {fuel : Nat} {pairs : List Pair} {pair : Pair}
  (h : pairPaths nfc locals remotes fuel = some pairs)
include h

/-- **A pair that is not blocked stands for sure names, all the way.** -/
theorem pair_clear (hp : pair ∈ pairs) (hopen : pair.blocked = false) :
    ∃ ps qs sides, ClearlyPlaced nfc locals remotes ps qs sides ∧
      pair.IsAt (ps ++ [sides.localName]) (qs ++ [sides.remoteName]) sides.kind := by
  obtain hnil | ⟨x, hx, folder, hr, hmem⟩ := (mem_walk fuel h).mp hp
  · cases hnil
  · cases mem_singleton.mp hx
    obtain ⟨ps, qs, kind, hs, hclear⟩ := clear_of_reaches (roots_of_pairPaths h) hr
    obtain ⟨p, hnames, -, rfl⟩ := mem_visit_fst.mp hmem
    have hb := (exists_mem_pairNames_iff hs).mp ⟨p.2, hnames⟩
    obtain ⟨hfolder, hsure⟩ := (blocked_under hs hnames).mp hopen
    have hat := child_isAt hs hb (folder.ls locals) (folder.rs remotes) p.2
    exact ⟨ps, qs, p.1, ⟨⟨kind, hclear hfolder⟩, hb, hsure⟩, hat.lp, hat.rp, hat.ld, hat.rd⟩

theorem exists_pair_clear (hp : ClearlyPlaced nfc locals remotes ps qs sides)
    (hl : ∃ key ∈ locals, sides.kind.onLocal (pathOf (ps ++ [sides.localName])) = some key) :
    ∃ pair ∈ pairs, pair.IsAt (ps ++ [sides.localName]) (qs ++ [sides.remoteName]) sides.kind ∧
      pair.blocked = false := by
  obtain ⟨⟨kind, hreached⟩, hb, hsure⟩ := hp
  obtain ⟨folder, hreach, hs, hopen⟩ := reaches_of_clear (roots_of_pairPaths h) hreached
  obtain ⟨ambiguous, hnames⟩ := (exists_mem_pairNames_iff hs).mpr hb
  have hat := child_isAt hs hb (folder.ls locals) (folder.rs remotes) ambiguous
  have hlisted : (folder.under locals remotes (sides, ambiguous)).listed locals remotes = true :=
    listed_iff.mpr (.inl (hl.imp fun key hkey => ⟨hkey.1, hat.lp.trans hkey.2⟩))
  refine ⟨_, (mem_walk fuel h).mpr (.inr ⟨_, mem_singleton.mpr rfl, folder, hreach,
    mem_visit_fst.mpr ⟨_, hnames, hlisted, rfl⟩⟩), ⟨hat.lp, hat.rp, hat.ld, hat.rd⟩, ?_⟩
  exact (blocked_under hs hnames).mpr ⟨hopen, hsure⟩

end

end AeroFtp.Sync
