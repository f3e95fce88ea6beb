/-
The walk of two inventories, without the code.

A place is given by the components that lead to it on each side, and by the sides that have
it.  The walk starts at the two roots and goes from a place to the names below it; below a
place it goes on where a side takes the name for a folder.  What holds of the places is
proved here, on the inventories alone and for both sides alike: a place on both sides is
reached through counterparts all the way, and a place on one side has no counterpart and
nothing at the path it would have on the other.
-/
import AeroFtp.Proofs.Sync.Counterparts
import AeroFtp.Proofs.Sync.Tree

namespace AeroFtp.Sync

open List

/-- Which sides have a place. -/
inductive Kind
  | both
  | localOnly
  | remoteOnly
  deriving DecidableEq

def Kind.swap : Kind → Kind
  | both => both
  | localOnly => remoteOnly
  | remoteOnly => localOnly

namespace Sides

def kind : Sides → Kind
  | both _ _ => .both
  | localOnly _ => .localOnly
  | remoteOnly _ => .remoteOnly

end Sides

section
variable (nfc : Nfc) (locals remotes : Inventory)

/-- The names that stand below a place. -/
def NamesBelow (ps qs : List Path) (sides : Sides) : Prop :=
  Stands nfc (fun n => Lies locals (ps ++ [n])) (fun m => Lies remotes (qs ++ [m])) sides

/-- Two places that stand for each other: their names do, from the roots on. -/
inductive Twins : List Path → List Path → Prop
  | root : Twins [] []
  | step {ps qs : List Path} {n m : Path} (h : Twins ps qs)
      (hnames : Counterparts nfc.form (fun n => Lies locals (ps ++ [n]))
        (fun m => Lies remotes (qs ++ [m])) n m) :
      Twins (ps ++ [n]) (qs ++ [m])

/-- A side takes one of the names for a folder. -/
def FolderBelow (ps qs : List Path) (sides : Sides) : Prop :=
  (∃ n, sides.ln = some n ∧ Opens locals (ps ++ [n])) ∨ ∃ m, sides.rn = some m ∧
    Opens remotes (qs ++ [m])

/-- The places whose names are looked at. -/
inductive Reached : List Path → List Path → Kind → Prop
  | root : Reached [] [] .both
  | step {ps qs : List Path} {kind : Kind} {sides : Sides} (h : Reached ps qs kind)
      (hbelow : NamesBelow nfc locals remotes ps qs sides)
        (hfolder : FolderBelow locals remotes ps qs sides) :
      Reached (ps ++ [sides.localName]) (qs ++ [sides.remoteName]) sides.kind

/-- What a place of each kind is. -/
def Fate (ps qs : List Path) : Kind → Prop
  | .both => Twins nfc locals remotes ps qs
  | .localOnly => Lies locals ps ∧ ¬Lies remotes qs ∧ ∀ rs, ¬Twins nfc locals remotes ps rs
  | .remoteOnly => Lies remotes qs ∧ ¬Lies locals ps ∧ ∀ rs, ¬Twins nfc locals remotes rs qs

end

variable {nfc : Nfc} {locals remotes : Inventory} {ps qs rs : List Path} {n m : Path} {kind : Kind}
  {sides : Sides}

/-! ### Twins -/

namespace Twins

theorem swap (h : Twins nfc locals remotes ps qs) : Twins nfc remotes locals qs ps := by
  induction h with
  | root => exact .root
  | step _ hn ih => exact .step ih hn.symm

theorem of_snoc (h : Twins nfc locals remotes (ps ++ [n]) rs) : ∃ qs m, rs = qs ++ [m] ∧
    Twins nfc locals remotes ps qs ∧
      Counterparts nfc.form (fun n => Lies locals (ps ++ [n]))
        (fun m => Lies remotes (qs ++ [m])) n m := by
  generalize hs : ps ++ [n] = as at h
  cases h with
  | root => simp at hs
  | step h hn =>
    obtain ⟨rfl, hl⟩ := append_inj' hs rfl
    cases singleton_inj.mp hl
    exact ⟨_, _, rfl, h, hn⟩

theorem functional (h : Twins nfc locals remotes ps qs) :
    ∀ {rs}, Twins nfc locals remotes ps rs → qs = rs := by
  induction h with
  | root =>
    intro rs h
    generalize hnil : ([] : List Path) = as at h
    cases h with
    | root => rfl
    | step _ _ => simp at hnil
  | step _ hnames ih =>
    intro rs h
    obtain ⟨qs, m, rfl, hqs, hnames'⟩ := h.of_snoc
    cases ih hqs
    rw [hnames.functional hnames']

theorem exact (hl : Lies locals ps) (hr : Lies remotes ps) : Twins nfc locals remotes ps ps := by
  induction ps using reverseRecOn with
  | nil => exact .root
  | append_singleton ps n ih => exact .step (ih hl.of_append hr.of_append) (.exact hl hr)

end Twins

/-! ### Places -/

theorem NamesBelow.swap (h : NamesBelow nfc locals remotes ps qs sides) :
    NamesBelow nfc remotes locals qs ps sides.swap :=
  Stands.swap h

theorem FolderBelow.swap (h : FolderBelow locals remotes ps qs sides) :
    FolderBelow remotes locals qs ps sides.swap := by
  cases sides <;> exact .symm h

theorem Reached.swap (h : Reached nfc locals remotes ps qs kind) :
    Reached nfc remotes locals qs ps kind.swap := by
  induction h with
  | root => exact .root
  | step _ hb hf ih =>
    have hs := Reached.step ih hb.swap hf.swap
    revert hs
    cases ‹Sides› <;> exact id

theorem Fate.below (h : Fate nfc locals remotes ps qs kind)
    (hb : NamesBelow nfc locals remotes ps qs sides) :
    Fate nfc locals remotes (ps ++ [sides.localName]) (qs ++ [sides.remoteName]) sides.kind := by
  cases hb with
  | both hnames =>
    cases kind with
    | both => exact .step h hnames
    | localOnly => exact absurd hnames.right.of_append h.2.1
    | remoteOnly => exact absurd hnames.left.of_append h.2.1
  | @localOnly n hl hnone =>
    refine ⟨hl, fun hr => hnone n (.exact hl hr), fun rs ht => ?_⟩
    obtain ⟨qs', m, rfl, hqs, hnames⟩ := ht.of_snoc
    cases kind with
    | both =>
      cases h.functional hqs
      exact hnone m hnames
    | localOnly => exact h.2.2 qs' hqs
    | remoteOnly => exact h.2.1 hl.of_append
  | @remoteOnly m hr hnone =>
    refine ⟨hr, fun hl => hnone m (.exact hl hr), fun rs ht => ?_⟩
    obtain ⟨ps', n, rfl, hps, hnames⟩ := ht.swap.of_snoc
    cases kind with
    | both =>
      cases (Twins.swap h).functional hps
      exact hnone n hnames.symm
    | localOnly => exact h.2.1 hr.of_append
    | remoteOnly => exact h.2.2 ps' hps.swap

theorem Reached.fate (h : Reached nfc locals remotes ps qs kind) :
    Fate nfc locals remotes ps qs kind := by
  induction h with
  | root => exact .root
  | step _ hb _ ih => exact ih.below hb

theorem NamesBelow.forms (hf : List.Forall₂ (fun n m => nfc.form n = nfc.form m) ps qs)
    (hb : NamesBelow nfc locals remotes ps qs sides) :
    List.Forall₂ (fun n m => nfc.form n = nfc.form m) (ps ++ [sides.localName])
      (qs ++ [sides.remoteName]) := by
  refine rel_append hf (.cons ?_ .nil)
  cases hb with
  | both hn => exact hn.form_eq
  | localOnly _ _ => rfl
  | remoteOnly _ _ => rfl

theorem Reached.forms (h : Reached nfc locals remotes ps qs kind) :
    List.Forall₂ (fun n m => nfc.form n = nfc.form m) ps qs := by
  induction h with
  | root => exact .nil
  | step _ hb _ ih => exact hb.forms ih

/-! ### Which places of a side are reached -/

/-- The folder is looked into: it is one on its own side, or its counterpart is. -/
def LookedInto (nfc : Nfc) (inv other : Inventory) (qs : List Path) : Prop :=
  Opens inv qs ∨ ∃ rs, Twins nfc inv other qs rs ∧ Opens other rs

theorem Sides.localName_of_ln (h : sides.ln = some n) :
    sides.localName = n ∧ sides.kind ≠ .remoteOnly := by
  cases sides with
  | both ln rn => exact ⟨Option.some.inj h, by simp [kind]⟩
  | localOnly ln => exact ⟨Option.some.inj h, by simp [kind]⟩
  | remoteOnly rn => cases h

theorem FolderBelow.lookedInto
    (hf : Fate nfc locals remotes (ps ++ [sides.localName]) (qs ++ [sides.remoteName]) sides.kind)
    (hk : sides.kind ≠ .remoteOnly) (h : FolderBelow locals remotes ps qs sides) :
    LookedInto nfc locals remotes (ps ++ [sides.localName]) := by
  cases sides with
  | both ln rn =>
    rcases h with ⟨n, hn, ho⟩ | ⟨m, hm, ho⟩
    · cases hn
      exact .inl ho
    · cases hm
      exact .inr ⟨_, hf, ho⟩
  | localOnly ln =>
    rcases h with ⟨n, hn, ho⟩ | ⟨m, hm, -⟩
    · cases hn
      exact .inl ho
    · cases hm
  | remoteOnly rn => exact absurd rfl hk

theorem LookedInto.folderBelow (h : LookedInto nfc locals remotes (ps ++ [n]))
    (hf : Fate nfc locals remotes ps qs kind) (hk : kind ≠ .remoteOnly)
    (hb : NamesBelow nfc locals remotes ps qs sides) (hln : sides.ln = some n) :
    FolderBelow locals remotes ps qs sides := by
  rcases h with ho | ⟨rs, ht, ho⟩
  · exact .inl ⟨n, hln, ho⟩
  · obtain ⟨qs', m, rfl, hqs, hnames⟩ := ht.of_snoc
    cases kind with
    | both =>
      cases Twins.functional hf hqs
      cases hb with
      | both hnames' =>
        cases hln
        rw [hnames.functional hnames'] at ho
        exact .inr ⟨_, rfl, ho⟩
      | localOnly _ hnone =>
        cases hln
        exact absurd hnames (hnone m)
      | remoteOnly _ _ => cases hln
    | localOnly => exact absurd hqs (hf.2.2 qs')
    | remoteOnly => exact absurd rfl hk

/-- **A local place is reached exactly when every folder on the way is looked into.** -/
theorem reached_local_iff (hlies : ps ≠ [] → Lies locals ps) :
    (∃ qs kind, Reached nfc locals remotes ps qs kind ∧ kind ≠ .remoteOnly) ↔
      ∀ above, above ≠ [] → above <+: ps → LookedInto nfc locals remotes above := by
  induction ps using reverseRecOn with
  | nil =>
    refine ⟨fun _ above hne habove => ?_, fun _ => ⟨[], .both, .root, by simp⟩⟩
    exact absurd (prefix_nil.mp habove) hne
  | append_singleton ps n ih =>
    have hlies := hlies (by simp)
    have ih := ih fun _ => hlies.of_append
    constructor
    · rintro ⟨qs, kind, h, hk⟩
      generalize hs : ps ++ [n] = as at h
      cases h with
      | root => simp at hs
      | @step ps' qs' kind' sides h hb hf =>
        obtain ⟨rfl, -⟩ := append_inj' hs rfl
        have hlocal : kind' ≠ .remoteOnly := by
          rintro rfl
          exact h.fate.2.1 hlies.of_append
        intro above hne habove
        rcases prefix_concat_iff.mp habove with rfl | habove
        · exact hf.lookedInto (h.fate.below hb) hk
        · exact ih.mp ⟨qs', kind', h, hlocal⟩ above hne habove
    · intro hall
      obtain ⟨qs, kind, h, hk⟩ := ih.mpr fun above hne habove =>
        hall above hne (habove.trans (prefix_append _ _))
      obtain ⟨sides, hb, hln⟩ := exists_stands_ln nfc (fun n => Lies locals (ps ++ [n]))
        (fun m => Lies remotes (qs ++ [m])) hlies
      have hf := (hall (ps ++ [n]) (by simp) (prefix_refl _)).folderBelow h.fate hk hb hln
      obtain ⟨hname, hlocal⟩ := Sides.localName_of_ln hln
      exact ⟨_, _, hname ▸ Reached.step h hb hf, hlocal⟩

/-! ### The components of a place -/

theorem NamesBelow.lies (h : NamesBelow nfc locals remotes ps qs sides) :
    (Lies locals (ps ++ [sides.localName]) ∨ Lies remotes (qs ++ [sides.localName])) ∧
      (Lies remotes (qs ++ [sides.remoteName]) ∨ Lies locals (ps ++ [sides.remoteName])) := by
  cases h with
  | both h => exact ⟨.inl h.left, .inl h.right⟩
  | localOnly hl _ => exact ⟨.inl hl, .inr hl⟩
  | remoteOnly hr _ => exact ⟨.inr hr, .inl hr⟩

theorem NamesBelow.slashFree (h : NamesBelow nfc locals remotes ps qs sides) :
    '/' ∉ sides.localName ∧ '/' ∉ sides.remoteName :=
  ⟨h.lies.1.elim Lies.slashFree Lies.slashFree, h.lies.2.elim Lies.slashFree Lies.slashFree⟩

theorem opens_root_iff {inv : Inventory} :
    Opens inv [[]] ↔ ∃ info, inv.lookup [] = some info ∧ info.isDir = true := by
  have hkey : ∀ entry : Sigma fun _ : Path => FileInfo, LiesAt entry [[]] → entry.1 = [] := by
    rintro ⟨key, info⟩ ⟨hacc, hprefix⟩
    obtain ⟨rest, hs⟩ := hprefix
    rcases eq_nil_or_concat' rest with rfl | ⟨init, last, rfl⟩
    · exact splitSlash_injective hs.symm
    · have hprop := proper_of_accepted hacc
        (by rw [← hs, append_assoc] : splitSlash key = ([[]] ++ init) ++ [last])
      exact absurd rfl hprop.head
  constructor
  · rintro ⟨before, ⟨key, info⟩, behind, hent, hfolder, -⟩
    cases hkey _ hfolder.1
    refine ⟨info, ?_, hfolder.2.resolve_left (by simp [splitSlash])⟩
    rw [← Option.mem_def, AList.mem_lookup_iff, hent]
    simp
  · rintro ⟨info, hlook, hdir⟩
    rw [← Option.mem_def, AList.mem_lookup_iff] at hlook
    obtain ⟨before, behind, hent⟩ := append_of_mem hlook
    have hlies : LiesAt ⟨[], info⟩ [[]] := by
      show accepted [] = true ∧ [[]] <+: splitSlash []
      decide
    refine ⟨before, _, behind, hent, ⟨hlies, .inr hdir⟩, fun later hlater hfile => ?_⟩
    have hnd := inv.nodupKeys
    rw [hent, nodupKeys_iff_pairwise] at hnd
    have hne := rel_of_pairwise_cons (pairwise_append.mp hnd).2.1 hlater
    exact hne (hkey later hfile.1).symm

theorem Reached.proper_local (hroots : ¬Opens locals [[]] ∧ ¬Opens remotes [[]])
    (h : Reached nfc locals remotes ps qs kind) : Proper ps := by
  induction h with
  | root => exact .nil
  | @step ps qs kind sides h hb hfolder ih =>
    refine ih.snoc hb.slashFree.1 fun hroot => ?_
    have hroot : ps ++ [sides.localName] = [] ++ [[]] := hroot
    obtain ⟨rfl, hname⟩ := append_inj' hroot rfl
    have hqs : qs = [] := forall₂_nil_left_iff.mp h.forms
    subst hqs
    have hname' : sides.remoteName = [] := by
      have hforms := hb.forms h.forms
      rw [hname] at hforms
      have hform : nfc.form [] = nfc.form sides.remoteName := by simpa using hforms
      rw [(nfc.nil []).mpr rfl] at hform
      exact (nfc.nil _).mp hform.symm
    rcases hfolder with ⟨n, hn, ho⟩ | ⟨m, hm, ho⟩
    · rw [(Sides.localName_of_ln hn).1] at hname
      exact hroots.1 (hname ▸ ho)
    · have hm : sides.remoteName = m := by
        cases sides <;> cases hm <;> rfl
      exact hroots.2 (hname' ▸ hm ▸ ho)

theorem Reached.proper_remote (hr : ¬Opens locals [[]] ∧ ¬Opens remotes [[]])
    (h : Reached nfc locals remotes ps qs kind) : Proper qs :=
  h.swap.proper_local hr.symm

theorem Acceptable.snoc {inv : Inventory} {as : List Path} (h : Acceptable ps)
    (hl : Lies inv (as ++ [n])) (has : ps = [] → as = []) : Acceptable (ps ++ [n]) := by
  obtain ⟨entry, -, hacc, hp⟩ := hl
  have he := (accepted_iff.mp hacc).2
  have hn : n ∈ splitSlash entry.1 := hp.subset (by simp)
  refine ⟨fun x hx => ?_, fun hd => ?_, fun x hx => ?_⟩
  · rcases mem_append.mp hx with hx | hx
    · exact h.nul x hx
    · rw [mem_singleton.mp hx]
      exact he.nul n hn
  · rcases mem_append.mp hd with hd | hd
    · exact h.dots hd
    · rw [← mem_singleton.mp hd] at hn
      exact he.dots hn
  · cases ps with
    | nil =>
      cases has rfl
      cases hx
      refine he.first n ?_
      obtain ⟨rest, hs⟩ := hp
      rw [← hs]
      rfl
    | cons first rest => exact h.first x (by simpa using hx)

theorem NamesBelow.acceptable (hf : List.Forall₂ (fun n m => nfc.form n = nfc.form m) ps qs)
    (hps : Acceptable ps) (h : NamesBelow nfc locals remotes ps qs sides) :
    Acceptable (ps ++ [sides.localName]) := by
  rcases h.lies.1 with hl | hl
  · exact hps.snoc hl id
  · refine hps.snoc hl fun hnil => ?_
    subst hnil
    exact forall₂_nil_left_iff.mp hf

theorem Reached.acceptable (h : Reached nfc locals remotes ps qs kind) : Acceptable ps := by
  induction h with
  | root => exact ⟨by simp, by simp, by simp⟩
  | step h hb _ ih => exact hb.acceptable h.forms ih

end AeroFtp.Sync
