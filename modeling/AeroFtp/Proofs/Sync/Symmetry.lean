/-
The pairing does not prefer a side, and what is blocked is blocked to the bottom.

Exchanging the two inventories exchanges the sides of every pair, with its blocked flag.  A
pair of two names is one of counterparts at every level.  A folder hands its blocked flag
down, and the paths below a name belong to the folder of that name alone, so nothing below a
blocked pair is free.  All of it needs the loop to end.
-/
import AeroFtp.Proofs.Sync.Pairing

namespace AeroFtp.Sync

open List

variable {nfc : Nfc} {locals remotes : Inventory} {fuel : Nat} {pairs : List Pair}
  {pair above : Pair}

/-- The pair is below the other one, on either side. -/
def Pair.Below (pair above : Pair) : Prop :=
  (∃ more, more ≠ [] ∧ splitSlash pair.localPath = splitSlash above.localPath ++ more) ∨
    ∃ more, more ≠ [] ∧ splitSlash pair.remotePath = splitSlash above.remotePath ++ more

theorem blocked_of_reaches {x y : Folder} (hx : x.blocked = true)
    (h : Worklist.Reaches (visit nfc locals remotes) x y) : y.blocked = true := by
  refine Worklist.inv_of_reaches (·.blocked = true) (fun x y hx hy => ?_) hx h
  obtain ⟨p, -, -, rfl⟩ := mem_visit_snd.mp hy
  simp [Folder.child, hx]

section
variable (h : pairPaths nfc locals remotes fuel = some pairs)

include h

theorem exists_folder (hp : pair ∈ pairs) :
    ∃ folder, Worklist.Reaches (visit nfc locals remotes) Folder.root folder ∧
      pair ∈ (visit nfc locals remotes folder).1 := by
  obtain hnil | ⟨x, hx, folder, hr, hmem⟩ := (Worklist.mem_walk fuel h).mp hp
  · cases hnil
  · exact ⟨folder, mem_singleton.mp hx ▸ hr, hmem⟩

theorem blocked_of_below (habove : above ∈ pairs) (hb : above.blocked = true)
    (hpair : pair ∈ pairs) {more : List Path} (hne : more ≠ [])
    (hm : splitSlash pair.localPath = splitSlash above.localPath ++ more) :
    pair.blocked = true := by
  have hroots := roots_of_pairPaths h
  have ht := @territories nfc locals remotes hroots
  obtain ⟨x, hrx, hx⟩ := exists_folder h habove
  obtain ⟨y, hry, hy⟩ := exists_folder h hpair
  have hix := stacked_of_reaches hroots hrx
  have hiy := stacked_of_reaches hroots hry
  obtain ⟨p, hp, -, rfl⟩ := mem_visit_fst.mp hx
  have hsplit : splitSlash pair.localPath = components x.ld ++ p.1.localName :: more := by
    obtain ⟨ps, qs, kind, hstacked⟩ := hix
    rw [hm, Folder.toPair, splitSlash_under hstacked hp, append_assoc]
    rfl
  have ho : LiesBelow x.ld pair.localPath := ⟨_, by simp, hsplit⟩
  -- What a folder reports is one name below it, and this pair is further below `x`.
  have hapart : x ≠ y := by
    rintro rfl
    obtain ⟨ps, qs, kind, hstacked⟩ := hix
    obtain ⟨p', hp', -, rfl⟩ := mem_visit_fst.mp hy
    have hlen := congrArg length ((splitSlash_under hstacked hp').symm.trans hsplit)
    have hpos := length_pos_iff.mpr hne
    simp only [length_append, length_cons, length_nil] at hlen
    omega
  rcases ht.comparable ⟨[], [], .both, stacked_root⟩ hrx hry ho (ht.yields hiy hy) with hxy | hyx
  · obtain rfl | ⟨z, hz, hzy⟩ := hxy.cases_head
    · exact absurd rfl hapart
    · obtain ⟨more', -, hsplit'⟩ := ht.owns_of_reaches (ht.inv_child hix hz) hzy (ht.yields hiy hy)
      obtain ⟨p', hp', hf, rfl⟩ := mem_visit_snd.mp hz
      obtain ⟨ps, qs, kind, hstacked⟩ := hix
      rw [components_under hstacked hp' hroots hf, hsplit, append_assoc] at hsplit'
      have hname := (cons.inj (append_cancel_left hsplit')).1
      rw [← inj_on_of_nodup_map nodup_localNames hp hp' hname] at hzy
      have hyblocked := blocked_of_reaches hb hzy
      obtain ⟨p', -, -, rfl⟩ := mem_visit_fst.mp hy
      simp [Folder.toPair, Folder.child, hyblocked]
  · obtain rfl | ⟨z, hz, hzx⟩ := hyx.cases_head
    · exact absurd rfl hapart
    · exact absurd (ht.owns_of_reaches (ht.inv_child hiy hz) hzx ho) (ht.fresh hiy hz hy)

theorem twins_of_keys (hpair : pair ∈ pairs) {l r : Path} (hl : pair.localKey = some l)
    (hremote : pair.remoteKey = some r) :
    Twins nfc locals remotes (splitSlash l) (splitSlash r) := by
  have hroots := roots_of_pairPaths h
  obtain ⟨ps, qs, sides, hplaced, hat, -⟩ := pair_placed h hpair
  rw [← localPath_of_localKey h hpair hl, hat.localPath, (hplaced.accepted_local hroots).2,
    ← remotePath_of_remoteKey h hpair hremote, hat.remotePath, (hplaced.accepted_remote hroots).2]
  rw [hat.localKey] at hl
  rw [hat.remoteKey] at hremote
  obtain ⟨⟨kind, hreach⟩, hb⟩ := hplaced
  have hf := hreach.fate.below hb
  cases sides with
  | both ln rn => exact hf
  | localOnly ln => cases hremote
  | remoteOnly rn => cases hl

end

/-- What is expected of the pairs of two inventories, and of those with the sides exchanged. -/
structure Exchanged (nfc : Nfc) (locals remotes : Inventory) (pairs pairs' : List Pair) : Prop where
  swapped : pairs'.Perm (pairs.map Pair.swap)
  /-- At each level the names are the same, or the only ones with their form on either side. -/
  levels : ∀ pair ∈ pairs, ∀ l r, pair.localKey = some l → pair.remoteKey = some r →
    Twins nfc locals remotes (splitSlash l) (splitSlash r)
  closed : ∀ above ∈ pairs, above.blocked = true → ∀ pair ∈ pairs, pair.Below above →
    pair.blocked = true

/-- Pairing ends from either side, and the pairs are as expected. -/
def PairsExchange (nfc : Nfc) (locals remotes : Inventory) : Prop :=
  ∃ fuel pairs fuel' pairs', pairPaths nfc locals remotes fuel = some pairs ∧
    pairPaths nfc remotes locals fuel' = some pairs' ∧ Exchanged nfc locals remotes pairs pairs'

/-- **Pairing is symmetric and closed exactly when no side lists the root as a directory.** -/
theorem pairsExchange_iff (nfc : Nfc) (locals remotes : Inventory) :
    PairsExchange nfc locals remotes ↔ (∀ info, locals.lookup [] = some info → info.isDir = false) ∧
      ∀ info, remotes.lookup [] = some info → info.isDir = false := by
  rw [← not_opens_root, ← not_opens_root, ← pairPaths_returns_iff nfc]
  constructor
  · rintro ⟨fuel, pairs, -, -, h, -⟩
    exact ⟨fuel, pairs, h⟩
  · rintro ⟨fuel, pairs, h⟩
    obtain ⟨fuel', pairs', h', hperm⟩ := exists_swap h
    refine ⟨fuel, pairs, fuel', pairs', h, h', hperm, fun pair hpair l r =>
      twins_of_keys h hpair, ?_⟩
    rintro above habove hblocked pair hpair (⟨more, hne, hmore⟩ | ⟨more, hne, hmore⟩)
    · exact blocked_of_below h habove hblocked hpair hne hmore
    · -- The remote side is the local one of the exchanged pairs.
      show pair.swap.blocked = true
      exact blocked_of_below h' (swap_mem_pairPaths h h' habove) hblocked
        (swap_mem_pairPaths h h' hpair) hne hmore

/-- A listing of the root itself, as a directory. -/
def rootListing : Inventory := AList.singleton [] ⟨0, none, true, none, none⟩

/-- With it the loop finds the root in the root and does not end. -/
theorem rootListing_endless : ¬PairsExchange Nfc.ascii rootListing ∅ := by
  rintro ⟨fuel, pairs, -, -, h, -⟩
  exact (roots_of_pairPaths h).1 (opens_root_iff.mpr ⟨_, rfl, rfl⟩)

end AeroFtp.Sync
