/-
The key of the index that a pair gets.

A key that is not spelled like the pair is taken when it is the only one with the same
normal form and nothing else stands at its place.  What stands at a place of the inventory
is found: the test for another owner lets a key of the inventory pass only if it is spelled
like the pair.
-/
import AeroFtp.Proofs.Sync.Pairing

namespace AeroFtp.Sync

open List

variable {nfc : Nfc} {inv : Inventory} {key path : Path}

/-! ### Forms of paths -/

theorem map_form_eq_of_nfcPath_eq (h : nfcPath nfc key = nfcPath nfc path) :
    (splitSlash key).map nfc.form = (splitSlash path).map nfc.form := by
  have hs : ∀ path : Path, splitSlash (nfcPath nfc path) = (splitSlash path).map nfc.form := by
    intro path
    refine splitOn_intercalate '/' (fun part hp => ?_) (by simpa using splitSlash_ne_nil path)
    obtain ⟨name, hn, rfl⟩ := mem_map.mp hp
    rw [nfc.slash]
    exact slash_notMem_splitSlash path name hn
  rw [← hs, ← hs, h]

variable {init : List Path} {last : Path}

theorem proper_of_form_eq (hpath : accepted path = true)
    (hform : (splitSlash key).map nfc.form = (splitSlash path).map nfc.form)
    (hs : splitSlash key = init ++ [last]) : Proper init where
  slashFree n hn := slash_notMem_splitSlash key n (hs ▸ mem_append_left _ hn)
  head := by
    obtain ⟨init', last', hs'⟩ := (eq_nil_or_concat' _).resolve_left (splitSlash_ne_nil path)
    have hprop := proper_of_accepted hpath hs'
    rw [hs, hs', map_append, map_append] at hform
    obtain ⟨hi, -⟩ := append_inj' hform rfl
    cases init with
    | nil => simp
    | cons first rest =>
      cases init' with
      | nil => cases hi
      | cons first' rest' =>
        intro hfirst
        have hfirst : first = [] := by simpa using hfirst
        have hform := (cons.inj hi).1
        rw [hfirst, (nfc.nil []).mpr rfl] at hform
        exact hprop.head (by rw [(nfc.nil first').mp hform.symm]; rfl)

/-! ### Owners -/

theorem mem_beforeSlashes {above rest : Path} : above ∈ beforeSlashes (above ++ '/' :: rest) := by
  refine mem_filterMap.mpr ⟨above.length, mem_range.mpr (by simp), ?_⟩
  simp

theorem pathOf_append {above : List Path} (hne : pathOf above ≠ []) {more : List Path}
    (hm : more ≠ []) : ∃ rest, pathOf (above ++ more) = pathOf above ++ '/' :: rest := by
  induction more using reverseRecOn with
  | nil => exact absurd rfl hm
  | append_singleton more last ih =>
    rw [← append_assoc, pathOf_append_singleton]
    by_cases hnil : more = []
    · subst hnil
      exact ⟨last, by rw [append_nil, join_of_ne_nil hne]⟩
    · obtain ⟨rest, hr⟩ := ih hnil
      rw [hr, join_of_ne_nil (by simp)]
      simp

theorem pathOf_mem_inventoryPrefixes (hkey : key ∈ inv) (hs : splitSlash key = init ++ [last])
    (hprop : Proper init) {above : List Path} (hne : above ≠ [])
    (habove : above <+: splitSlash key) : pathOf above ∈ inventoryPrefixes inv := by
  have hpath : pathOf (splitSlash key) = key := by
    refine splitSlash_injective ?_
    have hl : '/' ∉ last := slash_notMem_splitSlash key last (by simp [hs])
    rw [hs, pathOf_append_singleton, hprop.splitSlash_join hl]
  refine mem_flatMap.mpr ⟨key, AList.mem_keys.mp hkey, ?_⟩
  obtain ⟨more, hm⟩ := habove
  by_cases hnil : more = []
  · subst hnil
    rw [append_nil] at hm
    rw [hm, hpath]
    exact mem_cons_self
  · have hi : above <+: init := by
      refine (prefix_concat_iff.mp (hs ▸ ⟨more, hm⟩ : above <+: init ++ [last])).resolve_left ?_
      rintro rfl
      rw [hs] at hm
      exact hnil (append_right_eq_self.mp hm)
    obtain ⟨rest, rfl⟩ := hi
    have hr : pathOf above ≠ [] := fun h => hne (hprop.of_append.pathOf_eq_nil.mp h)
    obtain ⟨behind, hb⟩ := pathOf_append hr hnil
    rw [hm, hpath] at hb
    refine mem_cons_of_mem _ ?_
    rw [hb]
    exact mem_beforeSlashes

theorem eq_of_not_otherOwnerFrom {prefixes : List Path} :
    ∀ {done as bs : List Path}, as.length = bs.length →
      (∀ above, above ≠ [] → above <+: as → pathOf (done ++ above) ∈ prefixes) →
      otherOwnerFrom prefixes (pathOf done) (as.zip bs) = false → as = bs
  | _, [], [], _, _, _ => rfl
  | _, [], _ :: _, hlen, _, _ => by cases hlen
  | _, _ :: _, [], hlen, _, _ => by cases hlen
  | done, a :: as, b :: bs, hlen, hp, h => by
    rw [zip_cons_cons, otherOwnerFrom, Bool.or_eq_false_iff, ← pathOf_append_singleton] at h
    have hmem : pathOf (done ++ [a]) ∈ prefixes := hp [a] (by simp) (by simp)
    have hab : a = b := by
      by_contra hne
      rw [pathOf_append_singleton] at hmem
      simp [hne, hmem] at h
    have hr : as = bs := by
      refine eq_of_not_otherOwnerFrom (Nat.succ.inj hlen) (fun above hne habove => ?_) h.2
      have := hp (a :: above) (by simp) (by simpa using habove)
      simpa using this
    rw [hab, hr]

/-- **A key of the inventory with the form of a path belongs to another file, unless it is
that path.** -/
theorem eq_of_not_aliasHasOtherOwner (hkey : key ∈ inv)
    (hs : splitSlash key = init ++ [last]) (hp : Proper init)
    (hlen : (splitSlash key).length = (splitSlash path).length)
    (h : aliasHasOtherOwner key path (inventoryPrefixes inv) = false) : key = path := by
  have h : otherOwnerFrom (inventoryPrefixes inv) (pathOf [])
      ((splitSlash key).zip (splitSlash path)) = false := h
  refine splitSlash_injective (eq_of_not_otherOwnerFrom hlen (fun above hne habove => ?_) h)
  exact pathOf_mem_inventoryPrefixes hkey hs hp hne habove

end AeroFtp.Sync
