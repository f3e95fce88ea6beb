/-
Association lists that are thinned out and written to, key by key.

A map is thinned out to the keys that satisfy a test, or a value is written into it for each
item of a list; here are the keys and the values that are then in it.
-/
import Mathlib.Data.List.AList

namespace AeroFtp.AssocList

open List

universe u v w

variable {α : Type u} {β : α → Type v} {γ : Type w}

/-- The order in which a hash map or a hash set is iterated. -/
structure HashOrder (α : Type u) where
  iter : List α → List α
  perm : ∀ l, (iter l).Perm l

theorem HashOrder.mem_iter (order : HashOrder α) {l : List α} {a : α} : a ∈ order.iter l ↔ a ∈ l :=
  (order.perm l).mem_iff

theorem HashOrder.nodup_iter (order : HashOrder α) {l : List α} (h : l.Nodup) :
    (order.iter l).Nodup :=
  (order.perm l).nodup_iff.mpr h

/-- A map iterated as it was filled. -/
def HashOrder.inserted : HashOrder α := ⟨id, fun _ => .refl _⟩

/-- The entries whose keys satisfy `p`. -/
def retain (p : α → Bool) (s : AList β) : AList β :=
  ⟨s.entries.filter (p ·.1), s.nodupKeys.sublist filter_sublist⟩

variable {s : AList β} {a : α} {p : α → Bool}

theorem mem_retain : a ∈ retain p s ↔ a ∈ s ∧ p a = true := by
  simp only [retain, AList.mem_keys, AList.keys, keys, mem_map, mem_filter]
  constructor
  · rintro ⟨entry, ⟨he, hp⟩, rfl⟩
    exact ⟨⟨entry, he, rfl⟩, hp⟩
  · rintro ⟨⟨entry, he, rfl⟩, hp⟩
    exact ⟨entry, ⟨he, hp⟩, rfl⟩

/-- Each value is replaced by what a function makes of it and its key. -/
def mapValues (f : (a : α) → β a → β a) (s : AList β) : AList β :=
  ⟨s.entries.map fun entry => ⟨entry.1, f entry.1 entry.2⟩, by
    have hkeys : (s.entries.map fun entry => (⟨entry.1, f entry.1 entry.2⟩ : Sigma β)).keys
        = s.entries.keys := by
      simp [List.keys, Function.comp_def]
    rw [List.NodupKeys, hkeys]
    exact s.nodupKeys⟩

variable {f : (a : α) → β a → β a}

@[simp] theorem mem_mapValues : a ∈ mapValues f s ↔ a ∈ s := by
  simp [mapValues, AList.mem_keys, AList.keys, keys, Function.comp_def]

variable [DecidableEq α]

theorem lookup_retain {b : β a} :
    (retain p s).lookup a = some b ↔ s.lookup a = some b ∧ p a = true := by
  simp only [← Option.mem_def, AList.mem_lookup_iff, retain, mem_filter]

theorem lookup_mapValues {b : β a} :
    (mapValues f s).lookup a = some b ↔ ∃ b', s.lookup a = some b' ∧ f a b' = b := by
  simp only [← Option.mem_def, AList.mem_lookup_iff, mapValues, mem_map]
  constructor
  · intro h
    obtain ⟨⟨a', b'⟩, hmem, heq⟩ := h
    cases heq
    exact ⟨b', hmem, rfl⟩
  · intro h
    obtain ⟨b', hmem, heq⟩ := h
    exact ⟨⟨a, b'⟩, hmem, by rw [heq]⟩

/-! ### Writing a value for each item -/

section Each

variable {ν : Type*} {k : γ → α} {v : γ → ν} {s : AList fun _ : α => ν} {items : List γ} {a : α}

theorem mem_foldl_insert :
    a ∈ items.foldl (fun s item => s.insert (k item) (v item)) s ↔ a ∈ s ∨ a ∈ items.map k := by
  induction items generalizing s with
  | nil => simp
  | cons item items ih =>
    rw [foldl_cons, ih, AList.mem_insert, map_cons, mem_cons, or_comm (a := a = _), or_assoc]

theorem lookup_foldl_insert_of_notMem (h : a ∉ items.map k) :
    (items.foldl (fun s item => s.insert (k item) (v item)) s).lookup a = s.lookup a := by
  induction items generalizing s with
  | nil => rfl
  | cons item items ih =>
    rw [map_cons, mem_cons, not_or] at h
    rw [foldl_cons, ih h.2, AList.lookup_insert_ne h.1]

/-- The value of a key that all items of the key agree on. -/
theorem lookup_foldl_insert {b : ν} (h : a ∈ items.map k)
    (hv : ∀ item ∈ items, k item = a → v item = b) :
    (items.foldl (fun s item => s.insert (k item) (v item)) s).lookup a = some b := by
  induction items generalizing s with
  | nil => cases h
  | cons item items ih =>
    rw [foldl_cons]
    by_cases hmem : a ∈ items.map k
    · exact ih hmem (fun other ho => hv other (mem_cons_of_mem _ ho))
    · rw [map_cons, mem_cons] at h
      have hkey : a = k item := h.resolve_right hmem
      rw [lookup_foldl_insert_of_notMem hmem, hkey, AList.lookup_insert,
        hv item (mem_cons_self ..) hkey.symm]

end Each

end AeroFtp.AssocList
