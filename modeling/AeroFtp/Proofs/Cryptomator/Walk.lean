/-
What a walk of the vault reaches.

The walk enters folders by the ids their entries hold, none twice and none too deep: it is the
guarded walk along the safe names of folders.  A file is reached if the folder it is in is
entered, under the way to that folder.
-/
import AeroFtp.Lib.GuardedWalk
import AeroFtp.Cryptomator.Vault

namespace AeroFtp.Cryptomator

open GuardedWalk List

variable {p : Primitives} {v : Vault}

/-- The folder an entry leads to, if the walk follows it. -/
def childOf (e : CryptomatorEntry) : Option (Text × Text) :=
  if isSafeSegment e.name && e.isDir then e.dirId.map (Prod.mk e.name) else none

/-- The file an entry is, if the walk lists it. -/
def fileOf (e : CryptomatorEntry) : Option Text :=
  if isSafeSegment e.name && !e.isDir then some e.name else none

def children (p : Primitives) (v : Vault) (dirId : Text) : List (Text × Text) :=
  ((listDirInner p v dirId).getD []).filterMap childOf

def files (p : Primitives) (v : Vault) (dirId : Text) : List Text :=
  ((listDirInner p v dirId).getD []).filterMap fileOf

/-- The folders a walk enters, each with its way. -/
def Vault.entered (p : Primitives) (v : Vault) : List (List Text × Text) :=
  GuardedWalk.entered (children p v) maxDepth []

/-- An entry of the walk is a file of a folder among some. -/
def FileIn (p : Primitives) (v : Vault) (folders : List (List Text × Text)) (e : ReadableEntry) :
    Prop :=
  ∃ x ∈ folders, ∃ n ∈ files p v x.2, e = ⟨x.1 ++ [n], false, x.2⟩

theorem fileIn_append {a b : List (List Text × Text)} {e : ReadableEntry} :
    FileIn p v (a ++ b) e ↔ FileIn p v a e ∨ FileIn p v b e := by
  simp only [FileIn, mem_append]
  constructor
  · intro ⟨x, hx, h⟩
    exact hx.imp (fun hx => ⟨x, hx, h⟩) fun hx => ⟨x, hx, h⟩
  · intro h
    rcases h with ⟨x, hx, h⟩ | ⟨x, hx, h⟩
    · exact ⟨x, .inl hx, h⟩
    · exact ⟨x, .inr hx, h⟩

/-- A part of `collect_tree` enters what the guarded walk enters, and collects the files that
are there besides those of `own`. -/
structure Collects (p : Primitives) (v : Vault) (own : ReadableEntry → Prop)
    (acc acc' : List ReadableEntry × List Text) (ent ent' suf : List (List Text × Text)) :
    Prop where
  entered : ent' = ent ++ suf
  visited : acc'.2 = acc.2 ++ suf.map Prod.snd
  collected : ∀ e, e.isDir = false → (e ∈ acc'.1 ↔ e ∈ acc.1 ∨ own e ∨ FileIn p v suf e)

section Collects

variable {own own' : ReadableEntry → Prop} {acc acc' acc'' : List ReadableEntry × List Text}
  {ent ent' ent'' suf suf' : List (List Text × Text)}

section

variable (h : Collects p v own acc acc' ent ent' suf)
include h

theorem Collects.trans (h' : Collects p v own' acc' acc'' ent' ent'' suf') :
    Collects p v (fun e => own e ∨ own' e) acc acc'' ent ent'' (suf ++ suf') where
  entered := by rw [h'.entered, h.entered, append_assoc]
  visited := by rw [h'.visited, h.visited, map_append, append_assoc]
  collected e he := by
    rw [h'.collected e he, h.collected e he, fileIn_append, or_assoc, or_or_or_comm]

theorem Collects.of_own (hown : ∀ e, own e ↔ own' e) : Collects p v own' acc acc' ent ent' suf :=
  ⟨h.entered, h.visited, fun e he => by rw [h.collected e he, hown]⟩

theorem Collects.visited_eq (hacc : acc.2 = ent.map Prod.snd) : acc'.2 = ent'.map Prod.snd := by
  rw [h.visited, h.entered, map_append, hacc]

end

theorem collects_stay {out : List ReadableEntry}
    (hout : ∀ e, e.isDir = false → (e ∈ out ↔ e ∈ acc.1 ∨ own e)) :
    Collects p v own acc (out, acc.2) ent ent [] := by
  refine ⟨by simp, by simp, fun e he => ?_⟩
  rw [hout e he]
  simp [FileIn]

end Collects

section Entries

variable {depth : Nat} (dirId : Text) (way : List Text)
  (hvisit : ∀ d way acc ent, acc.2 = ent.map Prod.snd → ∃ suf,
    Collects p v (fun _ => False) acc (collectTree p v depth d way acc) ent
      (enter (children p v) depth way d ent) suf)

include hvisit

theorem collects_entry (entry : CryptomatorEntry) {acc : List ReadableEntry × List Text}
    {ent : List (List Text × Text)} (hacc : acc.2 = ent.map Prod.snd) :
    ∃ suf, Collects p v (fun e => ∃ n ∈ (fileOf entry).toList, e = ⟨way ++ [n], false, dirId⟩) acc
      (collectEntry (collectTree p v depth) dirId way acc entry) ent
      (enterAll (children p v) depth way (childOf entry).toList ent) suf := by
  -- a folder is listed, but is no file
  have hf : ∀ e : ReadableEntry, e.isDir = false → e ≠ ⟨way ++ [entry.name], true, []⟩ := by
    intro e he heq
    rw [heq] at he
    cases he
  by_cases hs : isSafeSegment entry.name = true
  · cases hdir : entry.isDir with
    | false =>
      simp only [collectEntry, fileOf, childOf, hs, hdir]
      exact ⟨[], collects_stay fun e _ => by simp⟩
    | true =>
      cases hid : entry.dirId with
      | none =>
        simp only [collectEntry, fileOf, childOf, hs, hdir, hid]
        exact ⟨[], collects_stay fun e he => by simp [hf e he]⟩
      | some child =>
        simp only [collectEntry, fileOf, childOf, hs, hdir, hid]
        have hl : Collects p v (fun _ => False) acc
            (acc.1 ++ [⟨way ++ [entry.name], true, []⟩], acc.2) ent ent [] :=
          collects_stay fun e he => by simp [hf e he]
        obtain ⟨suf, hin⟩ := hvisit child (way ++ [entry.name])
          (acc.1 ++ [⟨way ++ [entry.name], true, []⟩], acc.2) ent hacc
        exact ⟨suf, (hl.trans hin).of_own fun e => by simp⟩
  · simp only [collectEntry, fileOf, childOf, hs]
    exact ⟨[], collects_stay fun e _ => by simp⟩

theorem collects_entries (entries : List CryptomatorEntry) (acc : List ReadableEntry × List Text)
    (ent : List (List Text × Text)) (hacc : acc.2 = ent.map Prod.snd) :
    ∃ suf, Collects p v (fun e => ∃ n ∈ entries.filterMap fileOf,
      e = ⟨way ++ [n], false, dirId⟩) acc
      (entries.foldl (collectEntry (collectTree p v depth) dirId way) acc) ent
      (enterAll (children p v) depth way (entries.filterMap childOf) ent) suf := by
  induction entries generalizing acc ent with
  | nil => exact ⟨[], collects_stay fun e _ => by simp⟩
  | cons entry entries ih =>
    obtain ⟨suf, h⟩ := collects_entry dirId way hvisit entry hacc
    obtain ⟨suf', h'⟩ := ih _ _ (h.visited_eq hacc)
    have hc : ∀ {α : Type} (f : CryptomatorEntry → Option α),
        (entry :: entries).filterMap f = (f entry).toList ++ entries.filterMap f := by
      intro α f
      cases hf : f entry <;> simp [hf]
    rw [hc, hc, enterAll_append]
    refine ⟨suf ++ suf', (h.trans h').of_own fun e => ?_⟩
    simp only [mem_append, or_and_right, exists_or]

end Entries

theorem collects_tree (depth : Nat) : ∀ d way acc ent, acc.2 = ent.map Prod.snd → ∃ suf,
    Collects p v (fun _ => False) acc (collectTree p v depth d way acc) ent
      (enter (children p v) depth way d ent) suf := by
  induction depth with
  | zero =>
    intro d way acc ent _
    refine ⟨[], by simp [enter], by simp [collectTree], fun e _ => ?_⟩
    simp [collectTree, FileIn]
  | succ depth ih =>
    intro d way acc ent hacc
    by_cases hmem : d ∈ ent.map Prod.snd
    · rw [enter_of_mem hmem, collectTree, if_pos (by rw [hacc]; simpa using hmem)]
      refine ⟨[], by simp, by simp, fun e _ => ?_⟩
      simp [FileIn]
    rw [enter_of_notMem hmem, collectTree, if_neg (by rw [hacc]; simpa using hmem)]
    have hs : (acc.2 ++ [d]) = (ent ++ [(way, d)]).map Prod.snd := by simp [hacc]
    have hown : ∀ e, FileIn p v [(way, d)] e ↔ ∃ n ∈ files p v d, e = ⟨way ++ [n], false, d⟩ := by
      simp [FileIn]
    cases hl : listDirInner p v d with
    | none =>
      have hc : children p v d = [] := by simp [children, hl]
      have hfiles : files p v d = [] := by simp [files, hl]
      refine ⟨[(way, d)], by simp [hc, enterAll], by simp, fun e _ => ?_⟩
      rw [hown, hfiles]
      simp
    | some entries =>
      obtain ⟨suf, hr⟩ := collects_entries d way ih entries (acc.1, acc.2 ++ [d])
        (ent ++ [(way, d)]) hs
      have hc : children p v d = entries.filterMap childOf := by simp [children, hl]
      have hfiles : files p v d = entries.filterMap fileOf := by simp [files, hl]
      rw [hc]
      refine ⟨(way, d) :: suf, ?_, ?_, fun e he => ?_⟩
      · rw [hr.entered, append_assoc, singleton_append]
      · rw [hr.visited, append_assoc]
        rfl
      · have hfileIn : FileIn p v ((way, d) :: suf) e ↔
            (∃ n ∈ entries.filterMap fileOf, e = ⟨way ++ [n], false, d⟩) ∨ FileIn p v suf e := by
          rw [← singleton_append, fileIn_append, hown, hfiles]
        rw [hfileIn, false_or]
        exact hr.collected e he

/-- **A file is reached if the folder it is in is entered.** -/
theorem mem_reached {way : List Text} {content : Option Bytes} :
    (way, content) ∈ reached p v ↔ ∃ w d n, (w, d) ∈ v.entered p ∧ n ∈ files p v d ∧
      way = w ++ [n] ∧ content = decryptFile p v d n := by
  obtain ⟨suf, hall⟩ := collects_tree (p := p) (v := v) maxDepth [] [] ([], []) [] rfl
  have hentered : v.entered p = suf := hall.entered
  have hwalk : ∀ e, e.isDir = false → (e ∈ walk p v ↔ FileIn p v (v.entered p) e) := by
    intro e he
    rw [walk, hall.collected e he, hentered]
    simp
  constructor
  · intro h
    obtain ⟨e, he, heq⟩ := mem_map.mp h
    obtain ⟨hmem, hf⟩ := mem_filter.mp he
    obtain ⟨x, hx, n, hn, rfl⟩ := (hwalk e (by simpa using hf)).mp hmem
    refine ⟨x.1, x.2, n, hx, hn, ?_⟩
    simpa [readFile, Prod.ext_iff, eq_comm] using heq
  · intro ⟨w, d, n, hmem, hn, hway, hc⟩
    refine mem_map.mpr ⟨⟨w ++ [n], false, d⟩, mem_filter.mpr ⟨?_, rfl⟩, ?_⟩
    · exact (hwalk _ rfl).mpr ⟨(w, d), hmem, n, hn, rfl⟩
    · simp [readFile, hway, hc]

end AeroFtp.Cryptomator
