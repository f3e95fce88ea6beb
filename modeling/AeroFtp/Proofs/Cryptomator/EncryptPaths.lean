/-
Whether what an ingest adds is reached, and what was reached still is.

It is so if and only if the walk can follow the names of every file that is added, each is the
last of its name, and what is reached through the target stays reached without the entries
whose names the ingest takes.  A folder that is added under the name of one that is there takes
its entry: the files of the old one are in the vault, and no way leads to them.
-/
import AeroFtp.Proofs.Cryptomator.Reached

namespace AeroFtp.Cryptomator

open GuardedWalk Texts List

variable {p : Primitives} {draws : Draws}

/-- The way of a file that is added to the target. -/
def Ingested (p : Primitives) (v : Vault) (target : Text) (inputs : HostEntries) (way : List Text) :
    Prop :=
  ∃ q f, (q, target) ∈ v.entered p ∧ f ∈ inputs.allFiles ∧ way = q ++ f.1

/-- Every file that is added is reached with its content, and every other one that was reached
still is. -/
def AddsAndKeeps (p : Primitives) (v v' : Vault) (target : Text) (inputs : HostEntries) : Prop :=
  (∀ f ∈ inputs.allFiles, ∃ q, (q, target) ∈ v.entered p ∧ (q ++ f.1, some f.2) ∈ reached p v') ∧
    ∀ e ∈ reached p v, ¬Ingested p v target inputs e.1 → e ∈ reached p v'

/-- The walk can follow the names of a file that is added, and no later entry takes them. -/
structure Follows (p : Primitives) (v : Vault) (target : Text) (inputs : HostEntries)
    (q : List Text) (f : List Text × Bytes) : Prop where
  listable : listable p target ((v.without p target inputs.names).slotsAt (p.hashDirId target))
    = true
  safe : ∀ n ∈ f.1, isSafeSegment n = true
  depth : (q ++ f.1).length ≤ maxDepth
  last : inputs.lookup f.1 = some f.2

variable {content : Bytes}

theorem head_mem_names_of_lookup {inputs : HostEntries} {n : Text} {path : List Text}
    (h : inputs.lookup (n :: path) = some content) : n ∈ inputs.names := by
  by_contra hn
  rw [HostEntries.lookup, HostEntries.last_eq_none_iff.mpr hn] at h
  cases h

namespace After

variable {W : Text → Text → Prop} {v v' : Vault} {target : Text} {inputs : HostEntries} {hi : Nat}
  (h : After p draws W v v' target inputs.names hi) (hshows : Shows p v' target inputs)

include h hshows

theorem lookup_of_leads {r : List Text} {d n : Text} (hl : Leads p W v' target r d) (hn : W d n)
    (hr : decryptFile p v' d n = some content) : inputs.lookup (r ++ [n]) = some content := by
  have hf : resolve p v' target (r ++ [n]) = some content := by
    rw [hl.resolve_append, resolve_singleton, hr]
  obtain ⟨m, path, heq⟩ : ∃ m path, r ++ [n] = m :: path := exists_cons_of_ne_nil (by simp)
  have hh := hl.head_written hn
  rw [heq] at hf hh ⊢
  rcases h.place (hh m rfl) with ⟨_, hm⟩ | ⟨i, _, hi⟩
  · rw [← hshows m hm, hf]
  · exact absurd hi (h.outside i)

variable {way : List Text}

theorem reached_of_without {content : Option Bytes}
    (hother : content ≠ none ∨ ¬Ingested p v target inputs way)
    (hmem : (way, content) ∈ reached p (v.without p target inputs.names)) :
    (way, content) ∈ reached p v' := by
  obtain ⟨w, d, n, hw, hf, rfl, rfl⟩ := mem_reached.mp hmem
  obtain ⟨hd, hold⟩ := h.mem_entered_without.mp hw
  refine mem_reached.mpr ⟨w, d, n, hd, h.mem_files_after.mpr (.inl hf), rfl, ?_⟩
  by_cases hn : W d n
  · -- nothing is read under the name, so it is not one of an ingested file
    rw [h.decryptFile_without hn] at hother ⊢
    have hnot := hother.resolve_left fun hnone => hnone rfl
    rw [eq_comm, Option.eq_none_iff_forall_ne_some]
    intro content hr
    rcases h.place hn with ⟨rfl, hname⟩ | hnew
    · have hl := h.lookup_of_leads hshows .here hn hr
      exact hnot ⟨w, ([n], content), h.mem_entered_target.mpr hd,
        HostEntries.mem_allFiles_of_lookup hl, rfl⟩
    · rw [isNew_iff.mpr hnew] at hold
      cases hold
  · rw [h.decryptFile_other hn]

theorem reached_of_follows {q path : List Text} (hq : (q, target) ∈ v.entered p)
    (hfollows : Follows p v target inputs q (path, content)) :
    (q ++ path, some content) ∈ reached p v' := by
  obtain ⟨hlist, hsafe, hdepth, hlast⟩ := hfollows
  rw [← h.listable_eq] at hlist
  have hh : ∀ n ∈ path.head?, n ∈ inputs.names := by
    intro n hn
    obtain ⟨rest, rfl⟩ := head?_eq_some_iff.mp hn
    exact head_mem_names_of_lookup hlast
  have hfound : resolve p v' target path = some content := by
    cases path with
    | nil => cases hlast
    | cons n path => rw [hshows n (hh n rfl), hlast]
  obtain ⟨r, d, n, heq, hleads, hn, hW, hr⟩ := h.leads_of_resolve path .here hsafe
    (fun n hn _ _ => h.covers.own n (hh n hn)) hfound
  subst heq
  rw [length_append, length_append, length_singleton] at hdepth
  have hd := h.entered_of_leads (h.mem_entered_target.mp hq) hlist hleads
    (by rw [length_append]; omega)
  refine mem_reached.mpr ⟨q ++ r, d, n, hd, ?_, (append_assoc _ _ _).symm, hr.symm⟩
  refine h.mem_files_after.mpr (.inr ⟨?_, hn, hW, content, hr⟩)
  rcases h.place hW with ⟨rfl, _⟩ | ⟨j, _, rfl⟩
  · exact hlist
  · exact h.listable_born j

/-- **What is reached after an ingest**: what is reached without the entries it took, and the
files it added that can be followed. -/
theorem mem_reached_after {content : Option Bytes}
    (hother : content ≠ none ∨ ¬Ingested p v target inputs way) :
    (way, content) ∈ reached p v' ↔ (way, content) ∈ reached p (v.without p target inputs.names) ∨
      ∃ q f, (q, target) ∈ v.entered p ∧ way = q ++ f.1 ∧ content = some f.2 ∧
        Follows p v target inputs q f := by
  constructor
  · intro hmem
    obtain ⟨w, d, n, hd, hfile, rfl, rfl⟩ := mem_reached.mp hmem
    by_cases hw : W d n ∧ ∃ content, decryptFile p v' d n = some content
    · -- a file that was written, in the target or in a folder that was made
      obtain ⟨hn, content, hr⟩ := hw
      obtain ⟨q, r, hq, rfl, hleads, ht⟩ := h.leads_of_entered w hd hn
      obtain ⟨hlist, hsafe, _⟩ := mem_files.mp hfile
      have hlt := entered_lt hd
      refine .inr ⟨q, (r ++ [n], content), h.mem_entered_target.mpr hq, append_assoc _ _ _, hr, ?_⟩
      refine ⟨?_, ?_, ?_, h.lookup_of_leads hshows hleads hn hr⟩
      · rw [← h.listable_eq]
        exact ht.elim (fun heq => heq ▸ hlist) id
      · exact forall_mem_append.mpr ⟨hleads.safe, forall_mem_singleton.mpr hsafe⟩
      · rw [← append_assoc, length_append]
        exact hlt
    · have hold : n ∈ files p (v.without p target inputs.names) d :=
        (h.mem_files_after.mp hfile).resolve_right fun hnew => hw hnew.2.2
      have hsame : decryptFile p v' d n = decryptFile p (v.without p target inputs.names) d n := by
        by_cases hn : W d n
        · rw [h.decryptFile_without hn, Option.eq_none_iff_forall_ne_some]
          exact fun content hr => hw ⟨hn, content, hr⟩
        · exact h.decryptFile_other hn
      rw [hsame]
      exact .inl (mem_reached.mpr ⟨w, d, n, h.mem_entered_without.mpr ⟨hd, h.isNew_of_file hold⟩,
        hold, rfl, rfl⟩)
  · rintro (hmem | ⟨q, f, hq, rfl, rfl, hfollows⟩)
    · exact h.reached_of_without hshows hother hmem
    · exact h.reached_of_follows hshows hq hfollows

end After

/-- **An ingest that skips nothing adds its files and keeps the others** if and only if every
file it adds is reached without the entries it takes already, or can be followed, and the files
of other ways are reached without those entries. -/
theorem encryptPaths_adds_and_keeps_iff (hp : p.Sound) (hsized : draws.Sized)
    (hd : draws.Distinct p) {v : Vault} (hfresh : FreshFrom p draws v 0) {target : Text}
    (hnew : ∀ i, target ≠ draws.uuid i) {inputs : HostEntries}
    (hskip : (encryptPaths p draws v target inputs).report.skipped = []) :
    AddsAndKeeps p v (encryptPaths p draws v target inputs).vault target inputs ↔
      (∀ f ∈ inputs.allFiles, ∃ q, (q, target) ∈ v.entered p ∧
        ((q ++ f.1, some f.2) ∈ reached p (v.without p target inputs.names) ∨
          Follows p v target inputs q f)) ∧
      ∀ e ∈ reached p v, ¬Ingested p v target inputs e.1 →
        e ∈ reached p (v.without p target inputs.names) := by
  obtain ⟨W, hgrows, hcovers, hshows⟩ := ingest_adds hp hsized hd inputs target ⟨v, 0, ⟨0, 0, []⟩⟩
    (fun i _ => hnew i) hfresh.unused hskip
  have hafter : After p draws W v _ target inputs.names _ :=
    ⟨hp, hd, hfresh.unused, hnew, hgrows, hcovers⟩
  have hreached : ∀ {way content}, content ≠ none ∨ ¬Ingested p v target inputs way → _ :=
    hafter.mem_reached_after hshows
  refine and_congr ?_ ?_
  · refine forall₂_congr fun f _ => exists_congr fun q => and_congr_right fun hq => ?_
    refine (hreached (.inl (Option.some_ne_none f.2))).trans (or_congr_right ?_)
    constructor
    · intro ⟨q', f', hq', hway, hcontent, hfollows⟩
      obtain rfl := entered_way_unique hq hq'
      have hf : f = f' := Prod.ext (append_cancel_left hway) (Option.some.inj hcontent)
      rw [hf]
      exact hfollows
    · exact fun hfollows => ⟨q, f, hq, rfl, rfl, hfollows⟩
  · refine forall₂_congr fun e _ => forall_congr' fun hnot => ?_
    refine (hreached (.inr hnot)).trans (or_iff_left ?_)
    intro ⟨q, f, hq, hway, _, hfollows⟩
    exact hnot ⟨q, f, hq, HostEntries.mem_allFiles_of_lookup hfollows.last, hway⟩

/-! ### A vault with a folder -/

/-- Primitives that hide nothing. -/
def clearPrimitives : Primitives where
  encKey := []
  macKey := []
  sealSiv _ _ message := message
  openSiv _ _ sealed := some sealed
  base64urlEncode := byteChars
  base64urlDecode text := some (charBytes text)
  sha1 data := data
  base32Encode data := 'A' :: 'A' :: byteChars data
  sealGcm _ _ _ message := message ++ List.replicate 16 0
  openGcm _ _ _ sealed := some (sealed.take (sealed.length - 16))
  toLowercase name := name
  isWhitespace c := c == ' '

def unaryDraws : Draws where
  uuid i := List.replicate (i + 1) 'u'
  contentKey _ := List.replicate 32 0
  headerNonce _ := List.replicate 12 0
  chunkNonce _ _ := List.replicate 12 0

/-- A folder `docs` with a file `old`. -/
def docsVault : Vault where
  folders path :=
    if path = clearPrimitives.hashDirId [] then
      some [.c9r (clearPrimitives.encryptFilename [] ['d', 'o', 'c', 's']) (.folder (.text ['d']))]
    else if path = clearPrimitives.hashDirId ['d'] then
      some [.c9r (clearPrimitives.encryptFilename ['d'] ['o', 'l', 'd'])
        (.file (encryptData clearPrimitives (unaryDraws.contentKey 0) (unaryDraws.headerNonce 0)
          (unaryDraws.chunkNonce 0) [1]))]
    else none

/-- A host folder with a file `new`. -/
def hostFolder (name : Text) : HostEntries :=
  .folder name true (.file ['n', 'e', 'w'] (some [2]) .nil) .nil

theorem clearPrimitives_sound : clearPrimitives.Sound where
  openSiv_sealSiv _ _ _ := rfl
  base64url_decode_encode data := congrArg some (charBytes_byteChars data)
  hash_injective a b h := by
    have hpath : "d/AA/".toList ++ byteChars (asBytes a) = "d/AA/".toList ++ byteChars
        (asBytes b) := h
    exact asBytes_injective (byteChars_injective (append_cancel_left hpath))
  open_seal _ _ _ message := by simp [clearPrimitives]
  seal_length _ _ _ message := by simp [clearPrimitives]

theorem unaryDraws_sized : unaryDraws.Sized where
  contentKey _ := length_replicate
  headerNonce _ := length_replicate
  chunkNonce _ _ := length_replicate

theorem unaryDraws_distinct : unaryDraws.Distinct clearPrimitives where
  nonempty i h := by simp [unaryDraws] at h
  injective i j h := by simpa [unaryDraws] using h
  trim_uuid i := by
    have hd : ∀ n, (replicate n 'u').dropWhile clearPrimitives.isWhitespace = replicate n 'u' := by
      intro n
      cases n with
      | zero => rfl
      | succ n => rfl
    unfold trim unaryDraws
    simp only [hd, reverse_replicate]

theorem docsVault_other {path : Text} (hr : path ≠ clearPrimitives.hashDirId [])
    (hd : path ≠ clearPrimitives.hashDirId ['d']) : docsVault.folders path = none := by
  simp only [docsVault, if_neg hr, if_neg hd]

theorem docsVault_fresh : FreshFrom clearPrimitives unaryDraws docsVault 0 := by
  have hd : ∀ i, unaryDraws.uuid i ≠ ['d'] := by
    intro i h
    cases h
  have hapart : ∀ i id, unaryDraws.uuid i ≠ id →
      clearPrimitives.hashDirId (unaryDraws.uuid i) ≠ clearPrimitives.hashDirId id :=
    fun i id hne h => hne (clearPrimitives_sound.hash_injective _ _ h)
  constructor
  · exact fun i _ => docsVault_other (hapart i _ (unaryDraws_distinct.nonempty i))
      (hapart i _ (hd i))
  · intro i _ path slot hs hc
    by_cases hr : path = clearPrimitives.hashDirId []
    · subst hr
      rw [mem_singleton.mp hs] at hc
      exact hd i (Option.some.inj hc).symm
    by_cases hdocs : path = clearPrimitives.hashDirId ['d']
    · subst hdocs
      rw [mem_singleton.mp hs] at hc
      cases hc
    · rw [Vault.slotsAt, docsVault_other hr hdocs] at hs
      cases hs

/-- A host folder of another name is added, and `old` is still reached. -/
theorem encryptPaths_more :
    AddsAndKeeps clearPrimitives docsVault
      (encryptPaths clearPrimitives unaryDraws docsVault [] (hostFolder ['m', 'o', 'r', 'e'])).vault
        [] (hostFolder ['m', 'o', 'r', 'e']) := by
  refine (encryptPaths_adds_and_keeps_iff clearPrimitives_sound unaryDraws_sized unaryDraws_distinct
    docsVault_fresh (fun i h => unaryDraws_distinct.nonempty i h.symm)
      (by decide +kernel)).mpr ⟨?_, ?_⟩
  · intro f hf
    have hfile : f = ([['m', 'o', 'r', 'e'], ['n', 'e', 'w']], [2]) := mem_singleton.mp hf
    subst hfile
    exact ⟨[], by decide +kernel, .inr ⟨by decide +kernel, by decide, by decide, by decide⟩⟩
  · have hsame : reached clearPrimitives docsVault
        = reached clearPrimitives (docsVault.without clearPrimitives []
          [['m', 'o', 'r', 'e']]) := by
      decide +kernel
    intro e he _
    rw [hsame] at he
    exact he

/-- A host folder `docs` is added, nothing is skipped, and `old` is not reached any more. -/
theorem encryptPaths_docs_detaches :
    clearPrimitives.Sound ∧ unaryDraws.Sized ∧ unaryDraws.Distinct clearPrimitives ∧
      FreshFrom clearPrimitives unaryDraws docsVault 0 ∧ (∀ i, [] ≠ unaryDraws.uuid i) ∧
      (encryptPaths clearPrimitives unaryDraws docsVault []
        (hostFolder ['d', 'o', 'c', 's'])).report.skipped = [] ∧
      ¬AddsAndKeeps clearPrimitives docsVault
        (encryptPaths clearPrimitives unaryDraws docsVault []
          (hostFolder ['d', 'o', 'c', 's'])).vault []
        (hostFolder ['d', 'o', 'c', 's']) := by
  refine ⟨clearPrimitives_sound, unaryDraws_sized, unaryDraws_distinct, docsVault_fresh,
    fun i h => unaryDraws_distinct.nonempty i h.symm, by decide +kernel, fun hadds => ?_⟩
  have hold : ([['d', 'o', 'c', 's'], ['o', 'l', 'd']], some [1])
      ∈ reached clearPrimitives docsVault := by
    decide +kernel
  have hnot : ([['d', 'o', 'c', 's'], ['o', 'l', 'd']], some [1]) ∉ reached clearPrimitives
      (encryptPaths clearPrimitives unaryDraws docsVault []
        (hostFolder ['d', 'o', 'c', 's'])).vault := by
    decide +kernel
  refine hnot (hadds.2 _ hold ?_)
  intro ⟨q, f, hq, hf, hway⟩
  have hfile : f = ([['d', 'o', 'c', 's'], ['n', 'e', 'w']], [2]) := mem_singleton.mp hf
  subst hfile
  have hlast := congrArg getLast? hway
  simp at hlast

end AeroFtp.Cryptomator
