/-
What a published manifest promises.

A version writes what has changed, deletes what is gone and lists everything.  So each entry
of its manifest rests on a blob that this call has written or that an earlier one has left, and
every call has to leave the blobs of its own state in place for the next.  A deletion takes all
keys with the deleted one in front of them, and it comes after the writes: a file that goes
takes with it the blob of a file whose name only begins like its own.
-/
import AeroFtp.Lib.Runs
import AeroFtp.PeerL0.Publish

namespace AeroFtp.PeerL0

open AssocList Sync Texts Runs List Drive

variable {prims : Primitives} {driveKey : DriveKey}

/-- What is assumed of the cipher, of the hash, that texts of two lengths do not share one, and
of the document: `set_bytes` makes the blob the live entry of its key, and `del` removes every
entry whose key has the deleted one as a byte prefix. -/
structure Primitives.Lawful (prims : Primitives) : Prop where
  decrypt_encrypt : ∀ driveKey nonce plaintext,
    prims.decrypt driveKey nonce (prims.encrypt driveKey nonce plaintext) = some plaintext
  length_of_blake3 : ∀ a b, prims.blake3 a = prims.blake3 b → a.length = b.length
  entry_setBytes : ∀ doc key blob other, prims.entry (prims.setBytes doc key blob) other =
    if other = key then some blob else prims.entry doc other
  entry_del : ∀ doc key other, prims.entry (prims.del doc key) other =
    if asBytes key <+: asBytes other then none else prims.entry doc other

/-- The key has a live entry, a nonce and a ciphertext, that decrypts to the plaintext. -/
def Opens (prims : Primitives) (driveKey : DriveKey) (doc : prims.Doc) (key : Key)
    (plaintext : Bytes) : Prop :=
  ∃ nonce : Nonce, ∃ ciphertext, prims.entry doc key = some (nonce.toList ++ ciphertext) ∧
    prims.decrypt driveKey nonce ciphertext = some plaintext

/-- A replica finds every file of the list as the list says it is. -/
def Replicable (prims : Primitives) (driveKey : DriveKey) (doc : prims.Doc)
    (files : List ManifestFile) : Prop :=
  ∀ file ∈ files, ∃ plaintext, Opens prims driveKey doc file.key plaintext ∧
    plaintext.length = file.plaintextLen ∧ prims.blake3 plaintext = file.plaintextBlake3

/-- The key opens to a plaintext with this hash. -/
def OpensTo (prims : Primitives) (driveKey : DriveKey) (doc : prims.Doc) (key : Key)
    (digest : Digest) : Prop :=
  ∃ plaintext, Opens prims driveKey doc key plaintext ∧ prims.blake3 plaintext = digest

/-- The document holds what a state says. -/
def Holds (prims : Primitives) (driveKey : DriveKey) (doc : prims.Doc) (state : DriveState) :
    Prop :=
  ∀ key digest, state.lookup key = some digest → OpensTo prims driveKey doc key digest

/-- The trees a version can be published from: no file stands under the key of the manifest,
files under one key are the same, and no key that the last version had and this tree has not is
a byte prefix of one of its keys. -/
structure Separate (prev : Option DriveState) (files : List SourceFile) : Prop where
  notManifest : ∀ file ∈ files, file.key ≠ manifestKey
  oneContent : ∀ file ∈ files, ∀ other ∈ files, file.key = other.key → file.content = other.content
  goneApart : ∀ p, prev = some p → ∀ gone ∈ p, gone ∉ files.map (·.key) →
    ∀ file ∈ files, ¬ asBytes gone <+: asBytes file.key

/-! ### The document -/

variable {key : Key}

theorem OpensTo.congr {doc doc' : prims.Doc} {digest : Digest}
    (ho : OpensTo prims driveKey doc key digest)
    (h : prims.entry doc' key = prims.entry doc key) : OpensTo prims driveKey doc' key digest := by
  obtain ⟨plaintext, ⟨nonce, ciphertext, hdoc, hdec⟩, hdig⟩ := ho
  exact ⟨plaintext, ⟨nonce, ciphertext, h.trans hdoc, hdec⟩, hdig⟩

variable (hlaw : prims.Lawful)

include hlaw

theorem opens_setBytes (doc : prims.Doc) (key : Key) (nonce : Nonce) (plaintext : Bytes) :
    Opens prims driveKey (prims.setBytes doc key (encryptBlob prims driveKey nonce plaintext))
      key plaintext := by
  refine ⟨nonce, _, ?_, hlaw.decrypt_encrypt driveKey nonce plaintext⟩
  rw [hlaw.entry_setBytes, if_pos rfl, encryptBlob]

variable {doc : prims.Doc} {other : Key}

theorem setBytes_of_ne {blob : Bytes} (h : other ≠ key) :
    prims.entry (prims.setBytes doc key blob) other = prims.entry doc other := by
  rw [hlaw.entry_setBytes, if_neg h]

theorem deleteGone_of_apart {deleted : Key → Bool} {gone : List Key}
    (h : ∀ key ∈ gone, ¬ asBytes key <+: asBytes other) :
    prims.entry (deleteGone prims deleted gone doc) other = prims.entry doc other := by
  induction gone generalizing doc with
  | nil => rfl
  | cons key gone ih =>
    rw [deleteGone, ih fun key' hkey' => h key' (mem_cons_of_mem _ hkey')]
    by_cases hdel : deleted key = true
    · rw [if_pos hdel, hlaw.entry_del, if_neg (h key (mem_cons_self ..))]
    · rw [if_neg hdel]

omit hlaw

theorem mem_goneKeys {prev : Option DriveState} {order : HashOrder Key} {state : DriveState}
    (h : key ∈ goneKeys prev order state) : ∃ p, prev = some p ∧ key ∈ p ∧ key ∉ state := by
  cases prev with
  | none => simp [goneKeys] at h
  | some p =>
    simpa [goneKeys, order.mem_iter, AList.mem_keys] using h

/-! ### The loop over the files -/

variable {prev : Option DriveState} {publication : Publication} {s s' : Progress prims} {i : Nat}
variable {file : SourceFile}

/-- What one turn does: the key goes into the state and the manifest, and its blob is written
unless the last version had the same hash. -/
theorem publishFile_ok
    (h : publishFile prims driveKey prev publication i s file = .ok s') :
    ∃ pt, file.content = some pt ∧ s'.state = s.state.insert file.key (prims.blake3 pt) ∧
      s'.manifestFiles = s.manifestFiles ++ [⟨file.key, pt.length, prims.blake3 pt⟩] ∧
      ((∃ p, prev = some p ∧ p.lookup file.key = some (prims.blake3 pt) ∧ s'.doc = s.doc) ∨
        s'.doc = prims.setBytes s.doc file.key
          (encryptBlob prims driveKey (publication.nonce i) pt)) := by
  unfold publishFile at h
  cases hc : file.content with
  | none =>
    rw [hc] at h
    cases h
  | some pt =>
    refine ⟨pt, rfl, ?_⟩
    simp only [hc] at h
    by_cases hsame : isUnchanged prev file.key (prims.blake3 pt) = true
    · rw [if_pos hsame] at h
      cases h
      refine ⟨rfl, rfl, .inl ?_⟩
      cases prev with
      | none => simp [isUnchanged] at hsame
      | some p => exact ⟨p, rfl, by simpa [isUnchanged] using hsame, rfl⟩
    · rw [if_neg hsame] at h
      -- the blob is encrypted and stored, or the call ends with the error
      split at h
      · cases h
      split at h
      · cases h
      cases h
      exact ⟨rfl, rfl, .inr rfl⟩

/-- The state of the loop: what it has met of `files` is in place, and what it has not met is
as the last version has left it. -/
structure Loop (prims : Primitives) (driveKey : DriveKey) (files : List SourceFile)
    (prev : Option DriveState) (s : Progress prims) : Prop where
  written : Holds prims driveKey s.doc s.state
  waiting : ∀ p, prev = some p → ∀ key digest, p.lookup key = some digest → key ∉ s.state →
    OpensTo prims driveKey s.doc key digest
  ofFiles : ∀ key digest, s.state.lookup key = some digest →
    ∃ file ∈ files, ∃ pt, file.key = key ∧ file.content = some pt ∧ prims.blake3 pt = digest
  listed : ∀ entry ∈ s.manifestFiles, s.state.lookup entry.key = some entry.plaintextBlake3 ∧
    ∃ pt, prims.blake3 pt = entry.plaintextBlake3 ∧ pt.length = entry.plaintextLen

variable {files : List SourceFile}

theorem loop_start {stats : DriveStats} (h : ∀ p, prev = some p → Holds prims driveKey doc p) :
    Loop prims driveKey files prev ⟨doc, ∅, [], stats⟩ where
  written := by
    intro key digest hl
    simp at hl
  waiting := fun p hp key digest hl _ => h p hp key digest hl
  ofFiles := by
    intro key digest hl
    simp at hl
  listed := by simp

section Loop

variable
  (hone : ∀ file ∈ files, ∀ other ∈ files, file.key = other.key → file.content = other.content)
include hlaw hone

theorem loop_publishFile (hfile : file ∈ files)
    (h : publishFile prims driveKey prev publication i s file = .ok s')
    (hloop : Loop prims driveKey files prev s) : Loop prims driveKey files prev s' := by
  obtain ⟨pt, hc, hstate, hmanifest, hdoc⟩ := publishFile_ok h
  -- a key met before has been met with the same content
  have hagree : ∀ digest, s.state.lookup file.key = some digest → digest = prims.blake3 pt := by
    intro digest hlook
    obtain ⟨other, hother, pt', hkey, hc', rfl⟩ := hloop.ofFiles _ _ hlook
    have := hone other hother file hfile hkey
    rw [hc, hc'] at this
    cases this
    rfl
  have hframe : ∀ key, key ≠ file.key → prims.entry s'.doc key = prims.entry s.doc key := by
    intro key hkey
    rcases hdoc with ⟨_, _, _, hdoc⟩ | hdoc
    · rw [hdoc]
    · rw [hdoc, setBytes_of_ne hlaw hkey]
  have hself : OpensTo prims driveKey s'.doc file.key (prims.blake3 pt) := by
    rcases hdoc with ⟨p, hp, hlook, hdoc⟩ | hdoc
    · rw [hdoc]
      by_cases hmet : file.key ∈ s.state
      · obtain ⟨digest, hdig⟩ := Option.isSome_iff_exists.mp (AList.lookup_isSome.mpr hmet)
        obtain rfl := hagree digest hdig
        exact hloop.written _ _ hdig
      · exact hloop.waiting p hp _ _ hlook hmet
    · rw [hdoc]
      exact ⟨pt, opens_setBytes hlaw _ _ _ _, rfl⟩
  refine ⟨?_, ?_, ?_, ?_⟩
  · intro key digest hlook
    rw [hstate] at hlook
    by_cases hkey : key = file.key
    · subst hkey
      rw [AList.lookup_insert] at hlook
      cases hlook
      exact hself
    · rw [AList.lookup_insert_ne hkey] at hlook
      exact (hloop.written key digest hlook).congr (hframe key hkey)
  · intro p hp key digest hlook hmem
    rw [hstate, AList.mem_insert, not_or] at hmem
    exact (hloop.waiting p hp key digest hlook hmem.2).congr (hframe key hmem.1)
  · intro key digest hlook
    rw [hstate] at hlook
    by_cases hkey : key = file.key
    · subst hkey
      rw [AList.lookup_insert] at hlook
      exact ⟨file, hfile, pt, rfl, hc, Option.some.inj hlook⟩
    · rw [AList.lookup_insert_ne hkey] at hlook
      exact hloop.ofFiles key digest hlook
  · intro entry he
    rw [hmanifest, mem_append, mem_singleton] at he
    rcases he with he | rfl
    · obtain ⟨hlook, hlen⟩ := hloop.listed entry he
      refine ⟨?_, hlen⟩
      rw [hstate]
      by_cases hkey : entry.key = file.key
      · have hsame := hagree entry.plaintextBlake3 (hkey ▸ hlook)
        rw [hkey, AList.lookup_insert, hsame]
      · rw [AList.lookup_insert_ne hkey, hlook]
    · exact ⟨by rw [hstate, AList.lookup_insert], pt, rfl, rfl⟩

theorem loop_publishFiles {rest : List SourceFile} (hr : ∀ file ∈ rest, file ∈ files)
    (h : publishFiles prims driveKey prev publication i s rest = .ok s')
    (hloop : Loop prims driveKey files prev s) :
    Loop prims driveKey files prev s' ∧
      ∀ key, key ∈ s'.state ↔ key ∈ s.state ∨ key ∈ rest.map (·.key) := by
  induction rest generalizing i s with
  | nil =>
    cases h
    exact ⟨hloop, by simp⟩
  | cons file rest ih =>
    rw [publishFiles] at h
    cases ht : publishFile prims driveKey prev publication i s file with
    | error failure =>
      rw [ht] at h
      cases h
    | ok m =>
      rw [ht] at h
      have hm := loop_publishFile hlaw hone (hr file (mem_cons_self ..)) ht hloop
      obtain ⟨hloop', hk⟩ := ih (fun f hf => hr f (mem_cons_of_mem _ hf)) h hm
      refine ⟨hloop', ?_⟩
      intro key
      obtain ⟨pt, _, hs, _⟩ := publishFile_ok ht
      rw [hk, hs, AList.mem_insert, map_cons, mem_cons, or_comm (a := key = _), or_assoc]

end Loop

/-! ### One call -/

variable {published : Published prims}

theorem publishDriveVersion_ok {version : Nat}
    (h : publishDriveVersion prims driveKey doc publication version prev = .ok published) :
    ∃ source stats s, publication.source = some source ∧
      publishFiles prims driveKey prev publication 0 ⟨doc, ∅, [], stats⟩ source.files = .ok s ∧
      published.state = s.state ∧ published.manifest.files = s.manifestFiles ∧
      published.manifest.driveVersion = version ∧
      published.doc = prims.setBytes
        (deleteGone prims publication.deleted (goneKeys prev publication.order s.state) s.doc)
        manifestKey
        (encryptBlob prims driveKey publication.manifestNonce
          (prims.toVec published.manifest)) := by
  unfold publishDriveVersion at h
  cases hsource : publication.source with
  | none =>
    rw [hsource] at h
    cases h
  | some source =>
    simp only [hsource] at h
    refine ⟨source, ⟨0, 0, 0, 0, source.files.length, 0⟩, ?_⟩
    cases hf : publishFiles prims driveKey prev publication 0
        ⟨doc, ∅, [], ⟨0, 0, 0, 0, source.files.length, 0⟩⟩ source.files with
    | error failure =>
      rw [hf] at h
      cases h
    | ok s =>
      simp only [hf] at h
      split at h
      · cases h
      split at h
      · cases h
      cases h
      exact ⟨s, rfl, rfl, rfl, rfl, rfl, rfl⟩

include hlaw in
/-- A call on a separate tree leaves its whole state in the document, and its manifest
promises nothing else. -/
theorem publishDriveVersion_holds {version : Nat}
    (hprev : ∀ p, prev = some p → Holds prims driveKey doc p)
    (hseparate : ∀ source, publication.source = some source → Separate prev source.files)
    (h : publishDriveVersion prims driveKey doc publication version prev = .ok published) :
    Holds prims driveKey published.doc published.state ∧
      Replicable prims driveKey published.doc published.manifest.files := by
  obtain ⟨source, stats, s, hsource, hfiles, hstate, hmanifest, -, hdoc⟩ := publishDriveVersion_ok h
  have hsep := hseparate source hsource
  obtain ⟨hloop, hkeys⟩ :=
    loop_publishFiles hlaw hsep.oneContent (fun _ hfile => hfile) hfiles (loop_start hprev)
  have hmem : ∀ key, key ∈ s.state ↔ key ∈ source.files.map (·.key) := by
    intro key
    rw [hkeys]
    simp
  -- neither the deletions nor the manifest touch a key of this version
  have hframe : ∀ key, key ∈ s.state →
      prims.entry published.doc key = prims.entry s.doc key := by
    intro key hkey
    obtain ⟨file, hfile, rfl⟩ := mem_map.mp ((hmem key).mp hkey)
    rw [hdoc, setBytes_of_ne hlaw (hsep.notManifest file hfile)]
    apply deleteGone_of_apart hlaw
    intro gone hg
    obtain ⟨p, hp, hin, hout⟩ := mem_goneKeys hg
    exact hsep.goneApart p hp gone hin (fun hc => hout ((hmem gone).mpr hc)) file hfile
  have hh : Holds prims driveKey published.doc published.state := by
    intro key digest hlook
    rw [hstate] at hlook
    have hin : key ∈ s.state := AList.lookup_isSome.mp (by rw [hlook]; rfl)
    exact (hloop.written key digest hlook).congr (hframe key hin)
  refine ⟨hh, ?_⟩
  intro entry he
  rw [hmanifest] at he
  obtain ⟨hlook, pt, hpt, hlen⟩ := hloop.listed entry he
  obtain ⟨plaintext, hopens, hdig⟩ := hh entry.key entry.plaintextBlake3 (hstate ▸ hlook)
  refine ⟨plaintext, hopens, ?_, hdig⟩
  rw [← hlen]
  exact hlaw.length_of_blake3 _ _ (hdig.trans hpt.symm)

/-! ### All calls of one author -/

/-- The tree a call finds is separate, beside what the last call has returned. -/
def SeparateCall (drive : Drive prims) (call : Nat × Publication) : Prop :=
  ∀ source, call.2.source = some source → Separate drive.prev source.files

/-- Between two calls: the document holds the state the last one has returned, and what its
manifest promises. -/
structure Drive.Kept (driveKey : DriveKey) (drive : Drive prims) : Prop where
  holds : ∀ p, drive.prev = some p → Holds prims driveKey drive.doc p
  replicable : ∀ manifest, drive.manifest = some manifest →
    Replicable prims driveKey drive.doc manifest.files

include hlaw in
theorem Drive.publish_kept {drive drive' : Drive prims} {call : Nat × Publication}
    (hs : SeparateCall drive call) (h : drive.publish prims driveKey call = some drive')
    (hk : drive.Kept driveKey) : drive'.Kept driveKey := by
  unfold publish at h
  cases hc : publishDriveVersion prims driveKey drive.doc call.2 call.1 drive.prev with
  | error failure =>
    rw [hc] at h
    cases h
  | ok published =>
    rw [hc] at h
    cases h
    obtain ⟨hh, hr⟩ := publishDriveVersion_holds hlaw hk.holds hs hc
    refine ⟨?_, ?_⟩
    · intro p hp
      cases hp
      exact hh
    · intro manifest hm
      cases hm
      exact hr

/-- **Whatever the document was, after calls on separate trees every entry of the manifest
written last has its blob.** -/
theorem published_replicable (hlaw : prims.Lawful) (doc : prims.Doc)
    (calls : List (Nat × Publication))
    (hcalls : Along (Drive.publish prims driveKey) SeparateCall (Drive.start prims doc) calls)
    {drive : Drive prims}
    (hrun : run (Drive.publish prims driveKey) (Drive.start prims doc) calls = some drive)
    {manifest : Manifest} (hmanifest : drive.manifest = some manifest) :
    Replicable prims driveKey drive.doc manifest.files := by
  have hstart : (start prims doc).Kept driveKey := by
    refine ⟨?_, ?_⟩
    · intro p hp
      cases hp
    · intro m hm
      cases hm
  exact (run_invariant_along (fun _ _ _ hsep hstep => publish_kept hlaw hsep hstep) hcalls hrun
    hstart).replicable manifest hmanifest

/-- Nothing is hidden, a text is its own hash, and a document is its live entries. -/
def clearPrimitives : Primitives where
  encrypt _ _ plaintext := plaintext
  decrypt _ _ ciphertext := some ciphertext
  blake3 := byteChars
  toVec _ := []
  Doc := Key → Option Bytes
  entry doc key := doc key
  setBytes doc key blob other := if other = key then some blob else doc other
  del doc key other := if asBytes key <+: asBytes other then none else doc other

theorem clearPrimitives_lawful : clearPrimitives.Lawful where
  decrypt_encrypt _ _ _ := rfl
  length_of_blake3 _ _ h := congrArg length (byteChars_injective h)
  entry_setBytes _ _ _ _ := rfl
  entry_del _ _ _ := rfl

/-- A document without entries. -/
def emptyDoc : clearPrimitives.Doc := fun _ => none

/-- A call that finds a tree and succeeds in all it does. -/
def smoothCall (source : Source) : Publication where
  source := some source
  created := ""
  nonce _ := Vector.replicate 12 0
  encrypted _ := true
  stored _ := true
  order := .inserted
  deleted _ := true
  manifestNonce := Vector.replicate 12 0
  manifestEncrypted := true
  manifestStored := true

/-- A file that is replaced by one of another name. -/
def replacedCalls : List (Nat × Publication) :=
  [(1, smoothCall (.file "a".toList (some [1]) .nil)),
    (2, smoothCall (.file "b".toList (some [2]) .nil))]

theorem separate_singleton {content : Option Bytes} (hkey : key ≠ manifestKey)
    (hg : ∀ p, prev = some p → ∀ gone ∈ p, gone ≠ key → ¬ asBytes gone <+: asBytes key) :
    Separate prev [⟨key, content⟩] where
  notManifest := by simpa using hkey
  oneContent := by simp
  goneApart := by
    intro p hp gone hmem hnot file hf
    obtain rfl := mem_singleton.mp hf
    exact hg p hp gone hmem (by simpa using hnot)

theorem published_replicable_replaced :
    ∃ drive manifest,
      run (Drive.publish clearPrimitives (Vector.replicate 32 0))
        (Drive.start clearPrimitives emptyDoc) replacedCalls = some drive ∧
          drive.manifest = some manifest ∧
      manifest.files = [⟨"b".toList, 1, [Char.ofNat 2]⟩] ∧
      Replicable clearPrimitives (Vector.replicate 32 0) drive.doc manifest.files := by
  have hrun : (run (publish clearPrimitives (Vector.replicate 32 0))
      (start clearPrimitives emptyDoc) replacedCalls).map
        (fun drive => drive.manifest.map (·.files))
      = some (some [⟨"b".toList, 1, [Char.ofNat 2]⟩]) := by
    decide +kernel
  obtain ⟨drive, hdrive, hfiles⟩ := Option.map_eq_some_iff.mp hrun
  obtain ⟨manifest, hmanifest, hentries⟩ := Option.map_eq_some_iff.mp hfiles
  have hcalls : Along (publish clearPrimitives (Vector.replicate 32 0)) SeparateCall
      (start clearPrimitives emptyDoc) replacedCalls := by
    refine ⟨?_, ?_⟩
    · intro source hsource
      cases hsource
      exact separate_singleton (by decide) (fun p hp => by cases hp)
    intro t ht
    refine ⟨?_, fun _ _ => trivial⟩
    intro source hsource
    cases hsource
    refine separate_singleton (by decide) ?_
    intro p hp gone hgone _
    have hkeys : ((start clearPrimitives emptyDoc).publish clearPrimitives (Vector.replicate 32 0)
        (1, smoothCall (.file "a".toList (some [1]) .nil))).map
          (fun drive => drive.prev.map (·.keys))
        = some (some ["a".toList]) := by
      decide +kernel
    rw [ht, Option.map_some, hp] at hkeys
    have hgone' : gone ∈ ["a".toList] := (Option.some.inj (Option.some.inj hkeys)) ▸ hgone
    obtain rfl := mem_singleton.mp hgone'
    decide
  exact ⟨drive, manifest, hdrive, hmanifest, hentries,
    published_replicable clearPrimitives_lawful _ replacedCalls hcalls hdrive hmanifest⟩

/-- Two files, and then only the second: the deletion of `notes` takes the blob of `notes.txt`,
which has not changed and stays in the manifest. -/
def notesCalls : List (Nat × Publication) :=
  [(1, smoothCall (.file "notes".toList (some [1]) (.file "notes.txt".toList (some [2]) .nil))),
    (2, smoothCall (.file "notes.txt".toList (some [2]) .nil))]

theorem notes_deletes_notesTxt :
    clearPrimitives.Lawful ∧ ∃ drive manifest,
      run (Drive.publish clearPrimitives (Vector.replicate 32 0))
        (Drive.start clearPrimitives emptyDoc) notesCalls = some drive ∧
          drive.manifest = some manifest ∧
      ¬ Replicable clearPrimitives (Vector.replicate 32 0) drive.doc manifest.files := by
  have hrun : (run (publish clearPrimitives (Vector.replicate 32 0))
      (start clearPrimitives emptyDoc) notesCalls).map (fun drive =>
        (clearPrimitives.entry drive.doc "notes.txt".toList, drive.manifest.map (·.files)))
      = some (none, some [⟨"notes.txt".toList, 1, [Char.ofNat 2]⟩]) := by
    decide +kernel
  obtain ⟨drive, hdrive, hshow⟩ := Option.map_eq_some_iff.mp hrun
  obtain ⟨hdoc, hfiles⟩ := Prod.mk.inj hshow
  obtain ⟨manifest, hmanifest, hentries⟩ := Option.map_eq_some_iff.mp hfiles
  refine ⟨clearPrimitives_lawful, drive, manifest, hdrive, hmanifest, ?_⟩
  intro hreplicable
  obtain ⟨plaintext, ⟨nonce, ciphertext, hopens, -⟩, -⟩ :=
    hreplicable _ (by rw [hentries]; exact mem_singleton_self _)
  rw [hdoc] at hopens
  cases hopens

end AeroFtp.PeerL0
