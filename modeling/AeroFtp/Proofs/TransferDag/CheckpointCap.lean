/-
When the checkpoint store keeps its cap.

A call counts the records once, at its scan, and another call may write between that scan
and its own write.  Deleting the same record twice is excluded by `unlink`, and the calls
count only the deletions they performed; but a slot that one call has freed for itself is
free space in the scan of another.  So the cap is sure only for calls one at a time, and
where there is room for all of them from the start.  That no call deletes its own record
holds without any condition.
-/
import AeroFtp.TransferDag.CheckpointCap

namespace AeroFtp.Dag

open List Runs EvictionCandidate CheckpointOpener

namespace CheckpointDir

variable {s s' : CheckpointDir} {e : OpenerStep} {opener : CheckpointOpener}
variable {o : CheckpointOpener}

/-! ### One step -/

/-- All that a step of an opener can be. -/
inductive OpenerMove (s : CheckpointDir) (i : Nat) (opener : CheckpointOpener) :
    CheckpointDir → Prop where
  | fail (result : Except String Unit) (h : opener.phase = .scanning ∨ opener.phase = .writing) :
      OpenerMove s i opener (s.enter i opener (.done result))
  | scan (now : Nat) (h : opener.phase = .scanning) :
      OpenerMove s i opener (s.enter i opener (enforceCap s.maxRecords s.files opener.key now))
  | load {now path rest records evict} (candidate : EvictionCandidate)
      (h : opener.phase = .loading now (path :: rest) records evict)
        (hpath : candidate.path = path) :
      OpenerMove s i opener (s.enter i opener (loadRecords now rest (records ++ [candidate]) evict))
  | pass {path rest needed reclaimed vanished failures} (vanished' : Nat) (failures' : List String)
      (h : opener.phase = .reclaiming (path :: rest) needed reclaimed vanished failures) :
      OpenerMove s i opener (s.enter i opener
        (reclaimSlots rest needed reclaimed vanished' failures'))
  | unlink {path rest needed reclaimed vanished failures}
      (h : opener.phase = .reclaiming (path :: rest) needed reclaimed vanished failures)
      (hmem : path ∈ s.files.map (·.key)) :
      OpenerMove s i opener
        ((s.unlink opener path).enter i opener
          (reclaimSlots rest needed (reclaimed + 1) vanished failures))
  | write (h : opener.phase = .writing) :
      OpenerMove s i opener ((s.replace opener).enter i opener (.done (.ok ())))

theorem step_move (h : s.step e = some s') :
    ∃ opener, s.openers[e.opener]? = some opener ∧ OpenerMove s e.opener opener s' := by
  unfold step at h
  split at h
  · cases h
  · rename_i opener ho
    refine ⟨opener, ho, ?_⟩
    split at h
    · rename_i hp
      cases h
      split
      · exact .fail _ (.inl hp)
      · exact .scan e.now hp
    · rename_i now paths records evict hp
      split at h
      · cases h
      · cases h
        refine .load _ hp ?_
        unfold ofLoaded
        split <;> rfl
    · rename_i candidates needed reclaimed vanished failures hp
      split at h
      · cases h
      · split at h
        · cases h
          exact .pass _ _ hp
        · rename_i ht
          split at h
          · cases h
            exact .pass _ _ hp
          · cases h
            exact .unlink hp (by simpa using ht)
    · rename_i hp
      split at h
      · cases h
        exact .fail _ (.inr hp)
      · cases h
        exact .write hp
    · cases h

variable {i : Nat}

theorem forall_mem_set {α : Type} {P : α → Prop} {l : List α} {b : α} (h : ∀ a ∈ l, P a)
    (hb : P b) : ∀ a ∈ l.set i b, P a := by
  intro a ha
  rcases mem_or_eq_of_mem_set ha with ha | rfl
  · exact h a ha
  · exact hb

/-! ### No call deletes its own record -/

/-- The opener's own key is not among what it may delete. -/
def SparesOwn (opener : CheckpointOpener) : Prop :=
  match opener.phase with
  | .loading _ paths records _ => opener.key ∉ paths ∧ opener.key ∉ records.map (·.path)
  | .reclaiming candidates .. => opener.key ∉ candidates
  | _ => True

theorem sparesOwn_reclaimSlots {candidates : List String} (h : opener.key ∉ candidates)
    (needed reclaimed vanished : Nat) (failures : List String) :
    SparesOwn
      { opener with phase := reclaimSlots candidates needed reclaimed vanished failures } := by
  unfold reclaimSlots
  split
  · trivial
  · split
    · trivial
    · exact h

theorem sparesOwn_loadRecords {paths : List String} {records : List EvictionCandidate}
    (h : opener.key ∉ paths) (hr : opener.key ∉ records.map (·.path)) (now evict : Nat) :
    SparesOwn { opener with phase := loadRecords now paths records evict } := by
  unfold loadRecords
  split
  · refine sparesOwn_reclaimSlots ?_ ..
    rwa [((perm_insertionSort _ records).map _).mem_iff]
  · exact ⟨h, hr⟩

variable (maxRecords : Nat) (files : List StoredFile) (fresh : List MultipartCheckpoint)

theorem sparesOwn_enforceCap (now : Nat) :
    SparesOwn { opener with phase := enforceCap maxRecords files opener.key now } := by
  unfold enforceCap
  dsimp only
  split
  · trivial
  · refine sparesOwn_loadRecords ?_ (by simp) ..
    simp [otherRecords]

/-- No call deletes, or is about to delete, the record it opens. -/
def SelfSparing (s : CheckpointDir) : Prop :=
  (∀ opener ∈ s.openers, SparesOwn opener) ∧ ∀ d ∈ s.deleted, d.1 ≠ d.2

theorem selfSparing_step (h : s.step e = some s') (hs : SelfSparing s) : SelfSparing s' := by
  obtain ⟨hown, hdel⟩ := hs
  obtain ⟨opener, hopener, hmove⟩ := step_move h
  have hself := hown opener (mem_of_getElem? hopener)
  cases hmove with
  | fail result hphase => exact ⟨forall_mem_set hown trivial, hdel⟩
  | scan now hphase => exact ⟨forall_mem_set hown (sparesOwn_enforceCap ..), hdel⟩
  | load candidate hphase hpath =>
    simp only [SparesOwn, hphase] at hself
    refine ⟨forall_mem_set hown (sparesOwn_loadRecords (fun hm => hself.1 (mem_cons_of_mem _ hm)) ?_
      ..), hdel⟩
    intro hm
    rw [map_append, mem_append] at hm
    rcases hm with hm | hm
    · exact hself.2 hm
    · rw [map_singleton, mem_singleton, hpath] at hm
      exact hself.1 (hm ▸ mem_cons_self ..)
  | pass vanished' failures' hphase =>
    simp only [SparesOwn, hphase] at hself
    exact ⟨forall_mem_set hown (sparesOwn_reclaimSlots (fun hm => hself (mem_cons_of_mem _ hm)) ..),
      hdel⟩
  | unlink hphase hmem =>
    simp only [SparesOwn, hphase] at hself
    refine ⟨forall_mem_set hown (sparesOwn_reclaimSlots
      (fun hm => hself (mem_cons_of_mem _ hm)) ..), ?_⟩
    intro d hd
    rcases mem_append.mp hd with hd | hd
    · exact hdel d hd
    · rw [mem_singleton.mp hd]
      intro heq
      exact hself (mem_cons.mpr (.inl heq))
  | write hphase => exact ⟨forall_mem_set hown trivial, hdel⟩

theorem selfSparing_start : SelfSparing (start maxRecords files fresh) := by
  refine ⟨?_, by simp [start]⟩
  intro opener ho
  obtain ⟨checkpoint, -, rfl⟩ := mem_map.mp ho
  trivial

/-! ### Where the cap is kept -/

theorem otherRecords_length (keep : String) : (otherRecords files keep).length ≤ files.length := by
  calc (otherRecords files keep).length ≤ (files.map (·.key)).length := length_filter_le ..
    _ = files.length := length_map ..

variable {maxRecords files} in
theorem enforceCap_room (h : files.length + 1 ≤ maxRecords) (keep : String) (now : Nat) :
    enforceCap maxRecords files keep now = .writing := by
  have := otherRecords_length files keep
  exact if_pos (by omega)

theorem replace_length (s : CheckpointDir) (opener : CheckpointOpener) :
    (s.replace opener).files.length ≤ s.files.length + 1 := by
  have := length_filter_le (fun f : StoredFile => decide (f.key ≠ opener.key)) s.files
  simp only [replace, length_append, length_singleton]
  omega

variable {path : String}

theorem unlink_length (opener : CheckpointOpener) (h : path ∈ s.files.map (·.key)) :
    (s.unlink opener path).files.length + 1 ≤ s.files.length := by
  obtain ⟨file, hf, rfl⟩ := mem_map.mp h
  refine length_filter_lt_length_iff_exists.mpr ⟨file, hf, ?_⟩
  simp

/-- An opener that has not ended yet. -/
def isLive (opener : CheckpointOpener) : Bool :=
  match opener.phase with
  | .done _ => false
  | _ => true

/-- There is room for every call that has not ended, and so nobody makes any. -/
def Roomy (s : CheckpointDir) : Prop :=
  s.files.length + s.openers.countP isLive ≤ s.maxRecords ∧
    ∀ opener ∈ s.openers, opener.phase = .scanning ∨ opener.phase = .writing ∨ isLive opener = false

theorem countP_live_set {openers : List CheckpointOpener}
    (hi : openers[i]? = some opener) (hlive : isLive opener = true) :
    (openers.set i o).countP isLive + 1 = openers.countP isLive + if isLive o then 1 else 0 := by
  obtain ⟨hlt, hget⟩ := List.getElem?_eq_some_iff.mp hi
  have hpos : 0 < openers.countP isLive :=
    countP_pos_iff.mpr ⟨opener, mem_of_getElem? hi, hlive⟩
  rw [countP_set hlt, hget, hlive]
  simp only [if_true]
  omega

theorem roomy_step (h : s.step e = some s') (hs : Roomy s) : Roomy s' := by
  obtain ⟨hr, hphases⟩ := hs
  obtain ⟨opener, ho, hmove⟩ := step_move h
  have hmem := mem_of_getElem? ho
  have hnot : opener.phase = .scanning ∨ opener.phase = .writing ∨ isLive opener = false :=
    hphases opener hmem
  cases hmove with
  | fail result hphase =>
    have hlive : isLive opener = true := by rcases hphase with h | h <;> simp [isLive, h]
    have hc := countP_live_set (o := { opener with phase := .done result }) ho hlive
    refine ⟨?_, forall_mem_set hphases (.inr (.inr rfl))⟩
    simp only [enter, isLive, Bool.false_eq_true, if_false] at hc ⊢
    omega
  | scan now hphase =>
    have hlive : isLive opener = true := by simp [isLive, hphase]
    have hpos : 0 < s.openers.countP isLive := countP_pos_iff.mpr ⟨opener, hmem, hlive⟩
    have hc := countP_live_set (o := { opener with phase := .writing }) ho hlive
    rw [enforceCap_room (by omega)]
    refine ⟨?_, forall_mem_set hphases (.inr (.inl rfl))⟩
    simp only [enter, isLive, if_true] at hc ⊢
    omega
  | load candidate hphase hpath => simp [hphase, isLive] at hnot
  | pass vanished' failures' hphase => simp [hphase, isLive] at hnot
  | unlink hphase hmem => simp [hphase, isLive] at hnot
  | write hphase =>
    have hc := countP_live_set (o := { opener with phase := .done (.ok ()) }) ho
      (by simp [isLive, hphase])
    have hlen := replace_length s opener
    refine ⟨?_, forall_mem_set hphases (.inr (.inr rfl))⟩
    simp only [enter, replace, isLive, Bool.false_eq_true, if_false] at hc hlen ⊢
    omega

/-- What a call by itself has counted, and what it has freed, agree with the directory. -/
def Counted (maxRecords : Nat) (files : List StoredFile) (key : String) : OpenerPhase → Prop
  | .scanning => key ∉ files.map (·.key)
  | .loading _ _ _ evict => files.length + 1 ≤ maxRecords + evict
  | .reclaiming _ needed reclaimed _ _ => files.length + 1 + reclaimed ≤ maxRecords + needed
  | .writing => files.length + 1 ≤ maxRecords
  | .done _ => True

section Counted

variable {maxRecords : Nat} {files : List StoredFile} {key : String}

theorem counted_reclaimSlots {needed reclaimed : Nat}
    (h : files.length + 1 + reclaimed ≤ maxRecords + needed) (candidates : List String)
    (vanished : Nat) (failures : List String) :
    Counted maxRecords files key (reclaimSlots candidates needed reclaimed vanished failures) := by
  unfold reclaimSlots
  split
  · show files.length + 1 ≤ maxRecords
    omega
  · split
    · trivial
    · exact h

theorem counted_loadRecords {evict : Nat} (h : files.length + 1 ≤ maxRecords + evict) (now : Nat)
    (paths : List String) (records : List EvictionCandidate) :
    Counted maxRecords files key (loadRecords now paths records evict) := by
  unfold loadRecords
  split
  · exact counted_reclaimSlots h ..
  · exact h

theorem otherRecords_new (hnew : key ∉ files.map (·.key)) :
    otherRecords files key = files.map (·.key) := by
  refine filter_eq_self.mpr fun k hk => ?_
  simpa using fun h : k = key => hnew (h ▸ hk)

theorem counted_enforceCap (hnew : key ∉ files.map (·.key)) (now : Nat) :
    Counted maxRecords files key (enforceCap maxRecords files key now) := by
  unfold enforceCap
  simp only [otherRecords_new hnew, length_map]
  split
  · assumption
  · exact counted_loadRecords (by omega) ..

end Counted

/-- One call at most, that has counted right. -/
structure OneCall (s : CheckpointDir) : Prop where
  within : s.files.length ≤ s.maxRecords
  one : s.openers.length ≤ 1
  counted : ∀ opener ∈ s.openers, Counted s.maxRecords s.files opener.key opener.phase

theorem set_eq_singleton {α : Type} {l : List α} {a : α} (hlen : l.length ≤ 1)
    (h : l[i]? = some a) (b : α) : l.set i b = [b] := by
  obtain ⟨hi, -⟩ := List.getElem?_eq_some_iff.mp h
  obtain ⟨o, rfl⟩ := length_eq_one_iff.mp (by omega : l.length = 1)
  rw [length_singleton, Nat.lt_one_iff] at hi
  rw [hi]
  rfl

theorem oneCall_enter {t : CheckpointDir} {phase : OpenerPhase} (hone : OneCall s)
    (hopener : s.openers[i]? = some opener) (hopeners : t.openers = s.openers)
    (hw : t.files.length ≤ t.maxRecords) (hc : Counted t.maxRecords t.files opener.key phase) :
    OneCall (t.enter i opener phase) := by
  have honly : t.openers.set i { opener with phase } = [{ opener with phase }] := by
    rw [hopeners]
    exact set_eq_singleton hone.one hopener _
  refine ⟨hw, ?_, ?_⟩
  · show (t.openers.set i _).length ≤ 1
    rw [honly]
    exact Nat.le_refl 1
  · intro o ho
    rw [enter, honly, mem_singleton] at ho
    rw [ho]
    exact hc

theorem oneCall_step (h : s.step e = some s') (hs : OneCall s) : OneCall s' := by
  obtain ⟨opener, ho, hmove⟩ := step_move h
  have hc := hs.counted opener (mem_of_getElem? ho)
  cases hmove with
  | fail result hphase => exact oneCall_enter hs ho rfl hs.within trivial
  | scan now hphase =>
    rw [hphase] at hc
    exact oneCall_enter hs ho rfl hs.within (counted_enforceCap hc now)
  | load candidate hphase hpath =>
    rw [hphase] at hc
    exact oneCall_enter hs ho rfl hs.within (counted_loadRecords hc ..)
  | pass vanished' failures' hphase =>
    rw [hphase] at hc
    exact oneCall_enter hs ho rfl hs.within (counted_reclaimSlots hc ..)
  | @unlink _ _ needed reclaimed _ _ hphase hmem =>
    rw [hphase] at hc
    have hlen := unlink_length opener hmem
    have hr : s.files.length + 1 + reclaimed ≤ s.maxRecords + needed := hc
    refine oneCall_enter hs ho rfl ?_ (counted_reclaimSlots ?_ ..)
    · exact Nat.le_trans (Nat.le_of_succ_le hlen) hs.within
    · show (s.unlink opener _).files.length + 1 + _ ≤ s.maxRecords + _
      omega
  | write hphase =>
    rw [hphase] at hc
    exact oneCall_enter hs ho rfl (Nat.le_trans (replace_length s opener) hc) trivial

/-! ### Where it is not -/

/-- The next step of the opener at `i`, which works. -/
def works (i : Nat) : OpenerStep := { opener := i, answer := .ok (), now := 0 }

/-- The calls go on, one after the other, from `pre.length` on. -/
def eachFrom (n : Nat) (count : Nat) : List OpenerStep := (List.range' n count).map works

def withPhase (phase : OpenerPhase) (opener : CheckpointOpener) : CheckpointOpener :=
  { opener with phase }

theorem step_scan_room (hr : s.files.length + 1 ≤ s.maxRecords) (pre post : List CheckpointOpener)
    (ho : o.phase = .scanning) :
    step { s with openers := pre ++ o :: post } (works pre.length) =
      some { s with openers := pre ++ withPhase .writing o :: post } := by
  simp [step, works, ho, enforceCap_room hr, enter, withPhase]

theorem run_scanAll (hroom : s.files.length + 1 ≤ s.maxRecords) (pre post : List CheckpointOpener)
    (hp : ∀ o ∈ post, o.phase = .scanning) :
    run step { s with openers := pre ++ post } (eachFrom pre.length post.length) =
      some { s with openers := pre ++ post.map (withPhase .writing) } := by
  induction post generalizing pre with
  | nil => simp [eachFrom]
  | cons o post ih =>
    have hs := step_scan_room hroom pre post (hp o (mem_cons_self ..))
    have hrest := ih (pre ++ [withPhase .writing o]) (fun o ho => hp o (mem_cons_of_mem _ ho))
    rw [length_append, append_assoc, append_assoc] at hrest
    exact run_cons.mpr ⟨_, hs, hrest⟩

/-- The file an opener writes. -/
def fileOf (opener : CheckpointOpener) : StoredFile :=
  { key := opener.key, content := .found opener.checkpoint }

theorem replace_new {key : String} {files : List StoredFile} (h : key ∉ files.map (·.key)) :
    files.filter (·.key ≠ key) = files := by
  refine filter_eq_self.mpr fun file hf => ?_
  simpa using fun heq : file.key = key => h (heq ▸ mem_map_of_mem hf)

theorem run_writeAll (pre post behind : List CheckpointOpener) (hp : ∀ o ∈ post, o.phase = .writing)
    (hkeys : (s.files.map (·.key) ++ post.map key).Nodup) :
    ∃ t, run step { s with openers := pre ++ (post ++ behind) } (eachFrom pre.length post.length) =
        some t ∧
      t.files.length = s.files.length + post.length ∧ t.maxRecords = s.maxRecords := by
  induction post generalizing s pre with
  | nil => exact ⟨_, rfl, rfl, rfl⟩
  | cons o post ih =>
    have hnew : o.key ∉ s.files.map (·.key) := by
      intro hmem
      exact (nodup_append.mp hkeys).2.2 o.key hmem o.key (by simp) rfl
    have hs : step { s with openers := pre ++ (o :: post ++ behind) } (works pre.length) =
        some { s with
          files := s.files ++ [fileOf o]
          openers := pre ++ withPhase (.done (.ok ())) o :: (post ++ behind) } := by
      have hf := replace_new hnew
      simp only [decide_not] at hf
      simp [step, works, hp o (mem_cons_self ..), replace, enter, withPhase, hf, fileOf]
    obtain ⟨t, hrun, hlen, hmax⟩ := ih
      (s := { s with files := s.files ++ [fileOf o], openers := [] })
      (pre ++ [withPhase (.done (.ok ())) o]) (fun o ho => hp o (mem_cons_of_mem _ ho))
      (by simpa [fileOf] using hkeys)
    rw [length_append, append_assoc] at hrun
    refine ⟨t, run_cons.mpr ⟨_, hs, hrun⟩, ?_, hmax⟩
    simp only [length_append, length_singleton] at hlen
    rw [length_cons]
    omega

theorem exceeds_of_room (hr : s.files.length + 1 ≤ s.maxRecords)
    (hscanning : ∀ o ∈ s.openers, o.phase = .scanning)
    (hkeys : (s.files.map (·.key) ++ s.openers.map key).Nodup) :
    ∃ steps t, run step s steps = some t ∧
      t.files.length = s.files.length + s.openers.length ∧ t.maxRecords = s.maxRecords := by
  have hscan := run_scanAll hr [] s.openers hscanning
  obtain ⟨t, hw, hlen, hmax⟩ := run_writeAll (s := s) [] (s.openers.map (withPhase .writing)) []
    (by simp [withPhase]) (by rw [map_map]; exact hkeys)
  rw [append_nil] at hw
  exact ⟨_, t, (run_append hscan).trans hw, by simpa using hlen, hmax⟩

theorem run_loads (opener : CheckpointOpener) (rest : List CheckpointOpener) (now evict : Nat)
    (paths : List String) (records : List EvictionCandidate) :
    ∃ records', records'.map (·.path) = records.map (·.path) ++ paths ∧
      run step { s with openers := withPhase (loadRecords now paths records evict) opener :: rest }
        (replicate paths.length (works 0)) =
        some { s with
          openers := withPhase (loadRecords now [] records' evict) opener :: rest } := by
  induction paths generalizing records with
  | nil => exact ⟨records, (append_nil _).symm, rfl⟩
  | cons path paths ih =>
    have hp : (ofLoaded path now (loadFrom s.files path (.ok ()))).path = path := by
      unfold ofLoaded
      split <;> rfl
    obtain ⟨records', hrecs, hrun⟩ :=
      ih (records ++ [.ofLoaded path now (loadFrom s.files path (.ok ()))])
    refine ⟨records', ?_, run_cons.mpr ⟨_, rfl, hrun⟩⟩
    rw [hrecs, map_append, map_singleton, hp, append_assoc]
    rfl

theorem filter_ne_length {files : List StoredFile}
    (hn : (files.map (·.key)).Nodup) (hmem : path ∈ files.map (·.key)) :
    (files.filter (·.key ≠ path)).length + 1 = files.length := by
  have he := length_erase_of_mem hmem
  rw [hn.erase_eq_filter, filter_map, length_map, length_map] at he
  have hpos : 0 < files.length := by
    rw [← length_map]
    exact length_pos_of_mem hmem
  have hs : files.filter (·.key ≠ path) = files.filter ((fun k => k != path) ∘ (·.key)) := by
    refine filter_congr fun f _ => ?_
    rw [Bool.eq_iff_iff]
    simp
  rw [hs]
  omega

theorem step_scan_full (hf : s.files.length = s.maxRecords) (ho : o.phase = .scanning)
    (hnew : o.key ∉ s.files.map (·.key)) (rest : List CheckpointOpener) :
    step { s with openers := o :: rest } (works 0) =
      some { s with
        openers := withPhase (loadRecords 0 (s.files.map (·.key)) [] 1) o :: rest } := by
  have hcap : enforceCap s.maxRecords s.files o.key 0 = loadRecords 0 (s.files.map (·.key))
      [] 1 := by
    unfold enforceCap
    simp only [otherRecords_new hnew, length_map, hf]
    rw [if_neg (by omega), Nat.add_sub_cancel_left]
  simp [step, works, ho, hcap, enter, withPhase]

/-- The directory without `path`, which `o` has deleted. -/
def freed (s : CheckpointDir) (o : CheckpointOpener) (path : String) : CheckpointDir :=
  { s with
    files := s.files.filter (·.key ≠ path)
    deleted := s.deleted ++ [(o.key, path)] }

theorem step_unlink_last (hmem : path ∈ s.files.map (·.key)) (o : CheckpointOpener)
    (paths : List String) (rest : List CheckpointOpener) :
    step { s with openers := withPhase (.reclaiming (path :: paths) 1 0 0 []) o :: rest }
      (works 0) = some { freed s o path with openers := withPhase .writing o :: rest } := by
  have hc : ∃ f ∈ s.files, f.key = path := mem_map.mp hmem
  simp [step, works, withPhase, hc, CheckpointDir.unlink, enter, reclaimSlots, freed,
    key]

theorem run_frees_one (hf : s.files.length = s.maxRecords) (hpos : 1 ≤ s.maxRecords)
    (ho : o.phase = .scanning) (hnew : o.key ∉ s.files.map (·.key)) (rest : List CheckpointOpener) :
    ∃ steps path, path ∈ s.files.map (·.key) ∧ run step { s with openers := o :: rest } steps =
        some { freed s o path with openers := withPhase .writing o :: rest } := by
  have hscan := step_scan_full hf ho hnew rest
  obtain ⟨records, hrecs, hl⟩ := run_loads (s := s) o rest 0 1 (s.files.map (·.key)) []
  rw [map_nil, nil_append] at hrecs
  have hperm := (perm_insertionSort before records).map (·.path)
  rw [hrecs] at hperm
  obtain ⟨path, paths, hsorted⟩ : ∃ path paths,
      (records.insertionSort before).map (·.path) = path :: paths := by
    refine exists_cons_of_length_pos ?_
    rw [hperm.length_eq, length_map]
    omega
  have hmem : path ∈ s.files.map (·.key) := hperm.mem_iff.mp (hsorted ▸ mem_cons_self ..)
  have hreclaim : loadRecords 0 [] records 1 = .reclaiming (path :: paths) 1 0 0 [] := by
    simp [loadRecords, reclaimSlots, hsorted]
  rw [hreclaim] at hl
  refine ⟨works 0 :: (replicate (s.files.map (·.key)).length (works 0) ++ [works 0]),
    path, hmem, ?_⟩
  refine run_cons.mpr ⟨_, hscan, (run_append hl).trans ?_⟩
  exact run_cons.mpr ⟨_, step_unlink_last hmem o paths rest, rfl⟩

theorem exceeds_of_full {a b : CheckpointOpener} (rest : List CheckpointOpener)
    (hfull : s.files.length = s.maxRecords) (hpos : 1 ≤ s.maxRecords)
    (ha : a.phase = .scanning) (hb : b.phase = .scanning)
    (hkeys : (s.files.map (·.key) ++ [a.key, b.key]).Nodup) :
    ∃ steps t, run step { s with openers := a :: b :: rest } steps = some t ∧
      t.files.length = s.files.length + 1 ∧ t.maxRecords = s.maxRecords := by
  obtain ⟨hnd, -, hd⟩ := nodup_append.mp hkeys
  have hnew : a.key ∉ s.files.map (·.key) := fun hmem => hd _ hmem _ (by simp) rfl
  obtain ⟨steps, path, hmem, hfrees⟩ := run_frees_one hfull hpos ha hnew (b :: rest)
  have hlen : (freed s a path).files.length + 1 = s.files.length := filter_ne_length hnd hmem
  have hr : (freed s a path).files.length + 1 ≤ (freed s a path).maxRecords := by
    rw [hlen, hfull]
    exact Nat.le_refl _
  have hs := step_scan_room hr [withPhase .writing a] rest hb
  obtain ⟨t, hw, hc, hmax⟩ := run_writeAll (s := freed s a path) []
    [withPhase .writing a, withPhase .writing b] rest (by simp [withPhase])
    (hkeys.sublist ((filter_sublist.map _).append_right _))
  refine ⟨steps ++ works 1 :: eachFrom 0 2, t, (run_append hfrees).trans ?_, ?_, hmax⟩
  · exact run_cons.mpr ⟨_, hs, hw⟩
  · rw [hc, ← hlen]
    rfl

/-! ### The cap -/

/-- The directory is within its cap, and no call has deleted the record it opens. -/
def CapKept (s : CheckpointDir) : Prop :=
  s.files.length ≤ s.maxRecords ∧ ∀ d ∈ s.deleted, d.1 ≠ d.2

section Start

variable {maxRecords : Nat} {files : List StoredFile} {fresh : List MultipartCheckpoint}

theorem start_scanning : ∀ o ∈ (start maxRecords files fresh).openers, o.phase = .scanning := by
  intro o ho
  obtain ⟨checkpoint, -, rfl⟩ := mem_map.mp ho
  rfl

variable (hkeys : (files.map (·.key) ++ fresh.map (·.identity.transferKey)).Nodup)
include hkeys

theorem start_nodup : ((start maxRecords files fresh).files.map (·.key) ++
      (start maxRecords files fresh).openers.map key).Nodup := by
  rw [start, map_map]
  exact hkeys

theorem start_exceeds (hw : files.length ≤ max maxRecords 1) (hmany : 1 < fresh.length)
    (hf : max maxRecords 1 < files.length + fresh.length) :
    ∃ steps t, run step (start maxRecords files fresh) steps = some t ∧
      t.maxRecords < t.files.length := by
  by_cases hroom : files.length + 1 ≤ max maxRecords 1
  · obtain ⟨steps, t, hrun, hc, hmax⟩ :=
      exceeds_of_room (s := start maxRecords files fresh) hroom start_scanning (start_nodup hkeys)
    refine ⟨steps, t, hrun, ?_⟩
    rw [hc, hmax]
    simp only [start, length_map]
    omega
  · obtain ⟨a, b, rest, rfl⟩ : ∃ a b rest, fresh = a :: b :: rest :=
      match fresh, hmany with
      | [_], hmany => absurd hmany (Nat.lt_irrefl 1)
      | a :: b :: rest, _ => ⟨a, b, rest, rfl⟩
    have hsub : (files.map (·.key) ++ [a.identity.transferKey, b.identity.transferKey]).Nodup := by
      refine hkeys.sublist (List.Sublist.append_left ?_ _)
      simp
    obtain ⟨steps, t, hrun, hc, hmax⟩ := exceeds_of_full
      (s := start maxRecords files []) (a := ⟨a, .scanning⟩) (b := ⟨b, .scanning⟩)
      (rest.map fun checkpoint => { checkpoint, phase := .scanning })
      (by simp only [start]; omega) (by simp only [start]; omega) rfl rfl hsub
    refine ⟨steps, t, hrun, ?_⟩
    rw [hc, hmax]
    simp only [start]
    omega

theorem start_within (hw : files.length ≤ max maxRecords 1)
    (hc : fresh.length ≤ 1 ∨ files.length + fresh.length ≤ max maxRecords 1)
    {steps : List OpenerStep} (hrun : run step (start maxRecords files fresh) steps = some s) :
    s.files.length ≤ s.maxRecords := by
  rcases hc with hone | hroom
  · have h := run_invariant (P := OneCall) (fun _ _ _ => oneCall_step) hrun ?_
    · exact h.within
    · refine ⟨hw, by simpa [start] using hone, ?_⟩
      intro o ho
      rw [start_scanning o ho]
      intro hmem
      exact (nodup_append.mp (start_nodup hkeys)).2.2 _ hmem _ (mem_map_of_mem ho) rfl
  · have h := run_invariant (P := Roomy) (fun _ _ _ => roomy_step) hrun ?_
    · exact Nat.le_trans (Nat.le_add_right ..) h.1
    · refine ⟨?_, fun o ho => .inl (start_scanning o ho)⟩
      refine Nat.le_trans (Nat.add_le_add_left countP_le_length _) ?_
      simpa [start] using hroom

end Start

/-- **The cap is kept exactly by one call at a time, or with room for all.**  For every
directory within its cap and any calls for distinct new keys, every interleaving keeps the
cap if and only if there is one call at most, or the directory has a slot for each. -/
theorem capKept_iff
    (hwithin : files.length ≤ max maxRecords 1)
    (hkeys : (files.map (·.key) ++ fresh.map (·.identity.transferKey)).Nodup) :
    (∀ steps s, Runs.run step (start maxRecords files fresh) steps = some s → CapKept s) ↔
      fresh.length ≤ 1 ∨ files.length + fresh.length ≤ max maxRecords 1 := by
  constructor
  · intro h
    by_contra hnot
    obtain ⟨steps, t, hrun, hpast⟩ := start_exceeds hkeys hwithin (by omega) (by omega)
    exact absurd (h steps t hrun).1 (Nat.not_le_of_lt hpast)
  · intro hcond steps s hrun
    have hself := run_invariant (fun _ _ _ => selfSparing_step) hrun
      (selfSparing_start maxRecords files fresh)
    exact ⟨start_within hkeys hwithin hcond hrun, hself.2⟩

/-- A fresh record under this key. -/
def freshUnder (key : String) : MultipartCheckpoint :=
  MultipartCheckpoint.fresh
    { transferKey := key
      source := { localPath := "/a", size := 10, modifiedUnixNanos := none }
      destination :=
        { provider := "s3", protocol := "https", host := "h", account := "a", remotePath := "/a" }
      layout := { totalSize := 10, totalParts := 1, preferredPartSize := 10 } } 0

theorem capKept_fullStore :
    [freshUnder "new"].length ≤ 1 ∧
      ∀ steps s, Runs.run step (start 1 [⟨"old", .corrupt "eof"⟩] [freshUnder "new"]) steps
        = some s → CapKept s :=
  ⟨by decide, (capKept_iff 1 [⟨"old", .corrupt "eof"⟩] [freshUnder "new"] (by decide)
    (by decide)).mpr (.inl (by decide))⟩

/-- A store of one slot that is taken, and two calls.  The first deletes the old record; the
second scans an empty directory; both write. -/
theorem freedSlot_takenTwice :
    ∃ s, Runs.run step (start 1 [⟨"old", .corrupt "eof"⟩] [freshUnder "a", freshUnder "b"])
        [works 0, works 0, works 0, works 1, works 0, works 1] = some s ∧
      s.files.map (·.key) = ["a", "b"] ∧ s.maxRecords = 1 ∧ ¬ CapKept s := by
  have hends : (run step (start 1 [⟨"old", .corrupt "eof"⟩] [freshUnder "a", freshUnder "b"])
      [works 0, works 0, works 0, works 1, works 0, works 1]).map
        (fun s => (s.files.map (·.key), s.maxRecords)) = some (["a", "b"], 1) := by
    decide +kernel
  obtain ⟨s, hs, hleft⟩ := Option.map_eq_some_iff.mp hends
  obtain ⟨hfiles, hmax⟩ := Prod.mk.inj hleft
  refine ⟨s, hs, hfiles, hmax, ?_⟩
  intro h
  have hlength := congrArg length hfiles
  rw [length_map] at hlength
  have := h.1
  rw [hmax, hlength] at this
  exact absurd this (by decide)

end CheckpointDir

end AeroFtp.Dag
