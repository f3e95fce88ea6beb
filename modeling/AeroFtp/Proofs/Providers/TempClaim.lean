/-
Two downloads never write or remove each other's temporary.

Whoever has taken the lock of a file and then found the name pointing at it keeps the name:
to remove it another caller would have to lock the same file first.  That is the invariant,
for holders and for removers alike; the rest says whose lock is whose, that inode numbers tell
apart the files they are compared on, and that a leftover link is removed under the lock of
the folder only.

What takes no lock breaks it.  A special file at the name, a FIFO say, is removed by its name,
and between the look and the removal another caller may have removed it and a third one have
made its temporary there.
-/
import AeroFtp.Lib.Runs
import AeroFtp.Providers.TempClaim

namespace AeroFtp.Providers.TempClaim

open Runs Pc Function

variable {n : Nat} {folderLocks : Bool} {s t : State n} {c : Fin n}

/-! ### What a caller has, by where it is -/

namespace Pc

/-- The file whose lock it has. -/
def locked : Pc → Option FileId
  | .checking f | .refused f | .holding f | .finished f
  | .probeLocked f _ | .probeSame f _ | .probeDone f _ _ => some f
  | _ => none

/-- The file it has found at the name since it has its lock. -/
def sure : Pc → Option FileId
  | .holding f | .probeSame f _ => some f
  | _ => none

/-- It has the lock of the folder, where that is taken. -/
def inFolder : Pc → Bool
  | .linkLocked _ | .linkSeen _ | .linkDone _ _ => true
  | _ => false

/-- It has found a link at the name since. -/
def seesLink : Pc → Bool
  | .linkSeen _ => true
  | _ => false

/-- The claim that was returned to it and not yet released. -/
def claim : Pc → Option FileId
  | .holding f | .finished f => some f
  | _ => none

/-- It is about to remove nothing. -/
structure Harmless (pc : Pc) : Prop where
  sure : pc.sure = none
  seesLink : pc.seesLink = false
  ne_removing : pc ≠ .removing

/-- It has nothing. -/
structure Plain (pc : Pc) : Prop extends pc.Harmless where
  openFile : pc.openFile = none
  locked : pc.locked = none
  inFolder : pc.inFolder = false

variable {pc : Pc} {f : FileId}

theorem openFile_of_locked (h : pc.locked = some f) : pc.openFile = some f := by
  cases pc <;> first | exact h | cases h

theorem locked_of_sure (h : pc.sure = some f) : pc.locked = some f := by
  cases pc <;> first | exact h | cases h

theorem locked_of_claim (h : pc.claim = some f) : pc.locked = some f := by
  cases pc <;> first | exact h | cases h

theorem inFolder_of_seesLink (h : pc.seesLink = true) : pc.inFolder = true := by
  cases pc <;> first | rfl | cases h

theorem plain_idle : Plain .idle := ⟨⟨rfl, rfl, by decide⟩, rfl, rfl, rfl⟩

theorem plain_afterProbe (ret : Ret) (found : Found) : Plain (afterProbe ret found) := by
  cases ret <;> cases found <;> exact ⟨⟨rfl, rfl, by simp [afterProbe]⟩, rfl, rfl, rfl⟩

theorem plain_first (op : Op) : Plain op.first := by
  cases op <;> exact ⟨⟨rfl, rfl, by simp [Op.first]⟩, rfl, rfl, rfl⟩

theorem plain_nameTaken (probed : Bool) : Plain (nameTaken probed) := by
  cases probed <;> exact ⟨⟨rfl, rfl, by simp [nameTaken]⟩, rfl, rfl, rfl⟩

end Pc

/-! ### What a step can do -/

/-- Where a caller may go on, by what it has open and what is at the name. -/
structure Pc.Fits (s : State n) (c : Fin n) (pc : Pc) : Prop where
  openFile : ∀ f, pc.openFile = some f → (s.pc c).openFile = some f ∨ s.name = some (.file f)
  sure : ∀ f, pc.sure = some f → s.sameFile f = true
  seesLink : pc.seesLink = true → s.name = some .link
  removing : pc = .removing → s.name = some .folder ∨ ∃ f, s.name = some (.file f) ∧
    s.kind f = .special

variable {pc : Pc}

theorem Pc.Harmless.fits (hpc : pc.Harmless)
    (ho : ∀ f, pc.openFile = some f → (s.pc c).openFile = some f ∨ s.name = some (.file f)) :
    pc.Fits s c := by
  refine ⟨ho, fun f h => ?_, fun h => ?_, fun h => absurd h hpc.ne_removing⟩
  · rw [hpc.sure] at h; cases h
  · rw [hpc.seesLink] at h; cases h

theorem Pc.Plain.fits (hpc : pc.Plain) : pc.Fits s c := by
  refine hpc.toHarmless.fits fun f h => ?_
  rw [hpc.openFile] at h
  cases h

/-- All that a step of a caller can be, by what it does to what the callers share. -/
inductive Move (folderLocks : Bool) (s : State n) (c : Fin n) : State n → Prop
  /-- The caller looks, opens or checks. -/
  | goto (pc : Pc) (hlocked : pc.locked = (s.pc c).locked)
      (hfolder : folderLocks = true → pc.inFolder = (s.pc c).inFolder)
      (hfits : pc.Fits s c) : Move folderLocks s c (s.goto c pc)
  /-- It makes the file. -/
  | make (number : Nat) (hname : s.name = none) (hfree : s.numberFree number = true)
      (hpc : (s.pc c).Plain) : Move folderLocks s c ((s.makeFile number).goto c (.claiming s.next))
  /-- It takes the lock of the file it has open. -/
  | lock (f : FileId) (pc : Pc) (hopen : (s.pc c).openFile = some f) (hfree : s.lock f = none)
      (hnone : (s.pc c).locked = none) (hfolder : (s.pc c).inFolder = false)
      (hopen' : pc.openFile = some f) (hlocked : pc.locked = some f)
        (hfolder' : pc.inFolder = false)
      (hpc : pc.Harmless) : Move folderLocks s c ((s.setLock f (some c)).goto c pc)
  /-- It releases the lock and closes the file. -/
  | release (f : FileId) (pc : Pc) (hlocked : (s.pc c).locked = some f)
      (hfolder : (s.pc c).inFolder = false) (hpc : pc.Plain) :
      Move folderLocks s c ((s.setLock f none).goto c pc)
  /-- It removes what is at the name, or renames it. -/
  | remove (pc : Pc) (dest : Option Node)
      (hwhy : (s.pc c).sure.isSome = true ∨ (s.pc c).seesLink = true ∨ s.pc c = .removing)
      (hnotFolder : s.name ≠ some .folder)
      (hopen : ∀ f, pc.openFile = some f → (s.pc c).openFile = some f)
      (hlocked : pc.locked = (s.pc c).locked) (hfolder : pc.inFolder = (s.pc c).inFolder)
      (hpc : pc.Harmless) : Move folderLocks s c ({ s with name := none, dest }.goto c pc)
  /-- It takes or releases the lock of the folder. -/
  | folder (pc : Pc) (owner : Option (Fin n)) (hlocked : pc.locked = (s.pc c).locked)
      (hopen : pc.openFile = none) (hpc : pc.Harmless)
      (hself : owner = some c ↔ pc.inFolder = true)
      (hother : ∀ d, d ≠ c → (owner = some d ↔ s.folderLock = some d)) :
      Move folderLocks s c ({ s with folderLock := owner }.goto c pc)
  /-- Its process ends. -/
  | crash : Move folderLocks s c (TempClaim.crash s c)

theorem removeFile_eq_some_iff : s.removeFile = some t ↔
    s.name ≠ none ∧ s.name ≠ some .folder ∧ t = { s with name := none } := by
  unfold State.removeFile
  cases hn : s.name with
  | none => simp
  | some node => cases node <;> simp [eq_comm]

namespace Move

variable {old pc : Pc} {f : FileId}

theorem to_plain (hold : s.pc c = old) (hl : old.locked = none) (hf : old.inFolder = false)
    (hpc : pc.Plain) : Move folderLocks s c (s.goto c pc) := by
  subst hold
  exact .goto pc (hpc.locked.trans hl.symm) (fun _ => hpc.inFolder.trans hf.symm) hpc.fits

variable (hold : s.pc c = old)
include hold

theorem keeps (hopen : pc.openFile = old.openFile)
    (hl : pc.locked = old.locked) (hf : pc.inFolder = old.inFolder) (hpc : pc.Harmless) :
    Move folderLocks s c (s.goto c pc) := by
  subst hold
  exact .goto pc hl (fun _ => hf) (hpc.fits fun g hg => .inl (hopen.symm.trans hg))

theorem opens (hn : s.name = some (.file f)) (hopen : pc.openFile = some f)
    (hl : pc.locked = old.locked) (hf : pc.inFolder = old.inFolder) (hpc : pc.Harmless) :
    Move folderLocks s c (s.goto c pc) := by
  subst hold
  refine .goto pc hl (fun _ => hf) (hpc.fits fun g hg => .inr ?_)
  rw [hopen] at hg
  cases hg
  exact hn

theorem finds (hsame : s.sameFile f = true) (hsure : pc.sure = some f)
    (hopen : pc.openFile = old.openFile) (hl : pc.locked = old.locked)
    (hf : pc.inFolder = old.inFolder) (hsees : pc.seesLink = false) (hr : pc ≠ .removing) :
    Move folderLocks s c (s.goto c pc) := by
  subst hold
  refine .goto pc hl (fun _ => hf)
    ⟨fun g hg => .inl (hopen.symm.trans hg), fun g hg => ?_, fun h => ?_, fun h => absurd h hr⟩
  · rw [hsure] at hg
    cases hg
    exact hsame
  · rw [hsees] at h
    cases h

theorem removes (ht : s.removeFile = some t)
    (hwhy : old.sure.isSome = true ∨ old.seesLink = true ∨ old = .removing)
    (hopen : pc.openFile = old.openFile) (hl : pc.locked = old.locked)
    (hf : pc.inFolder = old.inFolder) (hpc : pc.Harmless) : Move folderLocks s c (t.goto c pc) := by
  subst hold
  obtain ⟨_, hn, rfl⟩ := removeFile_eq_some_iff.mp ht
  exact .remove pc s.dest hwhy hn (fun g hg => hopen.symm.trans hg) hl hf hpc

end Move

/-- What a caller's step comes to, if it can be taken, is one of the moves. -/
inductive Moves (folderLocks : Bool) (s : State n) (c : Fin n) : Option (State n) → Prop
  | none : Moves folderLocks s c none
  | some {t : State n} (h : Move folderLocks s c t) : Moves folderLocks s c (some t)

section Inversion

variable {f : FileId} {ret : Ret} {found : Found} (choice : Choice)

theorem stepIdle_moves (hpc : s.pc c = .idle) : Moves folderLocks s c (stepIdle s c choice) := by
  cases choice with
  | start op => exact .some (.to_plain hpc rfl rfl (plain_first op))
  | _ => exact .none

theorem stepCreating_moves {probed : Bool} (hpc : s.pc c = .creating probed) :
    Moves folderLocks s c (stepCreating s c probed choice) := by
  cases choice with
  | made number =>
    rw [stepCreating]
    cases hn : s.name with
    | none =>
      by_cases hf : s.numberFree number = true
      · simp only [if_pos hf]
        refine .some (.make number hn hf ?_)
        rw [hpc]
        exact ⟨⟨rfl, rfl, nofun⟩, rfl, rfl, rfl⟩
      · simp only [if_neg hf]
        exact .none
    | some node => exact .none
  | go =>
    rw [stepCreating]
    cases hn : s.name with
    | none => exact .none
    | some node => exact .some (.to_plain hpc rfl rfl (plain_nameTaken probed))
  | fail => exact .some (.to_plain hpc rfl rfl plain_idle)
  | _ => exact .none

theorem stepOpening_moves (hpc : s.pc c = .opening) :
    Moves folderLocks s c (stepOpening s c choice) := by
  cases choice with
  | go =>
    rw [stepOpening]
    split
    case h_1 f hn => exact .some (.opens hpc hn rfl rfl rfl ⟨rfl, rfl, nofun⟩)
    case h_2 => exact .some (.to_plain hpc rfl rfl plain_idle)
  | fail => exact .some (.to_plain hpc rfl rfl plain_idle)
  | _ => exact .none

theorem stepClaiming_moves (hpc : s.pc c = .claiming f) :
    Moves folderLocks s c (stepClaiming s c f choice) := by
  cases choice with
  | go =>
    rw [stepClaiming]
    cases hl : s.lock f with
    | none =>
      exact .some (.lock f _ (by rw [hpc]; rfl) hl (by rw [hpc]; rfl) (by rw [hpc]; rfl) rfl rfl rfl
        ⟨rfl, rfl, nofun⟩)
    | some owner => exact .some (.to_plain hpc rfl rfl plain_idle)
  | _ => exact .none

theorem stepChecking_moves (hpc : s.pc c = .checking f) :
    Moves folderLocks s c (stepChecking s c f choice) := by
  cases choice with
  | go =>
    refine .some ?_
    by_cases hs : s.sameFile f = true
    · rw [if_pos hs]
      exact .finds hpc hs rfl rfl rfl rfl rfl nofun
    · rw [if_neg hs]
      exact .keeps hpc rfl rfl rfl ⟨rfl, rfl, nofun⟩
  | fail => exact .some (.keeps hpc rfl rfl rfl ⟨rfl, rfl, nofun⟩)
  | _ => exact .none

theorem stepHolding_moves (hpc : s.pc c = .holding f) (hname : s.name ≠ some .folder) :
    Moves folderLocks s c (stepHolding s c f choice) := by
  cases choice with
  | rename =>
    rw [stepHolding]
    cases hnode : s.name with
    | none => exact .none
    | some node =>
      exact .some (.remove _ (some node) (.inl (by rw [hpc]; rfl)) hname
        (fun g hg => by rw [hpc]; exact hg) (by rw [hpc]; rfl) (by rw [hpc]; rfl) ⟨rfl, rfl, nofun⟩)
  | unlink =>
    rw [stepHolding]
    cases hu : s.removeFile with
    | none => exact .none
    | some u => exact .some (.removes hpc hu (.inl rfl) rfl rfl rfl ⟨rfl, rfl, nofun⟩)
  | keep => exact .some (.keeps hpc rfl rfl rfl ⟨rfl, rfl, nofun⟩)
  | _ => exact .none

theorem stepRelease_moves (hl : (s.pc c).locked = some f) (hf : (s.pc c).inFolder = false)
    (hpc : pc.Plain) : Moves folderLocks s c (stepRelease s c f pc choice) := by
  cases choice with
  | go => exact .some (.release f pc hl hf hpc)
  | _ => exact .none

theorem afterUnknown_move (hpc : s.pc c = .looking ret)
    (hn : s.name = some .folder ∨ ∃ f, s.name = some (.file f) ∧ s.kind f = .special) :
    Move folderLocks s c (s.goto c (afterUnknown ret)) := by
  cases ret with
  | createWith => exact .to_plain hpc rfl rfl plain_idle
  | removeUnlessLive =>
    exact .goto _ (by rw [hpc]; rfl) (fun _ => by rw [hpc]; rfl) ⟨nofun, nofun, nofun, fun _ => hn⟩

theorem stepLooking_moves (hpc : s.pc c = .looking ret) :
    Moves folderLocks s c (stepLooking s c ret choice) := by
  cases choice with
  | go =>
    rw [stepLooking]
    split
    case h_1 => exact .some (.to_plain hpc rfl rfl (plain_afterProbe ret .gone))
    case h_2 => exact .some (.keeps hpc rfl rfl rfl ⟨rfl, rfl, nofun⟩)
    case h_3 hn => exact .some (afterUnknown_move hpc (.inl hn))
    case h_4 f hn =>
      split
      case h_1 => exact .some (.keeps hpc rfl rfl rfl ⟨rfl, rfl, nofun⟩)
      case h_2 hk => exact .some (afterUnknown_move hpc (.inr ⟨f, hn, hk⟩))
  | fail => exact .some (.to_plain hpc rfl rfl (plain_afterProbe ret .failed))
  | _ => exact .none

theorem stepLinkFound_moves (hpc : s.pc c = .linkFound ret) :
    Moves folderLocks s c (stepLinkFound folderLocks s c ret choice) := by
  cases choice with
  | go =>
    rw [stepLinkFound]
    by_cases hl : folderLocks = true
    · rw [if_pos hl]
      cases hf : s.folderLock with
      | some owner => exact .none
      | none =>
        refine .some (.folder _ (some c) (by rw [hpc]; rfl) rfl ⟨rfl, rfl, nofun⟩
          (by simp [inFolder]) fun d hd => ?_)
        rw [hf]
        simp [Ne.symm hd]
    · rw [if_neg hl]
      exact .some (.goto _ (by rw [hpc]; rfl) (fun h => absurd h hl) ⟨nofun, nofun, nofun, nofun⟩)
  | _ => exact .none

theorem stepLinkLocked_moves (hpc : s.pc c = .linkLocked ret) :
    Moves folderLocks s c (stepLinkLocked s c ret choice) := by
  cases choice with
  | go =>
    refine .some ?_
    by_cases hl : s.name = some .link
    · rw [if_pos hl]
      exact .goto _ (by rw [hpc]; rfl) (fun _ => by rw [hpc]; rfl)
        ⟨nofun, nofun, fun _ => hl, nofun⟩
    · rw [if_neg hl]
      exact .keeps hpc rfl rfl rfl ⟨rfl, rfl, nofun⟩
  | fail => exact .some (.keeps hpc rfl rfl rfl ⟨rfl, rfl, nofun⟩)
  | _ => exact .none

theorem stepLinkSeen_moves (hpc : s.pc c = .linkSeen ret) :
    Moves folderLocks s c (stepLinkSeen s c ret choice) := by
  cases choice with
  | go =>
    rw [stepLinkSeen]
    cases hr : s.removeFile with
    | none => exact .some (.keeps hpc rfl rfl rfl ⟨rfl, rfl, nofun⟩)
    | some u => exact .some (.removes hpc hr (.inr (.inl rfl)) rfl rfl rfl ⟨rfl, rfl, nofun⟩)
  | fail => exact .some (.keeps hpc rfl rfl rfl ⟨rfl, rfl, nofun⟩)
  | _ => exact .none

theorem stepLinkDone_moves (hpc : s.pc c = .linkDone ret found) :
    Moves folderLocks s c (stepLinkDone s c ret found choice) := by
  have hplain := plain_afterProbe ret found
  cases choice with
  | go =>
    refine .some (.folder _ _ (by rw [hpc]; exact hplain.locked) hplain.openFile hplain.toHarmless
      ?_ fun d hd => ?_)
    · rw [hplain.inFolder]
      by_cases hown : s.folderLock = some c <;> simp [hown]
    · by_cases hown : s.folderLock = some c <;> simp [hown, Ne.symm hd]
  | _ => exact .none

theorem stepProbing_moves (hpc : s.pc c = .probing ret) :
    Moves folderLocks s c (stepProbing s c ret choice) := by
  have hb (found : Found) : Move folderLocks s c (s.goto c (afterProbe ret found)) :=
    .to_plain hpc rfl rfl (plain_afterProbe ret found)
  cases choice with
  | go =>
    rw [stepProbing]
    split
    case h_1 f hn => exact .some (.opens hpc hn rfl rfl rfl ⟨rfl, rfl, nofun⟩)
    case h_2 => exact .some (hb _)
    case h_3 => exact .some (hb _)
  | fail => exact .some (hb _)
  | _ => exact .none

theorem stepProbed_moves (hpc : s.pc c = .probed f ret) :
    Moves folderLocks s c (stepProbed s c f ret choice) := by
  cases choice with
  | go =>
    rw [stepProbed]
    cases hl : s.lock f with
    | none =>
      exact .some (.lock f _ (by rw [hpc]; rfl) hl (by rw [hpc]; rfl) (by rw [hpc]; rfl) rfl rfl rfl
        ⟨rfl, rfl, nofun⟩)
    | some owner => exact .some (.to_plain hpc rfl rfl (plain_afterProbe ret .live))
  | _ => exact .none

theorem stepProbeLocked_moves (hpc : s.pc c = .probeLocked f ret) :
    Moves folderLocks s c (stepProbeLocked s c f ret choice) := by
  cases choice with
  | go =>
    refine .some ?_
    by_cases hs : s.sameFile f = true
    · rw [if_pos hs]
      exact .finds hpc hs rfl rfl rfl rfl rfl nofun
    · rw [if_neg hs]
      exact .keeps hpc rfl rfl rfl ⟨rfl, rfl, nofun⟩
  | fail => exact .some (.keeps hpc rfl rfl rfl ⟨rfl, rfl, nofun⟩)
  | _ => exact .none

theorem stepProbeSame_moves (hpc : s.pc c = .probeSame f ret) :
    Moves folderLocks s c (stepProbeSame s c f ret choice) := by
  cases choice with
  | go =>
    rw [stepProbeSame]
    cases hr : s.removeFile with
    | none => exact .some (.keeps hpc rfl rfl rfl ⟨rfl, rfl, nofun⟩)
    | some u => exact .some (.removes hpc hr (.inl rfl) rfl rfl rfl ⟨rfl, rfl, nofun⟩)
  | fail => exact .some (.keeps hpc rfl rfl rfl ⟨rfl, rfl, nofun⟩)
  | _ => exact .none

theorem stepRemoving_moves (hpc : s.pc c = .removing) :
    Moves folderLocks s c (stepRemoving s c choice) := by
  cases choice with
  | go =>
    rw [stepRemoving]
    cases hr : s.removeFile with
    | none => exact .some (.to_plain hpc rfl rfl plain_idle)
    | some u => exact .some (.removes hpc hr (.inr (.inr rfl)) rfl rfl rfl plain_idle.toHarmless)
  | fail => exact .some (.to_plain hpc rfl rfl plain_idle)
  | _ => exact .none

theorem stepAt_moves (hh : ∀ f, s.pc c = .holding f → s.name ≠ some .folder) :
    Moves folderLocks s c (stepAt folderLocks s c (s.pc c) choice) := by
  cases hpc : s.pc c with
  | idle => exact stepIdle_moves choice hpc
  | creating => exact stepCreating_moves choice hpc
  | opening => exact stepOpening_moves choice hpc
  | claiming => exact stepClaiming_moves choice hpc
  | checking => exact stepChecking_moves choice hpc
  | refused | finished =>
    exact stepRelease_moves choice (by rw [hpc]; rfl) (by rw [hpc]; rfl) plain_idle
  | holding f => exact stepHolding_moves choice hpc (hh f hpc)
  | looking => exact stepLooking_moves choice hpc
  | linkFound => exact stepLinkFound_moves choice hpc
  | linkLocked => exact stepLinkLocked_moves choice hpc
  | linkSeen => exact stepLinkSeen_moves choice hpc
  | linkDone => exact stepLinkDone_moves choice hpc
  | probing => exact stepProbing_moves choice hpc
  | probed => exact stepProbed_moves choice hpc
  | probeLocked => exact stepProbeLocked_moves choice hpc
  | probeSame => exact stepProbeSame_moves choice hpc
  | probeDone _ ret found =>
    exact stepRelease_moves choice (by rw [hpc]; rfl) (by rw [hpc]; rfl)
      (plain_afterProbe ret found)
  | removing => exact stepRemoving_moves choice hpc

end Inversion

variable {event : Fin n × Choice}

/-- **Every step is one of the moves.** -/
theorem step_move (hh : ∀ f, s.pc event.1 = .holding f → s.name ≠ some .folder)
    (h : step folderLocks s event = some t) : Move folderLocks s event.1 t := by
  obtain ⟨c, choice⟩ := event
  by_cases hc : choice = .crash
  · subst hc
    cases h
    exact .crash
  have hs : stepAt folderLocks s c (s.pc c) choice = some t := by
    cases choice <;> first | exact h | exact absurd rfl hc
  have hmoves : Moves folderLocks s c _ := stepAt_moves choice hh
  rw [hs] at hmoves
  cases hmoves with
  | some hmove => exact hmove

/-! ### The invariant -/

/-- A file that is at the name, or open. -/
def State.Live (s : State n) (f : FileId) : Prop :=
  s.name = some (.file f) ∨ ∃ c, (s.pc c).openFile = some f

structure Inv (folderLocks : Bool) (s : State n) : Prop where
  lock_iff : ∀ c f, s.lock f = some c ↔ (s.pc c).locked = some f
  /-- Who has the lock of a file and has found it at the name keeps it there. -/
  sure : ∀ c f, (s.pc c).sure = some f → s.name = some (.file f)
  folder_iff : folderLocks = true → ∀ c, s.folderLock = some c ↔ (s.pc c).inFolder = true
  /-- A leftover link is there only where it is removed under the lock of the folder. -/
  noLink : folderLocks = false → s.name ≠ some .link
  seen : ∀ c, (s.pc c).seesLink = true → s.name = some .link
  /-- What is to be removed by its name is a folder, which is no file to be removed. -/
  byName : ∀ c, s.pc c = .removing → s.name = some .folder
  regular : ∀ f, s.name = some (.file f) → s.kind f = .regular
  lt_next : ∀ f, s.Live f → f < s.next
  number_inj : ∀ f g, s.Live f → s.Live g → s.number f = s.number g → f = g

@[simp] theorem goto_pc_self (s : State n) (c : Fin n) (pc : Pc) : (s.goto c pc).pc c = pc :=
  update_self ..

theorem goto_pc_ne (s : State n) {c d : Fin n} (pc : Pc) (h : d ≠ c) :
    (s.goto c pc).pc d = s.pc d :=
  update_of_ne h ..

@[elab_as_elim]
theorem goto_cases {P : Fin n → Pc → Prop} (s : State n) (c : Fin n) (pc : Pc) (d : Fin n)
    (hs : P c pc) (ho : d ≠ c → P d (s.pc d)) : P d ((s.goto c pc).pc d) := by
  by_cases h : d = c
  · subst h
    rw [goto_pc_self]
    exact hs
  · rw [goto_pc_ne s pc h]
    exact ho h

theorem Pc.Fits.live {f : FileId} (hf : pc.Fits s c) (h : pc.openFile = some f) : s.Live f := by
  rcases hf.openFile f h with h | h
  · exact .inr ⟨c, h⟩
  · exact .inl h

theorem live_goto {f : FileId} (hf : pc.Fits s c) (h : (s.goto c pc).Live f) : s.Live f := by
  rcases h with h | ⟨d, hd⟩
  · exact .inl h
  · revert hd
    exact goto_cases s c pc d hf.live fun _ h => .inr ⟨d, h⟩

namespace Inv

theorem live_of_locked {f : FileId} (h : (s.pc c).locked = some f) : s.Live f :=
  .inr ⟨c, openFile_of_locked h⟩

theorem name_of_sameFile (inv : Inv folderLocks s) {f : FileId} (hl : s.Live f)
    (h : s.sameFile f = true) : s.name = some (.file f) := by
  unfold State.sameFile at h
  split at h
  case h_1 g hn =>
    rw [beq_iff_eq] at h
    rw [hn, inv.number_inj g f (.inl hn) hl h]
  case h_2 => cases h

theorem locked_unique (inv : Inv folderLocks s) {d : Fin n} {f : FileId}
    (hc : (s.pc c).locked = some f) (hd : (s.pc d).locked = some f) : c = d := by
  have h := (inv.lock_iff c f).mpr hc
  rw [(inv.lock_iff d f).mpr hd] at h
  exact (Option.some.inj h).symm

/-- What a caller may remove or rename, by the reason it has: a file whose lock it has, or a
leftover link under the lock of the folder. -/
theorem name_of_remove (inv : Inv folderLocks s)
    (hwhy : (s.pc c).sure.isSome = true ∨ (s.pc c).seesLink = true ∨ s.pc c = .removing)
    (hnotFolder : s.name ≠ some .folder) :
    (∃ f, s.name = some (.file f) ∧ (s.pc c).locked = some f) ∨
      s.name = some .link ∧ s.folderLock = some c := by
  rcases hwhy with h | h | h
  · obtain ⟨f, hf⟩ := Option.isSome_iff_exists.mp h
    exact .inl ⟨f, inv.sure c f hf, locked_of_sure hf⟩
  · have hname := inv.seen c h
    cases hl : folderLocks with
    | false => exact absurd hname (inv.noLink hl)
    | true => exact .inr ⟨hname, (inv.folder_iff hl c).mpr (inFolder_of_seesLink h)⟩
  · exact absurd (inv.byName c h) hnotFolder

/-- A file that is live behind a create is the new one, or was open before under another
number. -/
theorem live_makeFile (inv : Inv folderLocks s) {number : Nat} (hfree : s.numberFree number = true)
    {f : FileId} (h : ((s.makeFile number).goto c (.claiming s.next)).Live f) :
    f = s.next ∨ f < s.next ∧ s.number f ≠ number ∧ s.Live f := by
  rcases h with h | ⟨d, hd⟩
  · cases h
    exact .inl rfl
  revert hd
  refine goto_cases _ c _ d (fun h => ?_) (fun _ h => ?_)
  · cases h
    exact .inl rfl
  have h : (s.pc d).openFile = some f := h
  have hold : s.Live f := .inr ⟨d, h⟩
  refine .inr ⟨inv.lt_next f hold, ?_, hold⟩
  unfold State.numberFree at hfree
  rw [Bool.and_eq_true, List.all_eq_true] at hfree
  have hd := hfree.2 d (List.mem_finRange d)
  rw [h] at hd
  simpa using hd

theorem move_make (inv : Inv folderLocks s) {number : Nat} (hname : s.name = none)
    (hfree : s.numberFree number = true) (hpc : (s.pc c).Plain) :
    Inv folderLocks ((s.makeFile number).goto c (.claiming s.next)) := by
  have hnone : ∀ {P : Prop} {node : Node}, s.name = some node → P := by
    intro P node h
    rw [hname] at h
    cases h
  refine ⟨?_, ?_, ?_, ?_, ?_, ?_, ?_, ?_, ?_⟩
  · intro d
    refine goto_cases _ c _ d (fun f => ?_) (fun _ f => ?_)
    · have hold := inv.lock_iff c f
      rw [hpc.locked] at hold
      show update s.lock s.next none f = some c ↔ none = some f
      by_cases hf : f = s.next
      · rw [hf]
        simp
      · rw [update_of_ne hf]
        exact hold
    · show update s.lock s.next none f = some d ↔ (s.pc d).locked = some f
      by_cases hf : f = s.next
      · rw [hf, update_self]
        constructor
        · intro h
          cases h
        · intro h
          exact absurd (inv.lt_next _ (live_of_locked h)) (Nat.lt_irrefl _)
      · rw [update_of_ne hf]
        exact inv.lock_iff d f
  · intro d
    exact goto_cases _ c _ d (fun f h => by cases h) (fun _ f h => hnone (inv.sure d f h))
  · intro hlocks d
    refine goto_cases _ c _ d ?_ (fun _ => inv.folder_iff hlocks d)
    have hold := inv.folder_iff hlocks c
    rw [hpc.inFolder] at hold
    exact hold
  · intro _ h
    cases h
  · intro d
    exact goto_cases _ c _ d (fun h => by cases h) (fun _ h => hnone (inv.seen d h))
  · intro d
    exact goto_cases _ c _ d (fun h => by cases h) (fun _ h => hnone (inv.byName d h))
  · intro f h
    cases h
    exact update_self ..
  · intro f h
    show f < s.next + 1
    rcases live_makeFile inv hfree h with rfl | hold
    · exact Nat.lt_succ_self _
    · exact Nat.lt_succ_of_lt hold.1
  · intro f g hf hg heq
    change update s.number s.next number f = update s.number s.next number g at heq
    rcases live_makeFile inv hfree hf with rfl | ⟨hflt, hfne, hfold⟩ <;>
      rcases live_makeFile inv hfree hg with rfl | ⟨hglt, hgne, hgold⟩
    · rfl
    · rw [update_self, update_of_ne (Nat.ne_of_lt hglt)] at heq
      exact absurd heq.symm hgne
    · rw [update_self, update_of_ne (Nat.ne_of_lt hflt)] at heq
      exact absurd heq hfne
    · rw [update_of_ne (Nat.ne_of_lt hflt), update_of_ne (Nat.ne_of_lt hglt)] at heq
      exact inv.number_inj f g hfold hgold heq

theorem move_locks (inv : Inv folderLocks s) {lock : FileId → Option (Fin n)}
    {owner : Option (Fin n)} (hfits : pc.Fits s c)
    (hself : ∀ f, lock f = some c ↔ pc.locked = some f)
    (hother : ∀ d, d ≠ c → ∀ f, lock f = some d ↔ s.lock f = some d)
    (hselfFolder : folderLocks = true → (owner = some c ↔ pc.inFolder = true))
    (hotherFolder : folderLocks = true → ∀ d, d ≠ c → (owner = some d ↔ s.folderLock = some d)) :
    Inv folderLocks ({ s with lock, folderLock := owner }.goto c pc) where
  lock_iff := fun d => goto_cases _ c _ d hself fun hd f => (hother d hd f).trans (inv.lock_iff d f)
  sure := by
    intro d
    refine goto_cases _ c _ d (fun f h => ?_) (fun _ => inv.sure d)
    have hlive := hfits.live (openFile_of_locked (locked_of_sure h))
    exact inv.name_of_sameFile hlive (hfits.sure f h)
  folder_iff := fun hlocks d => goto_cases _ c _ d (hselfFolder hlocks) fun hd =>
    (hotherFolder hlocks d hd).trans (inv.folder_iff hlocks d)
  noLink := inv.noLink
  seen := fun d => goto_cases _ c _ d hfits.seesLink fun _ => inv.seen d
  byName := by
    intro d
    refine goto_cases _ c _ d (fun h => ?_) (fun _ => inv.byName d)
    rcases hfits.removing h with hn | ⟨f, hn, hk⟩
    · exact hn
    · rw [inv.regular f hn] at hk
      cases hk
  regular := inv.regular
  lt_next := fun f h => inv.lt_next f (live_goto (s := s) hfits h)
  number_inj := fun f g hf hg => inv.number_inj f g (live_goto (s := s) hfits hf)
    (live_goto (s := s) hfits hg)

theorem move_goto (inv : Inv folderLocks s) (hlocked : pc.locked = (s.pc c).locked)
    (hfolder : folderLocks = true → pc.inFolder = (s.pc c).inFolder) (hfits : pc.Fits s c) :
    Inv folderLocks (s.goto c pc) := by
  refine inv.move_locks hfits (fun f => ?_) (fun d _ f => Iff.rfl) (fun hlocks => ?_)
    (fun _ d _ => Iff.rfl)
  · rw [hlocked]
    exact inv.lock_iff c f
  · rw [hfolder hlocks]
    exact inv.folder_iff hlocks c

theorem nameless (inv : Inv folderLocks s) (dest : Option Node) (hpc : ∀ d, (s.pc d).Harmless) :
    Inv folderLocks { s with name := none, dest } := by
  have hl : ∀ f, State.Live { s with name := none, dest } f → s.Live f := by
    intro f h
    rcases h with h | h
    · cases h
    · exact .inr h
  refine ⟨inv.lock_iff, fun d f h => ?_, inv.folder_iff, nofun, fun d h => ?_,
    fun d h => absurd h (hpc d).ne_removing, nofun, fun f h => inv.lt_next f (hl f h),
    fun f g hf hg => inv.number_inj f g (hl f hf) (hl g hg)⟩
  · rw [(hpc d).sure] at h
    cases h
  · rw [(hpc d).seesLink] at h
    cases h

theorem move_remove (inv : Inv folderLocks s) (dest : Option Node)
    (hwhy : (s.pc c).sure.isSome = true ∨ (s.pc c).seesLink = true ∨ s.pc c = .removing)
    (hnotFolder : s.name ≠ some .folder)
    (hopen : ∀ f, pc.openFile = some f → (s.pc c).openFile = some f)
    (hlocked : pc.locked = (s.pc c).locked) (hf : pc.inFolder = (s.pc c).inFolder)
    (hpc : pc.Harmless) : Inv folderLocks ({ s with name := none, dest }.goto c pc) := by
  have hgoto := inv.move_goto hlocked (fun _ => hf) (hpc.fits fun f h => .inl (hopen f h))
  have hname := inv.name_of_remove hwhy hnotFolder
  refine hgoto.nameless dest fun d => goto_cases s c pc d hpc fun hd => ⟨?_, ?_, ?_⟩
  · -- another caller that is sure of the name has the lock of the same file
    refine Option.eq_none_iff_forall_ne_some.mpr fun f h => ?_
    have hother := inv.sure d f h
    rcases hname with ⟨g, hg, hlock⟩ | ⟨hlink, _⟩
    · rw [hg] at hother
      cases hother
      exact hd (inv.locked_unique (locked_of_sure h) hlock)
    · rw [hlink] at hother
      cases hother
  · -- another caller that has seen the link has the lock of the folder
    refine Bool.eq_false_iff.mpr fun h => ?_
    have hother := inv.seen d h
    rcases hname with ⟨g, hg, _⟩ | ⟨hlink, hown⟩
    · rw [hg] at hother
      cases hother
    · cases hlocks : folderLocks with
      | false => exact inv.noLink hlocks hlink
      | true =>
        have hd' := (inv.folder_iff hlocks d).mpr (inFolder_of_seesLink h)
        rw [hown] at hd'
        exact hd (Option.some.inj hd').symm
  · exact fun h => hnotFolder (inv.byName d h)

/-- **Every move keeps the invariant.** -/
theorem move (inv : Inv folderLocks s) (hm : Move folderLocks s c t) : Inv folderLocks t := by
  cases hm with
  | goto pc hlocked hfolder hfits => exact inv.move_goto hlocked hfolder hfits
  | make number hname hfree hpc => exact inv.move_make hname hfree hpc
  | lock f pc hopen hfree hnone hfolder hopen' hlocked hfolder' hpc =>
    refine inv.move_locks (hpc.fits fun g hg => .inl ?_) (fun g => ?_) (fun d hd g => ?_)
      (fun hlocks => ?_) (fun _ d _ => Iff.rfl)
    · rw [hopen'] at hg
      rw [hopen, hg]
    · rw [hlocked]
      by_cases hg : g = f
      · simp [hg]
      · have hold := inv.lock_iff c g
        rw [hnone] at hold
        rw [update_of_ne hg, hold]
        simp [Ne.symm hg]
    · by_cases hg : g = f
      · simp [hg, hfree, Ne.symm hd]
      · rw [update_of_ne hg]
    · rw [hfolder', ← hfolder]
      exact inv.folder_iff hlocks c
  | release f pc hlocked hfolder hpc =>
    refine inv.move_locks hpc.fits (fun g => ?_) (fun d hd g => ?_) (fun hlocks => ?_)
      (fun _ d _ => Iff.rfl)
    · rw [hpc.locked]
      by_cases hg : g = f
      · simp [hg]
      · have hold := inv.lock_iff c g
        rw [hlocked] at hold
        rw [update_of_ne hg, hold]
        simp [Ne.symm hg]
    · by_cases hg : g = f
      · have hown := (inv.lock_iff c f).mpr hlocked
        simp [hg, hown, Ne.symm hd]
      · rw [update_of_ne hg]
    · rw [hpc.inFolder, ← hfolder]
      exact inv.folder_iff hlocks c
  | remove pc dest hwhy hnotFolder hopen hlocked hfolder hpc =>
    exact inv.move_remove dest hwhy hnotFolder hopen hlocked hfolder hpc
  | folder pc owner hlocked hopen hpc hs hother =>
    refine inv.move_locks (hpc.fits fun g hg => ?_) (fun g => ?_) (fun d _ g => Iff.rfl)
      (fun _ => hs) (fun _ => hother)
    · rw [hopen] at hg
      cases hg
    · rw [hlocked]
      exact inv.lock_iff c g
  | crash =>
    refine inv.move_locks plain_idle.fits (fun g => ?_) (fun d hd g => ?_)
      (fun _ => ?_) (fun _ d hd => ?_)
    · by_cases hg : s.lock g = some c <;> simp [hg, locked]
    · by_cases hg : s.lock g = some c <;> simp [hg, Ne.symm hd]
    · by_cases hg : s.folderLock = some c <;> simp [hg, inFolder]
    · by_cases hg : s.folderLock = some c <;> simp [hg, Ne.symm hd]

theorem step (inv : Inv folderLocks s)
    (h : TempClaim.step folderLocks s event = some t) : Inv folderLocks t := by
  refine inv.move (step_move (fun f hpc hn => ?_) h)
  rw [inv.sure event.1 f (by rw [hpc]; rfl)] at hn
  cases hn

end Inv

/-! ### One holder, and nobody else touches its name -/

/-- At the start the name holds anything but a special file, and a link only where the folder
can be locked. -/
structure Clear (folderLocks : Bool) (name : Option Node) (kind : FileId → Kind) (next : FileId) :
    Prop where
  regular : ∀ f, name = some (.file f) → kind f = .regular ∧ f < next
  link : name = some .link → folderLocks = true

theorem Inv.start {name : Option Node} {kind : FileId → Kind} {next : FileId}
    (hc : Clear folderLocks name kind next) (number : FileId → Nat) :
    Inv folderLocks (TempClaim.start name kind number next : State n) := by
  have hlive : ∀ f, (TempClaim.start name kind number next : State n).Live f →
      name = some (.file f) := by
    intro f h
    rcases h with h | ⟨d, hd⟩
    · exact h
    · cases hd
  refine ⟨fun c f => ?_, fun c f h => ?_, fun _ c => ?_, fun hlocks h => ?_, fun c h => ?_,
    fun c h => ?_,
    fun f h => (hc.regular f h).1, fun f h => (hc.regular f (hlive f h)).2, fun f g hf hg _ => ?_⟩
  · exact ⟨nofun, nofun⟩
  · cases h
  · exact ⟨nofun, nofun⟩
  · rw [hc.link h] at hlocks
    cases hlocks
  · cases h
  · cases h
  · have hn := hlive f hf
    rw [hlive g hg] at hn
    cases hn
    rfl

/-- What holds of two downloads' temporaries in a state. -/
structure Apart (folderLocks : Bool) (s : State n) : Prop where
  /-- One caller at most has a claim on the file at the name. -/
  unique : ∀ c d f, s.name = some (.file f) → (s.pc c).claim = some f →
    (s.pc d).claim = some f → c = d
  /-- No step of another caller removes or replaces the name meanwhile. -/
  untouched : ∀ c f, s.name = some (.file f) → (s.pc c).claim = some f →
    ∀ d choice t, d ≠ c → step folderLocks s (d, choice) = some t → t.name = s.name
  /-- Until it is done with it, a holder's file is at the name. -/
  named : ∀ c f, s.pc c = .holding f → s.name = some (.file f)
  /-- What it renames is its file. -/
  renamed : ∀ c f t, s.pc c = .holding f → step folderLocks s (c, .rename) = some t →
    t.dest = some (.file f)

theorem name_of_move (inv : Inv folderLocks s) {d : Fin n} {f : FileId}
    (hm : Move folderLocks s d t) (hd : d ≠ c) (hname : s.name = some (.file f))
    (hc : (s.pc c).claim = some f) : t.name = s.name := by
  cases hm with
  | goto => rfl
  | make number hnone => rw [hnone] at hname; cases hname
  | lock => rfl
  | release => rfl
  | remove pc dest hwhy hnotFolder =>
    rcases inv.name_of_remove hwhy hnotFolder with ⟨g, hg, hlocked⟩ | ⟨hlink, _⟩
    · rw [hname] at hg
      cases hg
      exact absurd (inv.locked_unique hlocked (locked_of_claim hc)) hd
    · rw [hname] at hlink
      cases hlink
  | folder => rfl
  | crash => rfl

theorem Inv.apart (inv : Inv folderLocks s) : Apart folderLocks s where
  unique := fun c d f _ hc hd => inv.locked_unique (locked_of_claim hc) (locked_of_claim hd)
  untouched := by
    intro c f hn hclaim d choice t hd hs
    refine name_of_move inv (step_move (fun g hpc hf => ?_) hs) hd hn hclaim
    rw [hn] at hf
    cases hf
  named := fun c f hpc => inv.sure c f (by rw [hpc]; rfl)
  renamed := by
    intro c f t hpc hs
    have hn := inv.sure c f (by rw [hpc]; rfl)
    simp only [TempClaim.step, stepAt, hpc, stepHolding, hn] at hs
    cases hs
    rfl

/-- **Two downloads never write or remove each other's temporary**, if the name holds no special
file at the start, and no leftover link where the folder cannot be locked. -/
theorem temporaries_apart (n : Nat) (folderLocks : Bool) (name : Option Node) (kind : FileId → Kind)
    (number : FileId → Nat) (next : FileId) (hclear : Clear folderLocks name kind next)
    (events : List (Fin n × Choice)) (s : State n)
    (hrun : run (step folderLocks) (start name kind number next) events = some s) :
    Apart folderLocks s := by
  have inv : Inv folderLocks s :=
    run_invariant (fun _ _ _ hstep inv => inv.step hstep) hrun (.start hclear number)
  exact inv.apart

/-- Two callers find the same stale temporary. -/
def staleRun : List (Fin 2 × Choice) :=
  [(0, .start .create), (1, .start .create), (0, .go), (1, .go), (0, .go), (1, .go),
    (0, .go), (1, .go),
    (0, .go), (0, .go), (0, .go), (0, .go), (1, .go), (0, .made 8), (0, .go), (1, .go), (0, .go)]

/-- The first removes it, makes its own and holds it, while the second locks the one that is gone
and sees that it is not at the name. -/
theorem temporaries_apart_stale : ∃ s : State 2,
    run (step true) (start (some (.file 0)) (fun _ => .regular) (fun _ => 7) 1) staleRun = some s ∧
    s.pc 0 = .holding 1 ∧ s.pc 1 = .probeDone 0 .createWith .live ∧ Apart true s := by
  have hend :
      (run (step true) (start (some (.file 0)) (fun _ => .regular) (fun _ => 7) 1) staleRun).map
      (fun s : State 2 => (s.pc 0, s.pc 1))
        = some (.holding 1, .probeDone 0 .createWith .live) := by
    decide
  obtain ⟨s, hs, hpc⟩ := Option.map_eq_some_iff.mp hend
  obtain ⟨hpc0, hpc1⟩ := Prod.mk.inj hpc
  refine ⟨s, hs, hpc0, hpc1, temporaries_apart 2 true _ _ _ _ ⟨fun f h => ?_, fun h => ?_⟩ _ s hs⟩
  · cases h
    exact ⟨rfl, by decide⟩
  · cases h

/-- Two callers find a FIFO at the name, one removes it, a third makes its temporary there and
holds it, and the second removes that by its name. -/
theorem fifo_removes_held : ∃ s t : State 3,
    run (step true) (start (some (.file 0)) (fun _ => .special) (fun _ => 7) 1)
      [(0, .start .removeUnlessLive), (0, .go), (1, .start .removeUnlessLive), (1, .go), (1, .go),
        (2, .start .create), (2, .made 8), (2, .go), (2, .go)] = some s ∧
    s.pc 2 = .holding 1 ∧ s.name = some (.file 1) ∧
    step true s (0, .go) = some t ∧ t.name = none := by
  refine ⟨_, _, rfl, ?_, ?_, rfl, ?_⟩ <;> decide

end AeroFtp.Providers.TempClaim
