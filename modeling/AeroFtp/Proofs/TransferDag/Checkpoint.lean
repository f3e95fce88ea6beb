/-
What a committed checkpoint says.

A record may be committed only after a verification of its complete payload in this very
attempt.  Two things get in the way of that.  An operation changes the record in memory
before it writes it, so a verification whose write fails has happened in memory and not on
disk; and `begin` counts an attempt before it finds that a committed record may not be
rewound.  Where the writes of the two last steps succeed, `begin` is not called on a
committed record and the record found on disk keeps to its layout, every history is sound.
-/
import AeroFtp.TransferDag.Checkpoint

namespace AeroFtp.Dag

open List Option CheckpointStore StoredCheckpoint

namespace MultipartCheckpoint

variable {cp cp' : MultipartCheckpoint} {next : CheckpointStatus} {now : Nat}

/-- Every receipt is for a part of the layout. -/
def InLayout (cp : MultipartCheckpoint) : Prop :=
  ∀ part, (cp.receipts.lookup part).isSome → 1 ≤ part ∧ part ≤ cp.totalParts

/-- The receipts are those of exactly the parts of the layout. -/
def Complete (cp : MultipartCheckpoint) : Prop :=
  ∀ part, (cp.receipts.lookup part).isSome ↔ 1 ≤ part ∧ part ≤ cp.totalParts

/-- What the receipts of `cp` say, those of `cp'` say too. -/
def ReceiptsLe (cp cp' : MultipartCheckpoint) : Prop :=
  ∀ part receipt, cp.receipts.lookup part = some receipt → cp'.receipts.lookup part = some receipt

theorem ReceiptsLe.refl (cp : MultipartCheckpoint) : ReceiptsLe cp cp := fun _ _ h => h

theorem ReceiptsLe.trans {a b c : MultipartCheckpoint} (h : ReceiptsLe a b) (h' : ReceiptsLe b c) :
    ReceiptsLe a c := fun part receipt hr => h' part receipt (h part receipt hr)

theorem missingParts_eq_nil : cp.missingParts = [] ↔ ∀ part, 1 ≤ part → part ≤ cp.totalParts →
      (cp.receipts.lookup part).isSome := by
  unfold missingParts
  rw [filter_eq_nil_iff]
  constructor
  · intro h part hlo hhi
    have hmem : part ∈ range' 1 cp.totalParts := mem_range'_1.mpr (by omega)
    cases hr : cp.receipts.lookup part with
    | none => exact absurd (by simp [hr]) (h part hmem)
    | some r => rfl
  · intro h part hmem
    obtain ⟨hlo, hhi⟩ := mem_range'_1.mp hmem
    obtain ⟨r, hr⟩ := isSome_iff_exists.mp (h part hlo (by omega))
    simp [hr]

theorem complete_of_missingParts (h : cp.missingParts = []) (hin : cp.InLayout) : cp.Complete := by
  intro part
  exact ⟨hin part, fun hp => missingParts_eq_nil.mp h part hp.1 hp.2⟩

theorem transition_ok (h : cp.transition next now = .ok cp') :
    cp.status.legal next = true ∧ cp' = { cp with status := next, updatedUnixSecs := now } := by
  unfold transition at h
  by_cases hl : cp.status.legal next = true
  · rw [hl] at h
    exact ⟨hl, (Except.ok.inj h).symm⟩
  · simp [hl] at h

end MultipartCheckpoint

open MultipartCheckpoint

/-! ### What an operation does to the record and the file -/

/-- The operation keeps the identity and the receipts, adds receipts of the layout only, and
leaves the file alone or writes the record to it. -/
structure Grows (disk : StoredCheckpoint) (cp : MultipartCheckpoint) (out : CheckpointOutcome) :
    Prop where
  identity : out.checkpoint.identity = cp.identity
  schema : out.checkpoint.schemaVersion = cp.schemaVersion
  receipts : ReceiptsLe cp out.checkpoint
  inLayout : cp.InLayout → out.checkpoint.InLayout
  disk : out.disk = disk ∨ out.disk = .found out.checkpoint

/-- The record in memory before its transition. -/
inductive Grown (cp : MultipartCheckpoint) : CheckpointCall → MultipartCheckpoint → Prop
  | refl {call} : Grown cp call cp
  | begun {uploadId now write} : Grown cp (.begin uploadId now write)
      { cp with uploadId := some uploadId, attempts := cp.nextAttempt }
  | received {receipt now write}
      (hpart : 1 ≤ receipt.partNumber ∧ receipt.partNumber ≤ cp.totalParts)
      (hnew : cp.receipts.lookup receipt.partNumber = none) :
      Grown cp (.recordReceipt receipt now write) (cp.insertReceipt receipt)

/-- The status that a call asks for, and the answer to its write. -/
inductive Target (cp : MultipartCheckpoint) :
    CheckpointCall → CheckpointStatus → Except String Unit → Prop
  | begin {uploadId now write} : Target cp (.begin uploadId now write) .transferring write
  | record {receipt next now write} (hnext : next = .payloadComplete ∨ next = .transferring) :
      Target cp (.recordReceipt receipt now write) next write
  | fail {now write} : Target cp (.markFailed now write) .failed write
  | verify {now write} : Target cp (.markVerified now write) .verified write
  | commit {now write} (hverified : cp.status = .verified) (hmissing : cp.missingParts = []) :
      Target cp (.markCommitted now write) .committed write

/-- All that an operation can leave. -/
inductive Leaves (disk : StoredCheckpoint) (cp : MultipartCheckpoint) :
    CheckpointCall → CheckpointOutcome → Prop
  /-- It is refused, or there is nothing to do. -/
  | held {call mid result} (hmid : Grown cp call mid) : Leaves disk cp call ⟨mid, disk, result⟩
  | moved {call mid next now write} (hmid : Grown cp call mid)
      (htarget : Target cp call next write) (hlive : cp.status ≠ .committed) :
      Leaves disk cp call ⟨{ mid with status := next, updatedUnixSecs := now },
        disk.persist { mid with status := next, updatedUnixSecs := now } write, write⟩
  /-- A verified record is verified again. -/
  | rewritten {now write} (hverified : cp.status = .verified) :
      Leaves disk cp (.markVerified now write) ⟨cp, disk.persist cp write, write⟩

section Operations

variable {disk : StoredCheckpoint} {cp mid : MultipartCheckpoint} {call : CheckpointCall}
  {out : CheckpointOutcome} {next : CheckpointStatus} {write : Except String Unit}

theorem Grown.status (h : Grown cp call mid) : mid.status = cp.status := by
  cases h <;> rfl

theorem Grown.receiptsLe (h : Grown cp call mid) : ReceiptsLe cp mid := by
  cases h with
  | refl => exact .refl cp
  | begun => exact .refl cp
  | @received receipt _ _ hp hnew =>
    -- The receipt is new, so the ones before it stand.
    intro part existing hr
    have hne : part ≠ receipt.partNumber := by
      rintro rfl
      rw [hnew] at hr
      cases hr
    rw [insertReceipt, AList.lookup_insert_ne hne, hr]

theorem Grown.inLayout (h : Grown cp call mid) (hin : cp.InLayout) : mid.InLayout := by
  cases h with
  | refl => exact hin
  | begun => exact hin
  | @received receipt _ _ hp hnew =>
    intro part hr
    by_cases hne : part = receipt.partNumber
    · exact hne ▸ hp
    · refine hin part ?_
      rwa [insertReceipt, AList.lookup_insert_ne hne] at hr

theorem persist_cases (disk : StoredCheckpoint) (cp : MultipartCheckpoint)
    (write : Except String Unit) :
    disk.persist cp write = disk ∨ disk.persist cp write = .found cp := by
  cases write with
  | error e => exact .inl rfl
  | ok _ => exact .inr rfl

theorem Leaves.grows (h : Leaves disk cp call out) : Grows disk cp out := by
  cases h with
  | held hmid =>
    refine ⟨?_, ?_, hmid.receiptsLe, hmid.inLayout, .inl rfl⟩
    · cases hmid <;> rfl
    · cases hmid <;> rfl
  | moved hmid =>
    refine ⟨?_, ?_, hmid.receiptsLe, hmid.inLayout, persist_cases ..⟩
    · cases hmid <;> rfl
    · cases hmid <;> rfl
  | rewritten => exact ⟨rfl, rfl, .refl cp, id, persist_cases ..⟩

theorem leaves_advance {now : Nat} (hmid : Grown cp call mid) (ht : Target cp call next write) :
    Leaves disk cp call (advance disk mid (mid.transition next now) write) := by
  cases hlegal : mid.status.legal next with
  | false =>
    simp only [transition, hlegal]
    exact .held hmid
  | true =>
    have hlive : cp.status ≠ .committed := by
      intro hs
      rw [hmid.status, hs] at hlegal
      cases hlegal
    simp only [transition, hlegal]
    exact .moved hmid ht hlive

/-- **What a call on a record leaves.** -/
theorem leaves_operation (h : call.operation disk cp = some out) : Leaves disk cp call out := by
  cases call with
  | openOrCreate => cases h
  | begin uploadId now write =>
    cases h
    unfold begin
    split
    · exact .held .refl
    · exact leaves_advance .begun .begin
  | recordReceipt receipt now write =>
    cases h
    unfold recordReceipt
    split
    · exact .held .refl
    · split
      · split <;> exact .held .refl
      · rename_i hnew
        refine leaves_advance (.received (by omega) hnew) (.record ?_)
        split
        · exact .inl rfl
        · exact .inr rfl
  | markFailed now write => exact some.inj h ▸ leaves_advance .refl .fail
  | markVerified now write =>
    cases h
    unfold markVerified
    split
    · exact .held .refl
    · split
      · rename_i hs
        split
        · exact .held .refl
        · -- The payload is completed on the way.
          rename_i complete hmoved
          obtain ⟨-, rfl⟩ := transition_ok hmoved
          show Leaves disk cp _ ⟨{ cp with status := .verified, updatedUnixSecs := now }, _, write⟩
          exact .moved .refl .verify (by simp [hs])
      · exact leaves_advance .refl .verify
      · rename_i hs
        exact .rewritten hs
      · exact .held .refl
  | markCommitted now write =>
    cases h
    unfold markCommitted
    split
    · exact .held .refl
    · split
      · exact .held .refl
      · rename_i hmissing hv
        exact leaves_advance .refl (.commit (not_not.mp hv) (not_not.mp hmissing))

end Operations

/-! ### The two last statuses -/

def CheckpointCall.opens : CheckpointCall → Bool
  | .openOrCreate .. => true
  | _ => false

/-- The calls whose write has to succeed, and the one that has to be left out. -/
def CheckpointCall.careful (checkpoint : Option MultipartCheckpoint) : CheckpointCall → Bool
  | .begin .. => checkpoint.all fun cp => !cp.status.isTerminal
  | .markVerified _ write | .markCommitted _ write => write.isOk
  | _ => true

section Statuses

variable {disk : StoredCheckpoint} {cp : MultipartCheckpoint} {call : CheckpointCall}
  {out : CheckpointOutcome}

variable (h : Leaves disk cp call out)
include h

variable (hcareful : call.careful (some cp) = true)
include hcareful

theorem verified_of_leaves (hout : out.checkpoint.status = .verified) :
    cp.status = .verified ∨ (out.result.isOk = true ∧
      ∃ now write, call = .markVerified now write) := by
  cases h with
  | held hmid => exact .inl (hmid.status.symm.trans hout)
  | moved hmid ht =>
    cases ht with
    | verify => exact .inr ⟨hcareful, _, _, rfl⟩
    | record hn => rcases hn with rfl | rfl <;> cases hout
    | _ => cases hout
  | rewritten hv => exact .inl hv

theorem committed_of_leaves (hout : out.checkpoint.status = .committed) : cp.status = .committed ∨
      (cp.status = .verified ∧ out.checkpoint.missingParts = [] ∧
        out.disk = .found out.checkpoint) := by
  cases h with
  | held hmid => exact .inl (hmid.status.symm.trans hout)
  | @moved _ _ _ _ write hmid ht =>
    cases ht with
    | commit hv hmissing =>
      cases hmid
      cases write with
      | error => cases hcareful
      | ok => exact .inr ⟨hv, hmissing, rfl⟩
    | record hn => rcases hn with rfl | rfl <;> cases hout
    | _ => cases hout
  | rewritten => exact .inl hout

theorem leaves_of_committed (hcp : cp.status = .committed) (hmissing : cp.missingParts = []) :
    out.checkpoint = cp ∧ out.disk = disk := by
  cases h with
  | held hmid =>
    cases hmid with
    | refl => exact ⟨rfl, rfl⟩
    | begun => simp [CheckpointCall.careful, hcp, CheckpointStatus.isTerminal] at hcareful
    | received hp hnew =>
      have hs := missingParts_eq_nil.mp hmissing _ hp.1 hp.2
      rw [hnew] at hs
      cases hs
  | moved _ _ hl => exact absurd hcp hl
  | rewritten hv =>
    rw [hcp] at hv
    cases hv

end Statuses

/-! ### Opening -/

section Opening

variable {identity : CheckpointIdentity} {disk disk' : StoredCheckpoint} {now : Nat}
  {read enforceCap write : Except String Unit} {opened : CheckpointOpen}

theorem migrate_keeps {record loaded : MultipartCheckpoint} (h : migrate record = .ok loaded) :
    loaded.receipts = record.receipts ∧ loaded.identity = record.identity ∧
      loaded.schemaVersion = checkpointSchemaVersion := by
  unfold migrate at h
  split at h
  · rename_i hv
    cases h
    exact ⟨rfl, rfl, hv⟩
  · split at h
    · cases h
      exact ⟨rfl, rfl, rfl⟩
    · split at h
      · cases h
        exact ⟨rfl, rfl, rfl⟩
      · cases h

theorem load_found {loaded : MultipartCheckpoint} (h : disk.load read = .ok (some loaded)) :
    ∃ record, disk = .found record ∧ migrate record = .ok loaded ∧
      disk.load (.ok ()) = .ok (some loaded) := by
  cases disk with
  | absent => cases h
  | corrupt reason => cases read <;> cases h
  | found record =>
    cases read with
    | error e => cases h
    | ok =>
      cases hm : migrate record with
      | error e => simp [load, hm, Except.bind, Except.map] at h
      | ok loaded' =>
        simp [load, hm, Except.bind, Except.map] at h
        subst h
        exact ⟨record, rfl, hm, by simp [load, hm, Except.bind, Except.map]⟩

/-- The record on disk that `open_or_create` goes on with. -/
def Resumes (identity : CheckpointIdentity) (disk : StoredCheckpoint)
    (loaded : MultipartCheckpoint) : Prop :=
  disk.load (.ok ()) = .ok (some loaded) ∧ loaded.identity = identity ∧
    loaded.status.isTerminal = false

theorem openOrCreate_cases (identity : CheckpointIdentity) (disk : StoredCheckpoint) (now : Nat)
    (read enforceCap write : Except String Unit) :
    (∃ e, openOrCreate identity disk now read enforceCap write = (disk, .error e)) ∨
    (openOrCreate identity disk now read enforceCap write =
      (.found (fresh identity now), .ok ⟨fresh identity now, false⟩)) ∨
    (∃ loaded checkpoint, Resumes identity disk loaded ∧
      checkpoint = { loaded with
        attempts := loaded.nextAttempt, status := .transferring, updatedUnixSecs := now } ∧
      openOrCreate identity disk now read enforceCap write =
        (.found checkpoint, .ok ⟨checkpoint, true⟩)) := by
  have hf : (∃ e, startFresh identity disk now enforceCap write = (disk, .error e)) ∨
      startFresh identity disk now enforceCap write =
        (.found (fresh identity now), .ok ⟨fresh identity now, false⟩) := by
    cases enforceCap with
    | error e => exact .inl ⟨e, rfl⟩
    | ok =>
      cases write with
      | error e => exact .inl ⟨e, rfl⟩
      | ok => exact .inr rfl
  unfold openOrCreate
  cases hload : disk.load read with
  | error e => exact hf.imp id .inl
  | ok existing =>
    cases existing with
    | none => exact hf.imp id .inl
    | some loaded =>
      obtain ⟨record, -, -, hp⟩ := load_found hload
      dsimp only
      split
      · exact hf.imp id .inl
      · rename_i hlive
        simp only [not_or, not_not, Bool.not_eq_true] at hlive
        -- Every live status may be rewound, so only the write can fail.
        have hlegal : loaded.status.legal .transferring = true := by
          cases hs : loaded.status <;> simp [hs, CheckpointStatus.isTerminal] at hlive <;> rfl
        simp only [transition, hlegal]
        cases write with
        | error e => exact .inl ⟨e, rfl⟩
        | ok => exact .inr (.inr ⟨loaded, _, ⟨hp, hlive.1, hlive.2⟩, rfl, rfl⟩)

end Opening

/-! ### Histories -/

/-- A `mark_verified` has succeeded since the last `open_or_create` that did. -/
def verifiedSinceOpen : List (CheckpointCall × Bool) → Bool
  | [] => false
  | (.markVerified .., true) :: _ => true
  | (.openOrCreate .., true) :: _ => false
  | _ :: log => verifiedSinceOpen log

namespace CheckpointSession

variable {identity : CheckpointIdentity} {s s' : CheckpointSession} {call : CheckpointCall}

theorem step_cases (h : s.step identity call = some s') :
    (∃ now read cap write, call = .openOrCreate now read cap write ∧
      ((s' = ⟨s.disk, s.checkpoint, (call, false) :: s.log⟩) ∨
       (s' = ⟨.found (fresh identity now), some (fresh identity now), (call, true) :: s.log⟩) ∨
       ∃ loaded cp, Resumes identity s.disk loaded ∧
        cp = { loaded with
          attempts := loaded.nextAttempt, status := .transferring, updatedUnixSecs := now } ∧
        s' = ⟨.found cp, some cp, (call, true) :: s.log⟩)) ∨
    (∃ cp out, s.checkpoint = some cp ∧ call.operation s.disk cp = some out ∧
      s' = ⟨out.disk, some out.checkpoint, (call, out.result.isOk) :: s.log⟩) := by
  cases call with
  | openOrCreate now read cap write =>
    refine .inl ⟨now, read, cap, write, rfl, ?_⟩
    simp only [step] at h
    obtain ⟨e, ho⟩ | ho | ⟨loaded, cp, hres, hcp, ho⟩ :=
      openOrCreate_cases identity s.disk now read cap write
    · rw [ho] at h
      exact .inl (some.inj h).symm
    · rw [ho] at h
      exact .inr (.inl (some.inj h).symm)
    · rw [ho] at h
      exact .inr (.inr ⟨loaded, cp, hres, hcp, (some.inj h).symm⟩)
  | _ =>
    obtain ⟨cp, hcp, hmap⟩ := bind_eq_some_iff.mp h
    obtain ⟨out, hout, rfl⟩ := map_eq_some_iff.mp hmap
    exact .inr ⟨cp, out, hcp, hout, rfl⟩

/-- A call that meets the conditions, and its step. -/
def carefulStep (identity : CheckpointIdentity) (s : CheckpointSession) (call : CheckpointCall) :
    Option CheckpointSession :=
  if call.careful s.checkpoint then s.step identity call else none

theorem carefulStep_some (h : s.carefulStep identity call = some s') :
    call.careful s.checkpoint = true ∧ s.step identity call = some s' := by
  unfold carefulStep at h
  split at h
  · rename_i hc
    exact ⟨hc, h⟩
  · cases h

/-- The record on disk that would be resumed keeps to its layout. -/
def DiskInLayout (identity : CheckpointIdentity) (disk : StoredCheckpoint) : Prop :=
  ∀ loaded, Resumes identity disk loaded → loaded.InLayout

theorem eq_of_resumes {cp loaded : MultipartCheckpoint}
    (hs : cp.schemaVersion = checkpointSchemaVersion) (h : Resumes identity (.found cp) loaded) :
    cp = loaded := by
  have hl := h.1
  simp only [load, migrate, hs] at hl
  exact some.inj (Except.ok.inj hl)

variable {cp : MultipartCheckpoint} {log : List (CheckpointCall × Bool)} {disk : StoredCheckpoint}

theorem diskInLayout_found (hs : cp.schemaVersion = checkpointSchemaVersion) (hin : cp.InLayout) :
    DiskInLayout identity (.found cp) := by
  intro loaded hres
  rw [← eq_of_resumes hs hres]
  exact hin

/-- What holds of the caller's record between two calls. -/
structure KeptRecord (identity : CheckpointIdentity) (disk : StoredCheckpoint)
    (log : List (CheckpointCall × Bool)) (cp : MultipartCheckpoint) : Prop where
  identity : cp.identity = identity
  schema : cp.schemaVersion = checkpointSchemaVersion
  inLayout : cp.InLayout
  /-- It has all that is on disk. -/
  stored : ∃ d, disk = .found d ∧ ReceiptsLe d cp
  verified : cp.status = .verified → verifiedSinceOpen log = true
  committed : cp.status = .committed → cp.missingParts = [] ∧ disk = .found cp

/-- What holds between two calls. -/
structure Kept (identity : CheckpointIdentity) (s : CheckpointSession) : Prop where
  disk : DiskInLayout identity s.disk
  record : ∀ cp, s.checkpoint = some cp → KeptRecord identity s.disk s.log cp

theorem kept_start (h : DiskInLayout identity disk) : Kept identity (start disk) :=
  ⟨h, fun _ hcp => by cases hcp⟩

variable {cp : MultipartCheckpoint}

theorem kept_opened {log : List (CheckpointCall × Bool)}
    (hid : cp.identity = identity) (hschema : cp.schemaVersion = checkpointSchemaVersion)
    (hin : cp.InLayout) (hlive : cp.status = .prepared ∨ cp.status = .transferring) :
    Kept identity ⟨.found cp, some cp, log⟩ := by
  refine ⟨diskInLayout_found hschema hin, ?_⟩
  intro cp' hcp
  cases hcp
  refine ⟨hid, hschema, hin, ⟨cp, rfl, .refl cp⟩, ?_, ?_⟩
  · intro hs
    rcases hlive with hl | hl <;> rw [hl] at hs <;> cases hs
  · intro hs
    rcases hlive with hl | hl <;> rw [hl] at hs <;> cases hs

theorem inLayout_fresh (identity : CheckpointIdentity) (now : Nat) :
    (fresh identity now).InLayout := by
  intro part hr
  simp [fresh] at hr

/-- Only an `open_or_create` that succeeds takes a verification back. -/
theorem verifiedSinceOpen_cons {ok : Bool} (h : verifiedSinceOpen log = true)
    (ho : ok = true → ∀ now read cap write, call ≠ .openOrCreate now read cap write) :
    verifiedSinceOpen ((call, ok) :: log) = true := by
  cases ok with
  | false => cases call <;> exact h
  | true =>
    cases call with
    | openOrCreate now read cap write => exact absurd rfl (ho rfl now read cap write)
    | markVerified => rfl
    | _ => exact h

variable {out : CheckpointOutcome}

theorem operation_ne_open
    (h : call.operation disk cp = some out) (now : Nat) (read cap write : Except String Unit) :
    call ≠ .openOrCreate now read cap write := by
  rintro rfl
  cases h

theorem kept_operation (hk : Kept identity s)
    (hcp : s.checkpoint = some cp) (hcareful : call.careful s.checkpoint = true)
    (hout : call.operation s.disk cp = some out) :
    Kept identity ⟨out.disk, some out.checkpoint, (call, out.result.isOk) :: s.log⟩ := by
  obtain ⟨hid, hschema, hin, ⟨d, hd, hle⟩, hv, hcom⟩ := hk.record cp hcp
  have hleaves := leaves_operation hout
  have hg := hleaves.grows
  rw [hcp] at hcareful
  refine ⟨?_, ?_⟩
  · show DiskInLayout identity out.disk
    rcases hg.disk with hdisk | hdisk
    · rw [hdisk]
      exact hk.disk
    · rw [hdisk]
      exact diskInLayout_found (hg.schema.trans hschema) (hg.inLayout hin)
  · intro cp' hcp'
    obtain rfl := some.inj hcp'
    refine ⟨hg.identity.trans hid, hg.schema.trans hschema, hg.inLayout hin, ?_, ?_, ?_⟩
    · rcases hg.disk with hdisk | hdisk
      · exact ⟨d, hdisk.trans hd, hle.trans hg.receipts⟩
      · exact ⟨_, hdisk, .refl _⟩
    · intro hs
      rcases verified_of_leaves hleaves hcareful hs with hwas | ⟨hok, now, write, rfl⟩
      · exact verifiedSinceOpen_cons (hv hwas) fun _ => operation_ne_open hout
      · show verifiedSinceOpen ((_, out.result.isOk) :: s.log) = true
        rw [hok]
        rfl
    · intro hs
      rcases committed_of_leaves hleaves hcareful hs with hwas | ⟨-, hm, hdisk⟩
      · obtain ⟨hm, hf⟩ := hcom hwas
        obtain ⟨hsame, hdisk⟩ := leaves_of_committed hleaves hcareful hwas hm
        rw [hsame]
        exact ⟨hm, hdisk.trans hf⟩
      · exact ⟨hm, hdisk⟩

/-- **Between any two calls of a careful history the record is as it should be.** -/
theorem kept_step (hk : Kept identity s) (h : s.carefulStep identity call = some s') :
    Kept identity s' := by
  obtain ⟨hcareful, hstep⟩ := carefulStep_some h
  obtain ⟨now, read, cap, write, rfl, rfl | rfl | ⟨loaded, cp, hres, rfl, rfl⟩⟩ |
      ⟨cp, out, hcp, hout, rfl⟩ :=
    step_cases hstep
  · refine ⟨hk.disk, ?_⟩
    intro cp hcp
    obtain ⟨hid, hschema, hin, hstored, hv, hcom⟩ := hk.record cp hcp
    refine ⟨hid, hschema, hin, hstored, ?_, hcom⟩
    intro hs
    exact verifiedSinceOpen_cons (hv hs) (by simp)
  · exact kept_opened rfl rfl (inLayout_fresh identity now) (.inl rfl)
  · obtain ⟨record, -, hm, -⟩ := load_found hres.1
    exact kept_opened hres.2.1 (migrate_keeps hm).2.2 (hk.disk loaded hres) (.inr rfl)
  · exact kept_operation hk hcp hcareful hout

/-- The call starts a fresh record. -/
def StartsFresh (identity : CheckpointIdentity) (call : CheckpointCall) (s' : CheckpointSession) :
    Prop :=
  ∃ now read cap write, call = .openOrCreate now read cap write ∧
    s'.checkpoint = some (fresh identity now) ∧ s'.disk = .found (fresh identity now)

/-- What a call may do. -/
structure SoundStep (identity : CheckpointIdentity) (s : CheckpointSession) (call : CheckpointCall)
    (s' : CheckpointSession) : Prop where
  /-- A record that becomes committed has the receipts of exactly its parts, and a
  `mark_verified` has succeeded since it was opened. -/
  commits : ∀ cp, s'.checkpoint = some cp → cp.status = .committed → s.checkpoint ≠ some cp →
    cp.Complete ∧ verifiedSinceOpen s.log = true
  /-- The caller's record keeps its receipts until it is opened again. -/
  receipts : ∀ cp cp', s.checkpoint = some cp → s'.checkpoint = some cp' → call.opens = false →
    ReceiptsLe cp cp'
  /-- The receipts on disk stay until a fresh record is started. -/
  stored : ∀ d, s.disk = .found d →
    StartsFresh identity call s' ∨ ∃ d', s'.disk = .found d' ∧ ReceiptsLe d d'
  /-- A committed record is changed only by starting a fresh one. -/
  after : ∀ cp, s.checkpoint = some cp → cp.status = .committed →
    (s'.checkpoint = some cp ∧ s'.disk = s.disk) ∨ StartsFresh identity call s'

theorem soundStep_operation (hk : Kept identity s) (hcp : s.checkpoint = some cp)
    (hcareful : call.careful s.checkpoint = true) (hout : call.operation s.disk cp = some out) :
    SoundStep identity s call ⟨out.disk, some out.checkpoint,
      (call, out.result.isOk) :: s.log⟩ := by
  have hr := hk.record cp hcp
  have hleaves := leaves_operation hout
  have hg := hleaves.grows
  have hafter : cp.status = .committed → out.checkpoint = cp ∧ out.disk = s.disk := by
    intro hs
    rw [hcp] at hcareful
    exact leaves_of_committed hleaves hcareful hs (hr.committed hs).1
  refine ⟨?_, ?_, ?_, ?_⟩
  · intro cp' hcp' hs hnew
    obtain rfl := some.inj hcp'
    rw [hcp] at hcareful
    rcases committed_of_leaves hleaves hcareful hs with hwas | ⟨hwas, hm, -⟩
    · exact absurd (by rw [hcp, (hafter hwas).1]) hnew
    · exact ⟨complete_of_missingParts hm (hg.inLayout hr.inLayout), hr.verified hwas⟩
  · intro cp₀ cp' hcp₀ hcp' _
    rw [hcp] at hcp₀
    cases hcp₀
    obtain rfl := some.inj hcp'
    exact hg.receipts
  · intro d hd
    obtain ⟨d', hd', hle⟩ := hr.stored
    rw [hd] at hd'
    obtain rfl := found.inj hd'
    rcases hg.disk with hdisk | hdisk
    · exact .inr ⟨d, hdisk.trans hd, .refl d⟩
    · exact .inr ⟨_, hdisk, hle.trans hg.receipts⟩
  · intro cp₀ hcp₀ hs
    rw [hcp] at hcp₀
    cases hcp₀
    obtain ⟨hsame, hdisk⟩ := hafter hs
    exact .inl ⟨by rw [hsame], hdisk⟩

theorem soundStep_refused (hcall : call.opens = true) :
    SoundStep identity s call ⟨s.disk, s.checkpoint, log⟩ := by
  refine ⟨?_, ?_, ?_, ?_⟩
  · intro cp hcp _ hnew
    exact absurd hcp hnew
  · intro cp cp' _ _ ho
    rw [hcall] at ho
    cases ho
  · intro d hd
    exact .inr ⟨d, hd, .refl d⟩
  · intro cp hcp _
    exact .inl ⟨hcp, rfl⟩

theorem soundStep_opened (hcall : call.opens = true) (hopen : cp.status ≠ .committed)
    (hstored : ∀ d, s.disk = .found d →
      StartsFresh identity call ⟨.found cp, some cp, log⟩ ∨ ReceiptsLe d cp)
    (ha : ∀ old, s.checkpoint = some old → old.status = .committed →
      StartsFresh identity call ⟨.found cp, some cp, log⟩) :
    SoundStep identity s call ⟨.found cp, some cp, log⟩ := by
  refine ⟨?_, ?_, ?_, fun old hold hs => .inr (ha old hold hs)⟩
  · intro cp' hcp' hs _
    obtain rfl := some.inj hcp'
    exact absurd hs hopen
  · intro _ _ _ _ hopens
    rw [hcall] at hopens
    cases hopens
  · intro d hd
    rcases hstored d hd with hf | hle
    · exact .inl hf
    · exact .inr ⟨cp, rfl, hle⟩

/-- A record that is committed is on disk as such, and is not resumed. -/
theorem not_resumes_of_committed {loaded old : MultipartCheckpoint} (hk : Kept identity s)
    (hold : s.checkpoint = some old) (hs : old.status = .committed) :
    ¬ Resumes identity s.disk loaded := by
  intro hres
  have hrec := hk.record old hold
  rw [(hrec.committed hs).2] at hres
  have hl := hres.2.2
  rw [← eq_of_resumes hrec.schema hres, hs] at hl
  cases hl

/-- **A checkpoint is committed only after this attempt's verification.**  In every careful
history over a record on disk that keeps to its layout, every call is sound. -/
theorem committed_after_verification (identity : CheckpointIdentity) {disk : StoredCheckpoint}
    (hdisk : DiskInLayout identity disk) (calls : List CheckpointCall) (call : CheckpointCall)
    {s s' : CheckpointSession} (hrun : Runs.run (carefulStep identity) (start disk) calls = some s)
    (hstep : s.carefulStep identity call = some s') : SoundStep identity s call s' := by
  have hkept : Kept identity s :=
    Runs.run_invariant (fun _ _ _ h hk => kept_step hk h) hrun (kept_start hdisk)
  obtain ⟨hcareful, hstep⟩ := carefulStep_some hstep
  obtain ⟨now, read, cap, write, rfl, rfl | rfl | ⟨loaded, cp, hres, rfl, rfl⟩⟩ |
      ⟨cp, out, hcp, hout, rfl⟩ :=
    step_cases hstep
  · exact soundStep_refused rfl
  · refine soundStep_opened rfl ?_ (fun _ _ => .inl ⟨now, read, cap, write, rfl, rfl, rfl⟩)
      (fun _ _ _ => ⟨now, read, cap, write, rfl, rfl, rfl⟩)
    intro hs
    cases hs
  · obtain ⟨record, hfound, hmigrate, -⟩ := load_found hres.1
    refine soundStep_opened rfl ?_ ?_
      (fun old hold hs => absurd hres (not_resumes_of_committed hkept hold hs))
    · intro hs
      cases hs
    · intro d hd
      rw [hfound] at hd
      obtain rfl := found.inj hd
      refine .inr ?_
      intro part receipt hr
      rwa [← (migrate_keeps hmigrate).1] at hr
  · exact soundStep_operation hkept hcp hcareful hout

/-- A transfer of one part. -/
def onePart : CheckpointIdentity where
  transferKey := "key"
  source := { localPath := "/a", size := 10, modifiedUnixNanos := none }
  destination :=
    { provider := "s3", protocol := "https", host := "h", account := "a", remotePath := "/a" }
  layout := { totalSize := 10, totalParts := 1, preferredPartSize := 10 }

def firstReceipt : CheckpointPartReceipt := { partNumber := 1, etag := "e" }

/-- A record of the first schema whose transfer was reported as done. -/
def legacyDone : MultipartCheckpoint where
  schemaVersion := 1
  identity := onePart
  uploadId := some "u"
  receipts := AList.singleton 1 firstReceipt
  attempts := 1
  status := .committed
  updatedUnixSecs := 0

theorem committed_after_verification_legacy :
    ∃ s s', Runs.run (carefulStep onePart) (start (.found legacyDone))
        [.openOrCreate 1 (.ok ()) (.ok ()) (.ok ()), .markVerified 2 (.ok ())] = some s ∧
      s.carefulStep onePart (.markCommitted 3 (.ok ())) = some s' ∧
      s'.checkpoint.map (·.status) = some .committed ∧
      SoundStep onePart s (.markCommitted 3 (.ok ())) s' := by
  have hdisk : DiskInLayout onePart (.found legacyDone) := by
    intro loaded hres part hr
    obtain ⟨record, hfound, hmigrate, -⟩ := load_found hres.1
    obtain rfl := found.inj hfound
    obtain ⟨hreceipts, hid, -⟩ := migrate_keeps hmigrate
    rw [hreceipts] at hr
    have hpart : part = 1 := by
      have hmem := AList.lookup_isSome.mp hr
      exact mem_singleton.mp (AList.mem_keys.mp hmem)
    subst hpart
    show 1 ≤ 1 ∧ 1 ≤ loaded.identity.layout.totalParts
    rw [hid]
    decide
  exact ⟨_, _, rfl, rfl, rfl, committed_after_verification onePart hdisk
    [.openOrCreate 1 (.ok ()) (.ok ()) (.ok ()), .markVerified 2 (.ok ())]
    (.markCommitted 3 (.ok ())) rfl rfl⟩

/-- The write of `mark_verified` fails and the call with it; `mark_committed` then commits
the record that no successful verification has seen. -/
theorem unverified_committed :
    ∃ s s', Runs.run (step onePart) (start .absent)
        [.openOrCreate 1 (.ok ()) (.ok ()) (.ok ()), .begin "u" 2 (.ok ()),
          .recordReceipt firstReceipt 3 (.ok ()), .markVerified 4 (.error "no space")] = some s ∧
      s.step onePart (.markCommitted 5 (.ok ())) = some s' ∧
      s'.log.head?.map (·.2) = some true ∧ s'.checkpoint.map (·.status) = some .committed ∧
      verifiedSinceOpen s.log = false ∧ ¬ SoundStep onePart s (.markCommitted 5 (.ok ())) s' := by
  refine ⟨_, _, rfl, rfl, rfl, rfl, rfl, ?_⟩
  intro h
  refine absurd (h.commits _ rfl rfl ?_).2 Bool.false_ne_true
  intro hsame
  have hstatus : some CheckpointStatus.verified = some .committed :=
    congrArg (Option.map MultipartCheckpoint.status) hsame
  cases hstatus

end CheckpointSession

end AeroFtp.Dag
