/-
A resumable HTTP download out of place: `HttpResume` and `resume_http_download` of
`providers/mod.rs`, `ResumableFile` of `providers/atomic_write.rs` and
`RangeSourceFingerprint` of `providers/multi_thread.rs`.

A download writes to a part next to the file and renames it when it is whole.  A part that is
left keeps a record of the source and the version it was started from.  A later call goes on
from the part if the record names its source and the answer shows the recorded version, and
otherwise starts over.

A call sends two requests at most, one for the tail behind the part and one for the whole file;
what is answered is given by the range that is asked for.
-/
import Mathlib.Data.List.Basic

namespace AeroFtp.Providers.HttpResume

abbrev Bytes := List UInt8
abbrev Text := List Char

/-! ### Versions -/

structure RangeSourceFingerprint where
  size : Nat
  modified : Option Text
  validator : Option Text
  deriving DecidableEq, Repr

/-- What `differs_from` finds changed. -/
inductive Change
  | entityTag (before after : Text)
  | entityTagGone (before : Text)
  | size (before after : Nat)
  | modified (before after : Text)
  | modifiedGone (before : Text)
  deriving DecidableEq, Repr

/-- Why a part is not gone on from. -/
inductive Why
  | noRecord
  | noVersion
  | changed (what : Change)
  | longer (partLen size : Nat)
  /-- The answer does not give a complete `Content-Range`. -/
  | contentRange
  /-- Another range than the tail asked for. -/
  | anotherRange
  /-- The length disagrees with the `Content-Range`. -/
  | contentLength
  | noLength
  | lastByte
  /-- The byte asked for twice is not the part's. -/
  | overlap
  /-- The file is shorter than the part. -/
  | notSatisfiable
  deriving DecidableEq, Repr

namespace RangeSourceFingerprint

def pinsAVersion (self : RangeSourceFingerprint) : Bool :=
  self.validator.isSome || self.modified.isSome

/-- One of the comparisons of `differs_from`: what was there is still there. -/
def differsIn (becomes : Text → Text → Change) (gone : Text → Change) :
    Option Text → Option Text → Option Change
  | some before, some after => if before ≠ after then some (becomes before after) else none
  | some before, none => some (gone before)
  | none, _ => none

def differsFrom (self other : RangeSourceFingerprint) : Option Change :=
  (differsIn .entityTag .entityTagGone self.validator other.validator).or
    (if self.size ≠ other.size then some (.size self.size other.size)
    else differsIn .modified .modifiedGone self.modified other.modified)

def refusesPart (self : RangeSourceFingerprint) (recorded : Option RangeSourceFingerprint)
    (partLen : Nat) : Option Why :=
  match recorded with
  | none => some .noRecord
  | some recorded =>
    if !recorded.pinsAVersion then some .noVersion
    else
      match recorded.differsFrom self with
      | some changed => some (.changed changed)
      | none => if partLen > self.size then some (.longer partLen self.size) else none

end RangeSourceFingerprint

/-! ### The part on disk -/

/-- The digest of provider, endpoint, account and path. -/
structure ResumeSource where
  digest : Text
  deriving DecidableEq, Repr

structure PartRecord where
  source : RangeSourceFingerprint
  provenance : Option ResumeSource
  deriving DecidableEq, Repr

/-- What is at the names of a download: the part (`.aerotmp`), the record as it is read
(`.aerosrctmp`) and the file itself. -/
structure Folder where
  part : Option Bytes
  record : Option PartRecord
  file : Option Bytes
  deriving DecidableEq, Repr

/-- A part that is written, with what else is in the folder. -/
structure ResumableFile where
  part : Bytes
  record : Option PartRecord
  file : Option Bytes
  offset : Nat
  recorded : Option RangeSourceFingerprint
  provenance : Option ResumeSource
  deriving DecidableEq, Repr

namespace ResumableFile

def freshAt (folder : Folder) : ResumableFile := ⟨[], none, folder.file, 0, none, none⟩

/-- `open_resume_in`, out of place. -/
def openResumeIn (folder : Folder) : ResumableFile :=
  match folder.part with
  | some part =>
    { part, record := folder.record, file := folder.file, offset := part.length,
      recorded := folder.record.map (·.source), provenance := folder.record.bind (·.provenance) }
  -- a new part: a record that was left is removed
  | none => freshAt folder

variable (self : ResumableFile)

def keepForResume : Folder := ⟨some self.part, self.record, self.file⟩

def discard : Folder := ⟨none, none, self.file⟩

def startOver : ResumableFile :=
  { freshAt self.discard with provenance := self.provenance }

/-- `commit`, with whether the content check before publishing passes. -/
def commit (contentMatches : Bool) : Folder :=
  if contentMatches then ⟨none, none, some self.part⟩ else self.discard

def bindSource (source : ResumeSource) : ResumableFile :=
  let part := if 0 < self.offset ∧ self.provenance ≠ some source then self.startOver else self
  { part with provenance := some source }

/-- `record_source`, with whether the record can be written. -/
def recordSource (source : RangeSourceFingerprint) (written : Bool) : ResumableFile :=
  if !source.pinsAVersion then { self with record := none, recorded := none }
  else if written then
    { self with record := some ⟨source, self.provenance⟩, recorded := some source }
  else { self with record := none, recorded := none }

end ResumableFile

/-! ### Answers -/

inductive StatusCode
  | ok
  | partialContent
  | rangeNotSatisfiable
  | notFound
  | other (code : Nat)
  deriving DecidableEq, Repr

/-- An answer: its headers as they are read (`parse_content_range`, and texts that are not
empty), the chunks of its body as they come, and whether the body then ends or breaks off. -/
structure Response where
  status : StatusCode
  contentLength : Option Nat
  contentRange : Option (Nat × Nat × Option Nat)
  etag : Option Text
  lastModified : Option Text
  chunks : List Bytes
  ended : Bool
  deriving DecidableEq, Repr

/-- `RangeSourceFingerprint::of_answer`. -/
def Response.ofAnswer (response : Response) : Option RangeSourceFingerprint :=
  let size :=
    if response.status = .partialContent then response.contentRange.bind (·.2.2) else
      response.contentLength
  size.map fun size => ⟨size, response.lastModified, response.etag⟩

/-- How `stream_answer_to_part` ends. -/
inductive Streamed
  | continued
  /-- The byte asked for twice differs, or the answer is empty. -/
  | differs
  | failed
  deriving DecidableEq, Repr

/-- `stream_answer_to_part`: what the part then holds, and how it ended. -/
def streamAnswerToPart (ended : Bool) (total : Option Nat) :
    List Bytes → Option UInt8 → Nat → Bytes → Bytes × Streamed
  | [], overlap, transferred, part =>
    if !ended then (part, .failed)
    else if overlap.isNone && total.any (transferred ≠ ·) then (part, .failed)
    else (part, if overlap.isNone then .continued else .differs)
  | [] :: chunks, some expected, transferred, part =>
    streamAnswerToPart ended total chunks (some expected) transferred part
  | (first :: data) :: chunks, some expected, transferred, part =>
    if first ≠ expected then (part, .differs)
    else if total.any (transferred + data.length > ·) then (part, .failed)
    else streamAnswerToPart ended total chunks none (transferred + data.length) (part ++ data)
  | data :: chunks, none, transferred, part =>
    if total.any (transferred + data.length > ·) then (part, .failed)
    else streamAnswerToPart ended total chunks none (transferred + data.length) (part ++ data)

/-! ### A download -/

/-- What local calls answer. -/
structure Local where
  recordWritten : Bool
  lastByteRead : Bool
  contentMatches : Bool
  deriving DecidableEq, Repr

/-- What `accept` makes of an answer, with the folder where the part is closed. -/
inductive HttpResumeStep
  | done (folder : Folder)
  | startOver (next : ResumableFile)
  | failed (folder : Folder)
  deriving DecidableEq, Repr

/-- `HttpResume::open`. -/
def openPart (folder : Folder) (source : ResumeSource) : ResumableFile :=
  let part := (ResumableFile.openResumeIn folder).bindSource source
  let unrecorded := !part.recorded.any (·.pinsAVersion)
  if 0 < part.offset ∧ unrecorded then part.startOver else part

variable (part : ResumableFile)

/-- `HttpResume::range`: the first byte that is asked for. -/
def range : Option Nat := if 0 < part.offset then some (part.offset - 1) else none

/-- `HttpResume::refusal`, out of place. -/
def refusal (response : Response) (answer : Option RangeSourceFingerprint)
    (offset : Nat) : Option Why :=
  match response.contentRange with
  | some (start, stop, some total) =>
    if start ≠ offset - 1 ∨ total = 0 ∨ stop ≠ total - 1 ∨ start > stop then some .anotherRange
    else if response.contentLength.any (· ≠ stop - start + 1) then some .contentLength
    else
      match answer with
      | none => some .noLength
      | some answer => answer.refusesPart part.recorded offset
  | _ => some .contentRange

/-- `HttpResume::publish`. -/
def publish (contentMatches : Bool) : HttpResumeStep :=
  if contentMatches then .done (part.commit contentMatches) else
    .failed (part.commit contentMatches)

variable (here : Local) (part : ResumableFile)

/-- `HttpResume::accept`, for a `206`. -/
def acceptPartial (response : Response) : HttpResumeStep :=
  match refusal part response response.ofAnswer part.offset with
  | some _ => .startOver part.startOver
  | none =>
    if !here.lastByteRead then .startOver part.startOver
    else
      let total := (response.ofAnswer.map (·.size)).getD 0
      match streamAnswerToPart response.ended (some total) response.chunks part.part.getLast?
          part.offset part.part with
      | (bytes, .continued) => publish { part with part := bytes } here.contentMatches
      | (bytes, .differs) => .startOver { part with part := bytes }.startOver
      | (bytes, .failed) => .failed { part with part := bytes }.keepForResume

/-- The part a `200` is written to: an empty one, with the answer recorded if it gives a length. -/
def partForWhole (response : Response) : ResumableFile :=
  let part := if 0 < part.offset then part.startOver else part
  match response.ofAnswer with
  | some answer => part.recordSource answer here.recordWritten
  | none => part

/-- `HttpResume::accept`, for a `200`. -/
def acceptWhole (response : Response) : HttpResumeStep :=
  let part := partForWhole here part response
  match streamAnswerToPart response.ended response.contentLength response.chunks none part.offset
    part.part with
  | (bytes, .failed) => .failed { part with part := bytes }.keepForResume
  | (bytes, _) => publish { part with part := bytes } here.contentMatches

/-- `HttpResume::accept`. -/
def accept (response : Response) : HttpResumeStep :=
  match response.status with
  | .partialContent =>
    if 0 < part.offset then acceptPartial here part response else .failed part.keepForResume
  | .rangeNotSatisfiable =>
    if 0 < part.offset then .startOver part.startOver else .failed part.keepForResume
  | .ok => acceptWhole here part response
  | .notFound => .failed part.discard
  | .other _ => .failed part.keepForResume

/-- A call: its source, what is answered to a request with this range (none where nothing is
answered), and what local calls answer. -/
structure Call where
  source : ResumeSource
  send : Option Nat → Option Response
  here : Local

/-- How a call ends: the folder, whether the file was published, and the answers it had. -/
structure Ended where
  folder : Folder
  published : Bool
  answers : List Response
  deriving DecidableEq, Repr

def Ended.after (response : Response) (e : Ended) : Ended :=
  { e with answers := response :: e.answers }

/-- The loop of `resume_http_download`, for so many requests at most. -/
def requests (call : Call) : Nat → ResumableFile → Ended
  | 0, part => ⟨part.keepForResume, false, []⟩
  | n + 1, part =>
    match call.send (range part) with
    | none => ⟨part.keepForResume, false, []⟩
    | some response =>
      match accept call.here part response with
      | .done folder => ⟨folder, true, [response]⟩
      | .failed folder => ⟨folder, false, [response]⟩
      | .startOver next =>
        if (range part).isSome then (requests call n next).after response
        -- a download of the whole file was answered with a part of it
        else ⟨next.keepForResume, false, [response]⟩

/-- `resume_http_download`: one request for the tail, and one for the whole file where that
fails. -/
def resumeHttpDownload (call : Call) (folder : Folder) : Ended :=
  requests call 2 (openPart folder call.source)

end AeroFtp.Providers.HttpResume
