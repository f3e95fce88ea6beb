/-
What a resumed HTTP download publishes.

A part that is kept with a record holds the first bytes of the version the record names.  That
is what a call has to leave behind: then a tail that is answered for the recorded version fits
the part, and what is published is that version.

It is so unless a call finds an empty part with a record, is answered without a length, and is
cut after its first byte: the answer is not recorded, the old record stays, and the part holds
bytes of another version than its record says.
-/
import AeroFtp.Providers.HttpResume
import Mathlib.Data.List.Induction

namespace AeroFtp.Providers.HttpResume

open RangeSourceFingerprint ResumableFile List Option

/-! ### Versions -/

theorem eq_some_of_differsIn {becomes : Text → Text → Change} {gone : Text → Change}
    {before after : Option Text} (h : differsIn becomes gone before after = none) {tag : Text}
    (htag : before = some tag) : after = some tag := by
  subst htag
  cases after with
  | none => cases h
  | some after =>
    rw [differsIn] at h
    by_cases heq : tag = after
    · rw [heq]
    · rw [if_pos heq] at h
      cases h

/-- What is not found changed has the same size, and the validators that were recorded. -/
structure Matches (recorded answer : RangeSourceFingerprint) : Prop where
  size : recorded.size = answer.size
  validator : ∀ tag, recorded.validator = some tag → answer.validator = some tag
  modified : ∀ time, recorded.modified = some time → answer.modified = some time

theorem matches_of_differsFrom {recorded answer : RangeSourceFingerprint}
    (h : recorded.differsFrom answer = none) : Matches recorded answer := by
  obtain ⟨hv, hr⟩ := or_eq_none_iff.mp h
  by_cases hs : recorded.size = answer.size
  · rw [if_neg (not_not.mpr hs)] at hr
    exact ⟨hs, fun _ => eq_some_of_differsIn hv, fun _ => eq_some_of_differsIn hr⟩
  · rw [if_pos hs] at hr
    cases hr

theorem matches_of_refusesPart {answer : RangeSourceFingerprint}
    {recorded : RangeSourceFingerprint} {len : Nat}
    (h : answer.refusesPart (some recorded) len = none) : Matches recorded answer := by
  rw [refusesPart] at h
  split at h
  · cases h
  · split at h
    · cases h
    · next hs => exact matches_of_differsFrom hs

/-! ### What is streamed into a part -/

section Stream

variable {ended : Bool} {total : Option Nat}

/-- What a stream does to a part: it writes some of the body, behind the byte that is asked for
twice, and goes on to its end only if all of it was written and has the length.  Without a length
only a body that breaks off fails. -/
def Writes (ended : Bool) (total : Option Nat) (body : Bytes) (overlap : Option UInt8)
    (transferred : Nat) (written : Bytes) : Streamed → Prop
  | .continued => overlap.toList ++ written = body ∧ ended = true ∧
      ∀ n, total = some n → transferred + written.length = n
  | .differs => overlap ≠ none
  | .failed => (written = [] ∨ overlap.toList ++ written <+: body) ∧ (total = none → ended = false)

theorem writes_data (overlap : Option UInt8) {chunks : List Bytes} {transferred : Nat}
    {data written : Bytes} {result : Streamed}
    (h : Writes ended total chunks.flatten none (transferred + data.length) written result) :
    Writes ended total ((overlap.toList ++ data) :: chunks).flatten overlap transferred
      (data ++ written) result := by
  cases result with
  | continued =>
    obtain ⟨hb, he, hlen⟩ := h
    refine ⟨?_, he, fun n hn => ?_⟩
    · rw [flatten_cons, ← hb, toList_none, nil_append, append_assoc]
    · rw [← hlen n hn, length_append, Nat.add_assoc]
  | differs => exact absurd rfl h
  | failed =>
    refine ⟨.inr ?_, h.2⟩
    rw [flatten_cons, ← append_assoc]
    refine (prefix_append_right_inj _).mpr ?_
    rcases h.1 with rfl | hb
    · exact nil_prefix
    · exact hb

theorem streamAnswerToPart_writes (ended : Bool) (total : Option Nat) (chunks : List Bytes)
    (overlap : Option UInt8) (transferred : Nat) (part : Bytes) :
    ∃ written, (streamAnswerToPart ended total chunks overlap transferred part).1
      = part ++ written ∧ Writes ended total chunks.flatten overlap transferred written
        (streamAnswerToPart ended total chunks overlap transferred part).2 := by
  induction chunks generalizing overlap transferred part with
  | nil =>
    refine ⟨[], ?_⟩
    rw [append_nil, streamAnswerToPart]
    split
    · next he => exact ⟨rfl, .inl rfl, fun _ => by simpa using he⟩
    next he =>
    split
    · next hs => exact ⟨rfl, .inl rfl, fun hnone => by simp [hnone] at hs⟩
    next hs =>
    cases overlap with
    | none => exact ⟨rfl, rfl, by simpa using he, fun n hn => by simpa [hn] using hs⟩
    | some byte => exact ⟨rfl, fun h => nomatch h⟩
  | cons chunk chunks ih =>
    -- what is done with the data of the chunk, behind the byte that is asked for twice
    have hd : ∀ (overlap : Option UInt8) (data : Bytes) (result : Bytes × Streamed),
        result = (if total.any (transferred + data.length > ·) then (part, .failed)
          else streamAnswerToPart ended total chunks none (transferred + data.length)
            (part ++ data)) →
        ∃ written, result.1 = part ++ written ∧
          Writes ended total ((overlap.toList ++ data) :: chunks).flatten overlap transferred
            written result.2 := by
      intro overlap data result hr
      subst hr
      split
      · next htoo =>
          exact ⟨[], (append_nil part).symm, .inl rfl, fun hnone => by simp [hnone] at htoo⟩
      · obtain ⟨written, hp, hw⟩ := ih none (transferred + data.length) (part ++ data)
        exact ⟨data ++ written, by rw [hp, append_assoc], writes_data overlap hw⟩
    cases overlap with
    | none => exact hd none chunk _ (by rw [streamAnswerToPart])
    | some expected =>
      cases chunk with
      | nil => exact ih (some expected) transferred part
      | cons first data =>
        rw [streamAnswerToPart]
        by_cases hf : first = expected
        · rw [if_neg (not_not.mpr hf), ← hf]
          exact hd (some first) data _ rfl
        · rw [if_pos hf]
          exact ⟨[], (append_nil part).symm, fun h => nomatch h⟩

end Stream

/-! ### Servers -/

/-- `names s r c` says that `r`, an answer to a call of the source `s`, is about the version with
the content `c`. -/
abbrev Naming := ResumeSource → Response → Bytes → Prop

/-- What is assumed of the servers. -/
structure Honest (names : Naming) : Prop where
  /-- A `200` carries a version from its first byte, and its length if it gives one. -/
  whole : ∀ {s r c}, names s r c → r.status = .ok →
    r.chunks.flatten <+: c ∧ ∀ n, r.contentLength = some n → n = c.length
  /-- A `206` carries a version from the byte its range starts with. -/
  tail : ∀ {s r c}, names s r c → r.status = .partialContent → ∀ {start stop total},
    r.contentRange = some (start, stop, some total) → total = c.length ∧
      r.chunks.flatten <+: c.drop start
  /-- Equal size and equal validators of the record are equal content. -/
  pins : ∀ {s r c r' c' recorded answer}, names s r c → names s r' c' → r.ofAnswer = some recorded →
    r'.ofAnswer = some answer → recorded.pinsAVersion = true → Matches recorded answer → c = c'

variable {names : Naming} {folder : Folder} {source : ResumeSource}
  {part : ResumableFile} {r : Response} {c : Bytes}

/-- What every call leaves behind: a part with a record holds the first bytes of the version the
record names. -/
def Kept (names : Naming) (folder : Folder) : Prop :=
  ∀ part record source, folder.part = some part → part ≠ [] → folder.record = some record →
    record.provenance = some source →
    ∃ r c, names source r c ∧ r.ofAnswer = some record.source ∧ part <+: c

theorem kept_of_part_none (h : folder.part = none) : Kept names folder := by
  intro part _ _ hp
  rw [h] at hp
  cases hp

/-- A part that a call of the source can go on from. -/
structure Ready (names : Naming) (folder : Folder)
    (source : ResumeSource) (part : ResumableFile) : Prop where
  offset : part.offset = part.part.length
  provenance : part.provenance = some source
  started : 0 < part.offset → ∃ recorded r c, part.recorded = some recorded ∧
    part.record = some ⟨recorded, some source⟩ ∧ recorded.pinsAVersion = true ∧ names source r c ∧
    r.ofAnswer = some recorded ∧ part.part <+: c
  /-- A record next to an empty part is one that was found there. -/
  stale : part.offset = 0 → part.record ≠ none → folder.part = some [] ∧ folder.record ≠ none

theorem ready_startOver (h : part.provenance = some source) :
    Ready names folder source part.startOver :=
  ⟨rfl, h, fun hlt => absurd hlt (Nat.lt_irrefl 0), fun _ hr => absurd rfl hr⟩

/-- **What a call opens is of its source**, and what is in it is of the version its record names. -/
theorem ready_openPart (h : Kept names folder) :
    Ready names folder source (openPart folder source) := by
  obtain ⟨found, record, file⟩ := folder
  cases found with
  | none =>
    exact ⟨rfl, rfl, fun hlt => absurd hlt (Nat.lt_irrefl 0), fun _ hrecord => absurd rfl hrecord⟩
  | some bytes =>
    unfold openPart
    simp only
    split
    · exact ready_startOver rfl
    next hk =>
    unfold bindSource openResumeIn at hk ⊢
    simp only at hk ⊢
    split
    · exact ⟨rfl, rfl, fun hlt => absurd hlt (Nat.lt_irrefl 0), fun _ hrecord => absurd rfl hrecord⟩
    next hb =>
    rw [if_neg hb] at hk
    refine ⟨rfl, rfl, fun hlt => ?_, fun hz hrecord => ?_⟩
    · -- the record is of this source and names a version
      have hprov : record.bind (·.provenance) = some source := by
        by_contra hne
        exact hb ⟨hlt, hne⟩
      obtain ⟨rec, rfl, hrec⟩ := bind_eq_some_iff.mp hprov
      obtain ⟨r, c, hnames, hanswer, hpre⟩ :=
        h bytes rec source rfl (ne_nil_of_length_pos hlt) rfl hrec
      have hpins : rec.source.pinsAVersion = true := by
        by_contra hno
        exact hk ⟨hlt, by simp [hno]⟩
      refine ⟨rec.source, r, c, rfl, ?_, hpins, hnames, hanswer, hpre⟩
      rw [← hrec]
    · rw [length_eq_zero_iff.mp hz]
      exact ⟨rfl, hrecord⟩

theorem Ready.kept (h : Ready names folder source part) : Kept names part.keepForResume := by
  intro bytes record source' hb hne hrecord hprov
  have hpart : part.part = bytes := some.inj hb
  subst hpart
  obtain ⟨recorded, r, c, _, hrec, _, hnames, hanswer, hpre⟩ :=
    h.started (by rw [h.offset]; exact length_pos_of_ne_nil hne)
  obtain rfl := some.inj (hrecord.symm.trans hrec)
  cases hprov
  exact ⟨r, c, hnames, hanswer, hpre⟩

/-! ### An answer -/

/-- What an answer comes to. -/
def Accepts (names : Naming) (folder : Folder)
    (source : ResumeSource) (r : Response) : HttpResumeStep → Prop
  | .done after => after.part = none ∧ ∃ c, names source r c ∧ after.file = some c
  | .failed after => Kept names after
  | .startOver next => Ready names folder source next ∧ next.offset = 0

theorem accepts_publish (contentMatches : Bool) (hnames : names source r c) (hp : part.part = c) :
    Accepts names folder source r (publish part contentMatches) := by
  cases contentMatches with
  | true => exact ⟨rfl, c, hnames, congrArg some hp⟩
  | false => exact kept_of_part_none rfl

theorem accepts_startOver (h : part.provenance = some source) :
    Accepts names folder source r (.startOver part.startOver) :=
  ⟨ready_startOver h, rfl⟩

theorem append_isPrefix {bytes written body : Bytes} {byte : UInt8} (hpre : bytes <+: c)
    (hl : bytes.getLast? = some byte) (hw : [byte] ++ written <+: body)
    (hb : body <+: c.drop (bytes.length - 1)) : bytes ++ written <+: c := by
  obtain ⟨front, rfl⟩ := getLast?_eq_some_iff.mp hl
  obtain ⟨rest, rfl⟩ := hpre
  have hd : (front ++ [byte] ++ rest).drop ((front ++ [byte]).length - 1) = [byte] ++ rest := by
    rw [length_append, length_singleton, Nat.add_sub_cancel, append_assoc, drop_left]
  rw [hd] at hb
  have hr := (prefix_append_right_inj _).mp (hw.trans hb)
  exact (prefix_append_right_inj _).mpr hr

theorem refusal_eq_none {offset : Nat} (h : refusal part r r.ofAnswer offset = none) :
    ∃ start stop total answer, r.contentRange = some (start, stop, some total) ∧
      start = offset - 1 ∧
      r.ofAnswer = some answer ∧ answer.refusesPart part.recorded offset = none := by
  unfold refusal at h
  split at h
  · next start stop total hr =>
      split at h
      · cases h
      next hs =>
      split at h
      · cases h
      cases ha : r.ofAnswer with
      | none => rw [ha] at h; cases h
      | some answer =>
        rw [ha] at h
        refine ⟨start, stop, total, answer, hr, ?_, rfl, h⟩
        by_contra hne
        exact hs (.inl hne)
  · cases h

section Accept

variable (hhonest : Honest names) (hready : Ready names folder source part)
  (hnames : names source r c)

include hhonest hready hnames

theorem acceptPartial_spec (here : Local) (hstatus : r.status = .partialContent)
    (hlt : 0 < part.offset) : Accepts names folder source r (acceptPartial here part r) := by
  obtain ⟨recorded, r₀, c₀, hrec, hrecord, hpins, hnames₀, hanswer₀, hpre⟩ := hready.started hlt
  unfold acceptPartial
  cases hrefusal : refusal part r r.ofAnswer part.offset with
  | some why => exact accepts_startOver hready.provenance
  | none =>
    simp only
    split
    · exact accepts_startOver hready.provenance
    obtain ⟨start, stop, total, answer, hrange, hstart, hanswer, hrefuses⟩ :=
      refusal_eq_none hrefusal
    -- the answer is of the recorded version
    rw [hrec] at hrefuses
    obtain rfl : c₀ = c :=
      hhonest.pins hnames₀ hnames hanswer₀ hanswer hpins (matches_of_refusesPart hrefuses)
    obtain ⟨ht, hbody⟩ := hhonest.tail hnames hstatus hrange
    have hsize : answer.size = c₀.length := by
      simp only [Response.ofAnswer, hstatus, hrange, if_true, bind_some, map_some,
        some.injEq] at hanswer
      rw [← hanswer, ht]
    rw [hanswer, map_some, getD_some]
    have hne : part.part ≠ [] := ne_nil_of_length_pos (by rw [← hready.offset]; exact hlt)
    have hlast := getLast?_eq_some_getLast hne
    obtain ⟨written, hpart, hwrites⟩ :=
      streamAnswerToPart_writes r.ended (some answer.size) r.chunks
      part.part.getLast? part.offset part.part
    rw [hstart, hready.offset] at hbody
    have hk : written = [] ∨ part.part.getLast?.toList ++ written <+: r.chunks.flatten →
        part.part ++ written <+: c₀ := by
      rintro (rfl | hwritten)
      · rwa [append_nil]
      · rw [hlast] at hwritten
        exact append_isPrefix hpre hlast hwritten hbody
    generalize hstr : streamAnswerToPart r.ended (some answer.size) r.chunks part.part.getLast?
      part.offset part.part = streamed at hpart hwrites
    obtain ⟨bytes, result⟩ := streamed
    subst hpart
    cases result with
    | continued =>
      obtain ⟨hall, _, hlen⟩ := hwrites
      refine accepts_publish here.contentMatches hnames
        ((hk (.inr (hall ▸ prefix_rfl))).eq_of_length ?_)
      rw [length_append, ← hready.offset, hlen _ rfl, hsize]
    | differs => exact accepts_startOver hready.provenance
    | failed =>
      intro bytes record source' hbytes _ hrecord' hprov
      cases hbytes
      obtain rfl := some.inj (hrecord'.symm.trans hrecord)
      cases hprov
      exact ⟨r₀, c₀, hnames₀, hanswer₀, hk hwrites.1⟩

omit hhonest hnames in
/-- A whole answer is written to an empty part.  Its record is that of the answer, or was found
there and the answer gives no length. -/
theorem partForWhole_spec (here : Local) (hs : r.status = .ok) :
    (partForWhole here part r).part = [] ∧ (partForWhole here part r).offset = 0 ∧
      ∀ record, (partForWhole here part r).record = some record →
        (record.provenance = some source ∧ r.ofAnswer = some record.source) ∨
          r.contentLength = none ∧ part.offset = 0 ∧ part.record ≠ none := by
  have hanswer : r.ofAnswer = r.contentLength.map fun size => ⟨size, r.lastModified, r.etag⟩ := by
    rw [Response.ofAnswer, if_neg (by rw [hs]; decide)]
  unfold partForWhole
  generalize hfirst : (if 0 < part.offset then part.startOver else part) = first
  have hnew : first.part = [] ∧ first.offset = 0 ∧ first.provenance = some source ∧
      (first.record ≠ none → part.offset = 0 ∧ part.record ≠ none) := by
    rw [← hfirst]
    split
    · exact ⟨rfl, rfl, hready.provenance, fun hrecord => absurd rfl hrecord⟩
    · next hz =>
        have hz : part.offset = 0 := by omega
        refine ⟨length_eq_zero_iff.mp (hready.offset.symm.trans hz), hz, hready.provenance, ?_⟩
        exact fun hrecord => ⟨hz, hrecord⟩
  obtain ⟨hpart, ho, hprov, hfound⟩ := hnew
  cases hlen : r.contentLength with
  | none =>
    rw [hanswer, hlen]
    refine ⟨hpart, ho, fun record hrec => .inr ⟨rfl, hfound ?_⟩⟩
    rw [show first.record = some record from hrec]
    exact some_ne_none record
  | some n =>
    rw [hanswer, hlen, map_some]
    simp only [recordSource]
    split
    · exact ⟨hpart, ho, fun record hrec => nomatch hrec⟩
    split
    · refine ⟨hpart, ho, fun record hrec => ?_⟩
      cases hrec
      exact .inl ⟨hprov, rfl⟩
    · exact ⟨hpart, ho, fun record hrec => nomatch hrec⟩

/-- The version a whole answer carries is what is published of it, if a length or the transport
shows that the answer is whole. -/
theorem acceptWhole_spec (here : Local) (hstatus : r.status = .ok)
    (hended : r.contentLength = none → r.ended = true → r.chunks.flatten = c)
    (hempty : part.offset = 0 → part.record ≠ none → r.contentLength = none →
      r.ended = true ∨ r.chunks.flatten = []) :
    Accepts names folder source r (acceptWhole here part r) := by
  obtain ⟨hbody, hlength⟩ := hhonest.whole hnames hstatus
  obtain ⟨hpart, hoff, hrecord⟩ := partForWhole_spec hready here hstatus
  unfold acceptWhole
  simp only
  generalize partForWhole here part r = second at hpart hoff hrecord ⊢
  obtain ⟨written, hwritten, hwrites⟩ :=
    streamAnswerToPart_writes r.ended r.contentLength r.chunks none second.offset second.part
  generalize hstr : streamAnswerToPart r.ended r.contentLength r.chunks none second.offset
    second.part = streamed at hwritten hwrites
  obtain ⟨bytes, result⟩ := streamed
  simp only at hwritten hwrites
  rw [hpart] at hwritten
  subst hwritten
  cases result with
  | continued =>
    obtain ⟨hall, hend, hlen⟩ := hwrites
    refine accepts_publish here.contentMatches hnames ?_
    show bytes = c
    rw [toList_none, nil_append] at hall
    cases hg : r.contentLength with
    | none => rw [hall, hended hg hend]
    | some n =>
      have hn := hlen n hg
      rw [hoff, Nat.zero_add, hlength n hg] at hn
      rw [← hall] at hbody
      exact hbody.eq_of_length hn
  | differs => exact absurd rfl hwrites
  | failed =>
    intro bytes' record source' hbytes hne hrec hprov'
    cases hbytes
    have hpre : bytes <+: r.chunks.flatten := hwrites.1.resolve_left hne
    rcases hrecord record hrec with ⟨hsource, hof⟩ | ⟨hnone, hz, hf⟩
    · obtain rfl := some.inj (hsource.symm.trans hprov')
      exact ⟨r, c, hnames, hof, hpre.trans hbody⟩
    · -- the answer is not recorded: then it is not cut, or brings nothing
      rcases hempty hz hf hnone with hend | hnil
      · rw [hwrites.2 hnone] at hend
        cases hend
      · rw [hnil, prefix_nil] at hpre
        exact absurd hpre hne

omit hnames in
theorem accept_spec (here : Local)
    (hnamed : r.status = .ok ∨ r.status = .partialContent → ∃ c, names source r c)
    (hended : ∀ c, names source r c → r.status = .ok → r.contentLength = none → r.ended = true →
      r.chunks.flatten = c)
    (hempty : part.offset = 0 → part.record ≠ none → r.status = .ok → r.contentLength = none →
      r.ended = true ∨ r.chunks.flatten = []) :
    Accepts names folder source r (accept here part r) := by
  unfold accept
  cases hs : r.status with
  | ok =>
    obtain ⟨c, hnames⟩ := hnamed (.inl hs)
    exact acceptWhole_spec hhonest hready hnames here hs (hended c hnames hs)
      fun hz hrecord => hempty hz hrecord hs
  | partialContent =>
    simp only
    split
    · next hlt =>
        obtain ⟨c, hnames⟩ := hnamed (.inr hs)
        exact acceptPartial_spec hhonest hready hnames here hs hlt
    · exact hready.kept
  | rangeNotSatisfiable =>
    simp only
    split
    · exact accepts_startOver hready.provenance
    · exact hready.kept
  | notFound => exact kept_of_part_none rfl
  | other code => exact hready.kept

end Accept

/-! ### A call -/

/-- Every answer with a file or a part of it is about a version. -/
def Call.Named (names : Naming) (call : Call) : Prop :=
  ∀ start r, call.send start = some r → r.status = .ok ∨ r.status = .partialContent →
    ∃ c, names call.source r c

/-- What is asked of the answers to a call that finds this folder.  An answer of a whole file
without a length breaks off if it is cut.  And if there is an empty part with a record, such an
answer is not cut, unless before its first byte. -/
structure Met (names : Naming) (folder : Folder) (call : Call) : Prop where
  ended : ∀ start r c, call.send start = some r → names call.source r c → r.status = .ok →
    r.contentLength = none → r.ended = true → r.chunks.flatten = c
  recorded : folder.part = some [] → folder.record ≠ none → ∀ r, call.send none = some r →
    r.status = .ok → r.contentLength = none → r.ended = true ∨ r.chunks.flatten = []

/-- A call that publishes the file publishes a version that one of its answers named. -/
def Ended.OneVersion (names : Naming) (source : ResumeSource) (e : Ended) : Prop :=
  e.published = true → ∃ r ∈ e.answers, ∃ c, names source r c ∧ e.folder.file = some c

theorem requests_spec {call : Call} (hhonest : Honest names) (hnamed : call.Named names)
    (hmet : Met names folder call) (n : Nat) {part : ResumableFile}
    (hready : Ready names folder call.source part) :
    Kept names (requests call n part).folder ∧
      (requests call n part).OneVersion names call.source := by
  induction n generalizing part with
  | zero => exact ⟨hready.kept, fun h => nomatch h⟩
  | succ n ih =>
    rw [requests]
    cases hs : call.send (range part) with
    | none => exact ⟨hready.kept, fun h => nomatch h⟩
    | some r =>
      have hacc := accept_spec hhonest hready call.here (hnamed _ r hs)
        (fun c => hmet.ended _ r c hs) (fun hz hrecord => by
          have hrange : range part = none := by rw [range, if_neg (by omega)]
          rw [hrange] at hs
          obtain ⟨hpart, hfound⟩ := hready.stale hz hrecord
          exact hmet.recorded hpart hfound r hs)
      simp only
      cases haccept : accept call.here part r with
      | done after =>
        rw [haccept] at hacc
        obtain ⟨hnone, c, hc, hfile⟩ := hacc
        exact ⟨kept_of_part_none hnone, fun _ => ⟨r, mem_singleton_self r, c, hc, hfile⟩⟩
      | failed after =>
        rw [haccept] at hacc
        exact ⟨hacc, fun h => nomatch h⟩
      | startOver next =>
        rw [haccept] at hacc
        simp only
        split
        · obtain ⟨hk, hone⟩ := ih hacc.1
          refine ⟨hk, fun hpub => ?_⟩
          obtain ⟨r', hr', hv⟩ := hone hpub
          exact ⟨r', mem_cons_of_mem _ hr', hv⟩
        · exact ⟨hacc.1.kept, fun h => nomatch h⟩

/-! ### Histories -/

/-- The folder after a history of calls. -/
def after (start : Folder) (calls : List Call) : Folder :=
  calls.foldl (fun folder call => (resumeHttpDownload call folder).folder) start

theorem kept_after (hhonest : Honest names) {start : Folder} (hs : start.part = none)
    (calls : List Call) (hn : ∀ call ∈ calls, call.Named names)
    (hmet : ∀ before call rest, calls = before ++ call :: rest →
      Met names (after start before) call) : Kept names (after start calls) := by
  induction calls using reverseRecOn with
  | nil => exact kept_of_part_none hs
  | append_singleton calls call ih =>
    have hb := ih (fun call' h => hn call' (mem_append_left _ h))
      (fun before call' rest h => hmet before call' (rest ++ [call]) (by rw [h, append_assoc]; rfl))
    rw [after, foldl_append]
    exact (requests_spec hhonest (hn call (by simp)) (hmet calls call [] rfl) 2
      (ready_openPart hb)).1

/-- **In every history whose calls all meet the condition, a call that publishes the file
publishes one version of it**, the one that one of its answers named. -/
theorem published_one_version {names : ResumeSource → Response → Bytes → Prop}
    (hhonest : Honest names) {start : Folder} (hstart : start.part = none) (calls : List Call)
    (hnamed : ∀ call ∈ calls, call.Named names)
    (hmet : ∀ before call rest, calls = before ++ call :: rest →
      Met names (after start before) call)
    (before : List Call) (call : Call) (rest : List Call)
    (hcalls : calls = before ++ call :: rest) :
    (resumeHttpDownload call (after start before)).OneVersion names call.source := by
  subst hcalls
  have hkept : Kept names (after start before) :=
    kept_after hhonest hstart before (fun call' h => hnamed call' (mem_append_left _ h))
      fun before' call' rest' h =>
        hmet before' call' (rest' ++ call :: rest) (by rw [h, append_assoc]; rfl)
  exact (requests_spec hhonest (hnamed call (by simp)) (hmet before call rest rfl) 2
    (ready_openPart hkept)).2

/-! ### A file of three bytes, and another -/

def emptyFolder : Folder := ⟨none, none, none⟩

/-- A call of a source, answered so to the request it starts with. -/
def callOf (source : Text) (start : Option Nat) (response : Response) : Call where
  source := ⟨source⟩
  send asked := if asked = start then some response else none
  here := ⟨true, true, true⟩

/-- The version `a`, with its length, cut. -/
def cutAnswer (chunks : List Bytes) : Response :=
  ⟨.ok, some 3, none, some ['a'], none, chunks, false⟩

/-- The tail of the version `a`. -/
def tailAnswer : Response :=
  ⟨.partialContent, some 2, some (1, 2, some 3), some ['a'], none, [[2, 3]], true⟩

/-- Another version, without a length, cut. -/
def otherAnswer : Response := ⟨.ok, none, none, none, none, [[9, 2]], false⟩

/-- The answers and the versions they are about. -/
def versionOf (_ : ResumeSource) (r : Response) (c : Bytes) : Prop :=
  (r = cutAnswer [] ∨ r = cutAnswer [[1, 2]] ∨ r = tailAnswer) ∧ c = [1, 2, 3] ∨ r = otherAnswer ∧
    c = [9, 2, 9]

theorem versionOf_honest : Honest versionOf where
  whole := by
    intro s r c h hs
    rcases h with ⟨rfl | rfl | rfl, rfl⟩ | ⟨rfl, rfl⟩
    · exact ⟨by decide, fun n hn => (some.inj hn).symm⟩
    · exact ⟨by decide, fun n hn => (some.inj hn).symm⟩
    · cases hs
    · exact ⟨by decide, fun n hn => nomatch hn⟩
  tail := by
    intro s r c h hs start stop total hr
    rcases h with ⟨rfl | rfl | rfl, rfl⟩ | ⟨rfl, rfl⟩
    · cases hs
    · cases hs
    · cases hr
      decide
    · cases hs
  pins := by
    intro s r c r' c' recorded answer h h' hof hof' _ _
    rcases h with ⟨_, rfl⟩ | ⟨rfl, _⟩
    · rcases h' with ⟨_, rfl⟩ | ⟨rfl, _⟩
      · rfl
      · cases hof'
    · cases hof

theorem callOf_send {source : Text} {start asked : Option Nat} {response r : Response}
    (h : (callOf source start response).send asked = some r) : r = response := by
  have hs : (if asked = start then some response else none) = some r := h
  split at hs
  · exact (some.inj hs).symm
  · cases hs

theorem callOf_named {source : Text} {start : Option Nat} {response : Response} {c : Bytes}
    (h : versionOf ⟨source⟩ response c) : (callOf source start response).Named versionOf := by
  intro asked r hs _
  rw [callOf_send hs]
  exact ⟨c, h⟩

/-- A download that is cut after two bytes and resumed publishes the version. -/
theorem published_one_version_resumed :
    (resumeHttpDownload (callOf ['s'] (some 1) tailAnswer)
        (after emptyFolder [callOf ['s'] none (cutAnswer [[1, 2]])])).published = true ∧
      (resumeHttpDownload (callOf ['s'] (some 1) tailAnswer)
        (after emptyFolder [callOf ['s'] none (cutAnswer [[1, 2]])])).OneVersion versionOf
          ⟨['s']⟩ := by
  have hcut : versionOf ⟨['s']⟩ (cutAnswer [[1, 2]]) [1, 2, 3] := .inl ⟨.inr (.inl rfl), rfl⟩
  have htail : versionOf ⟨['s']⟩ tailAnswer [1, 2, 3] := .inl ⟨.inr (.inr rfl), rfl⟩
  have hmet : ∀ folder start response, response.contentLength ≠ none →
      Met versionOf folder (callOf ['s'] start response) := by
    intro folder start response hlen
    have hsent : ∀ asked r, (callOf ['s'] start response).send asked = some r →
        r.contentLength ≠ none := by
      intro asked r hsend
      rw [callOf_send hsend]
      exact hlen
    exact ⟨fun asked r c hsend _ _ hnone => absurd hnone (hsent asked r hsend),
      fun _ _ r hsend _ hnone => absurd hnone (hsent none r hsend)⟩
  refine ⟨by decide, ?_⟩
  refine published_one_version versionOf_honest rfl
    [callOf ['s'] none (cutAnswer [[1, 2]]), callOf ['s'] (some 1) tailAnswer] ?_ ?_
    [callOf ['s'] none (cutAnswer [[1, 2]])] (callOf ['s'] (some 1) tailAnswer) [] rfl
  · intro call hcall
    rcases mem_cons.mp hcall with rfl | hcall
    · exact callOf_named hcut
    · rw [mem_singleton.mp hcall]
      exact callOf_named htail
  · intro before call rest hcalls
    have hmem : call ∈ [callOf ['s'] none (cutAnswer [[1, 2]]),
        callOf ['s'] (some 1) tailAnswer] := by
      rw [hcalls]
      exact mem_append_right _ mem_cons_self
    rcases mem_cons.mp hmem with rfl | hmem
    · exact hmet _ none _ (by decide)
    · rw [mem_singleton.mp hmem]
      exact hmet _ (some 1) _ (by decide)

/-- A download of the source `s` is cut before its first byte, one of the source `t` into the
same part, answered without a length, after its second; then `s` goes on from that part, and the
file it publishes is neither version. -/
theorem resume_joins_versions :
    Honest versionOf ∧ emptyFolder.part = none ∧
      (callOf ['s'] none (cutAnswer [])).Named versionOf ∧
      (callOf ['t'] none otherAnswer).Named versionOf ∧
        (callOf ['s'] (some 1) tailAnswer).Named versionOf ∧
      ¬(resumeHttpDownload (callOf ['s'] (some 1) tailAnswer)
        (after emptyFolder [callOf ['s'] none (cutAnswer []),
          callOf ['t'] none otherAnswer])).OneVersion versionOf ⟨['s']⟩ := by
  refine ⟨versionOf_honest, rfl, callOf_named (.inl ⟨.inl rfl, rfl⟩),
    callOf_named (.inr ⟨rfl, rfl⟩), callOf_named (.inl ⟨.inr (.inr rfl), rfl⟩), fun hone => ?_⟩
  obtain ⟨r, _, c, hversion, hfile⟩ := hone (by decide)
  have hmixed : (resumeHttpDownload (callOf ['s'] (some 1) tailAnswer) (after emptyFolder
      [callOf ['s'] none (cutAnswer []), callOf ['t'] none otherAnswer])).folder.file = some
        [9, 2, 3] := by
    decide
  obtain rfl := some.inj (hmixed.symm.trans hfile)
  rcases hversion with ⟨_, hc⟩ | ⟨_, hc⟩
  · exact absurd hc (by decide)
  · exact absurd hc (by decide)

end AeroFtp.Providers.HttpResume
