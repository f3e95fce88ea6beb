/-
The entry of an upload comes back, unless its name or an id does not fit.

An entry that is read back has a name of at most 255 bytes, ids of 31 bits and attributes
within the ceilings, since a decoder returns no others.  An entry within these bounds is
consistent with its flags, once the encoder has passed its own assertions.
-/
import AeroFtp.Aerorsync.SourceEntry
import AeroFtp.Proofs.Aerorsync.XattrSection

namespace AeroFtp.RealWire

open Reader List Option

variable {flags : UInt32} {entry : FileListEntry} {w : List UInt8}

/-! ### What a decoder returns -/

theorem returns_decodeVarint : Returns decodeVarint fun x => x < 2 ^ 31 := by
  refine .bind .any fun ch _ => .ite (.pure ?_) (.ite .fail (.bind .any fun payload _ => .pure ?_))
  · have := ch.toNat_lt
    omega
  · exact Int32.toInt_lt _

theorem returns_decodeNameLen (hf : flags &&& xmitLongName = 0) :
    Returns (decodeNameLen flags) fun n => n ≤ 255 := by
  rw [decodeNameLen, if_neg (not_not.mpr hf)]
  exact .bind .any fun n _ => .pure (by have := n.toNat_lt; omega)

variable (options : FileListDecodeOptions)

theorem returns_decodeSameName (hf : flags &&& xmitSameName = 0) :
    Returns (decodeSameName options flags) fun shared => shared = [] := by
  rw [decodeSameName, if_neg (not_not.mpr hf)]
  exact .pure rfl

theorem returns_decodePathRest (l2 : Nat) :
    Returns (decodePathRest [] l2) fun path => path.bytes.length = l2 := by
  refine .bind .take fun rest hlen => ?_
  unfold fromUtf8
  split
  next path hp =>
    split at hp
    · cases hp
      exact .pure hlen
    · cases hp
  next => exact .fail

theorem returns_decodeOwner {preserve : Bool} {same nameFollows : UInt32} {at_ : String} :
    Returns (decodeOwner preserve same nameFollows at_ flags) fun owner => ∀ id, owner.1 = some id →
      id < 2 ^ 31 := by
  refine .ite (.bind returns_decodeVarint fun raw hraw => ?_) (.pure (by simp))
  have hs : ∀ id, some raw = some id → id < 2 ^ 31 := fun id h => by cases h; exact hraw
  exact .ite (.bind .any fun _ _ => .bind .any fun _ _ => .pure hs) (.pure hs)

/-- Attributes within the ceilings, the total counted from what was declared before. -/
structure Ceilings (total : Nat) (pairs : List XattrPair) : Prop where
  names : ∀ pair ∈ pairs, pair.name.bytes.length ≤ maxXattrNameLen
  total : total + (pairs.map (·.datum.len)).sum ≤ maxXattrTotalBytes

theorem returns_decodeXattrPair (total : Nat) :
    Returns (decodeXattrPair total) fun r => Ceilings total [r.1] ∧
      r.2 = total + r.1.datum.len := by
  refine .bind .any fun nameLen _ => .bind .any fun datumLen _ => .ite .fail (.ite .fail ?_)
  refine .ite_neg fun hn => .ite_neg fun ht => .bind .any fun cursor _ =>
    .bind .take fun payload hlen => ?_
  refine .ite .fail ?_
  unfold fromUtf8
  split
  next => exact .fail
  next name hu =>
    split at hu
    · cases hu
      have hd :
          (if datumLen.toNat > maxFullDatum then
            XattrDatum.deferred datumLen.toNat (payload.drop nameLen.toNat)
          else .inline (payload.drop nameLen.toNat)).len = datumLen.toNat := by
        split
        · rfl
        next hs =>
          rw [if_neg hs] at hlen
          simp [XattrDatum.len, hlen]
      refine .pure ⟨⟨?_, ?_⟩, ?_⟩
      · intro pair hp
        cases mem_singleton.mp hp
        simp only [length_take]
        omega
      · simp only [map_cons, map_nil, sum_singleton]
        omega
      · rw [hd]
    · cases hu

theorem returns_decodeXattrPairs : ∀ (count total : Nat), total ≤ maxXattrTotalBytes →
    Returns (decodeXattrPairs count total) fun pairs => pairs.length = count ∧
      Ceilings total pairs := by
  intro count
  induction count with
  | zero => exact fun total h => .pure ⟨rfl, by simp, by simpa using h⟩
  | succ count ih =>
    intro total h
    refine .bind (returns_decodeXattrPair total) fun r hr => ?_
    obtain ⟨pair, total'⟩ := r
    obtain ⟨hone, hn⟩ := hr
    change total' = total + pair.datum.len at hn
    subst hn
    have ht := hone.total
    refine .bind (ih _ ht) fun pairs hp => .pure ⟨by simp [hp.1], ?_, ?_⟩
    · exact forall_mem_cons.mpr ⟨hone.names _ mem_cons_self, hp.2.names⟩
    · rw [map_cons, sum_cons, ← Nat.add_assoc]
      exact hp.2.total

theorem returns_decodeXattrBlob :
    Returns decodeXattrBlob fun pairs => pairs.length ≤ maxXattrPairs ∧ Ceilings 0 pairs := by
  refine .bind .any fun marker _ =>
    .ite .fail (.bind .any fun count _ => .ite .fail (.ite_neg fun hc => ?_))
  exact (returns_decodeXattrPairs _ 0 (Nat.zero_le _)).imp fun pairs h => ⟨by omega, h.2⟩

/-- The bounds of an entry that was read, where the flags announce no long name. -/
structure Bounded (entry : FileListEntry) : Prop where
  path : entry.path.bytes.length ≤ 255
  uid : ∀ id, entry.uid = some id → id < 2 ^ 31
  gid : ∀ id, entry.gid = some id → id < 2 ^ 31
  xattrs : ∀ pairs, entry.xattrs = some pairs → pairs.length ≤ maxXattrPairs ∧ Ceilings 0 pairs

theorem returns_flags (flags : UInt32) :
    Returns (decodeEntry options flags) fun outcome => ∀ entry, outcome = .entry entry →
      entry.flags = flags := by
  refine .bind .any fun _ _ => .bind .any fun _ _ => .bind .any fun _ _ => .bind .any fun _ _ =>
    .bind .any fun _ _ => ?_
  refine .bind .any fun _ _ => .bind .any fun _ _ => .bind .any fun _ _ => .pure fun entry h => ?_
  cases h
  rfl

theorem returns_decodeEntry (hlong : flags &&& xmitLongName = 0)
    (hsame : flags &&& xmitSameName = 0) :
    Returns (decodeEntry options flags) fun outcome => ∀ entry, outcome = .entry entry →
      Bounded entry := by
  refine .bind (returns_decodeSameName options hsame) fun shared hshared => ?_
  subst hshared
  refine .bind (returns_decodeNameLen hlong) fun l2 hl2 => .bind (returns_decodePathRest l2)
    fun path hpath => ?_
  have hstat : Returns (decodeStat options flags) fun stat =>
      (∀ id, stat.uid.1 = some id → id < 2 ^ 31) ∧ ∀ id, stat.gid.1 = some id → id < 2 ^ 31 :=
    .bind .any fun _ _ => .bind .any fun _ _ => .bind .any fun _ _ => .bind .any fun _ _ =>
      .bind returns_decodeOwner fun uid huid => .bind returns_decodeOwner fun gid hgid =>
        .pure ⟨huid, hgid⟩
  refine .bind hstat fun stat ho => .bind .any fun target _ => .bind .any fun checksum _ => ?_
  have hx : Returns (decodeXattrs options) fun xattrs => ∀ pairs, xattrs = some pairs →
      pairs.length ≤ maxXattrPairs ∧ Ceilings 0 pairs := by
    refine .ite (.bind returns_decodeXattrBlob.onSlice fun pairs hpairs => .pure fun other h => ?_)
      (.pure (by simp))
    cases h
    exact hpairs
  refine .bind .any fun acls _ => .bind hx fun xattrs hc => .pure fun entry h => ?_
  cases h
  exact ⟨hpath.trans_le hl2, ho.1, ho.2, hc⟩

variable {options : FileListDecodeOptions}

theorem bounded_of_decode {buf : List UInt8} {n : Nat}
    (h : decodeFileListEntry buf options = .ok (.entry entry, n))
    (hl : entry.flags &&& xmitLongName = 0) (hs : entry.flags &&& xmitSameName = 0) :
    Bounded entry := by
  obtain ⟨flags, c, -, hb⟩ := bind_ok h
  split at hb
  · have hend : Returns (decodeEndOfList options flags) fun outcome => outcome ≠ .entry entry :=
      .ite (.bind .any fun _ _ => .pure (by simp)) (.pure (by simp))
    exact absurd rfl (hend _ _ _ _ hb)
  · have hf := returns_flags options flags _ _ _ _ hb entry rfl
    rw [hf] at hl hs
    exact returns_decodeEntry options hl hs _ _ _ _ hb entry rfl

/-! ### What an encoder asserts -/

theorem of_assertThat {c : Prop} [Decidable c] {u : Unit} (h : assertThat c = some u) : c := by
  by_contra hc
  rw [assertThat, if_neg hc] at h
  cases h

theorem perm_of_encodeAclObj {obj : Option UInt8} (h : encodeAclObj obj = some w) :
    ∀ perm, obj = some perm → perm ≤ aclAccessMax := by
  rintro perm rfl
  obtain ⟨_, ha, -⟩ := bind_eq_some_iff.mp h
  exact of_assertThat ha

theorem mem_encodeEach {α : Type} {encode : α → Option (List UInt8)} :
    ∀ {as : List α} {w : List UInt8},
      encodeEach encode as = some w → ∀ a ∈ as, ∃ v, encode a = some v := by
  intro as
  induction as with
  | nil => exact fun _ a ha => absurd ha not_mem_nil
  | cons a as ih =>
    intro w h
    obtain ⟨first, hf, h⟩ := bind_eq_some_iff.mp h
    obtain ⟨rest, hr, -⟩ := bind_eq_some_iff.mp h
    exact forall_mem_cons.mpr ⟨⟨first, hf⟩, ih hr⟩

theorem fits_of_encodeAclWire {entry : AclWireEntry} (h : encodeAclWire entry = some w) :
    entry.Fits := by
  cases entry with
  | reference index =>
    obtain ⟨_, hassert, -⟩ := bind_eq_some_iff.mp h
    show index.toNat + 1 ≤ 2147483647
    exact of_assertThat hassert
  | literal acl =>
    simp only [encodeAclWire, bind_eq_bind, bind_eq_some_iff] at h
    obtain ⟨_, hu, _, hg, _, hmask, _, hother, _, hnames, -⟩ := h
    have hl : acl.names.length ≤ maxAclNamedEntries ∧
        ∀ named ∈ acl.names, ∃ v, encodeAclNamedEntry named = some v := by
      unfold encodeAclNames at hnames
      split at hnames
      · obtain ⟨_, hassert, hnames⟩ := bind_eq_some_iff.mp hnames
        obtain ⟨_, he, -⟩ := bind_eq_some_iff.mp hnames
        exact ⟨of_assertThat hassert, mem_encodeEach he⟩
      next hnil => simp [not_not.mp hnil]
    refine ⟨?_, hl.1, fun named hmem => ?_, fun named hmem name hname => ?_⟩
    · intro obj hobj
      simp only [mem_cons, not_mem_nil, or_false] at hobj
      rcases hobj with rfl | rfl | rfl | rfl
      · exact perm_of_encodeAclObj hu
      · exact perm_of_encodeAclObj hg
      · exact perm_of_encodeAclObj hmask
      · exact perm_of_encodeAclObj hother
    · obtain ⟨v, hv⟩ := hl.2 named hmem
      obtain ⟨_, hassert, -⟩ := bind_eq_some_iff.mp hv
      exact of_assertThat hassert
    · obtain ⟨v, hv⟩ := hl.2 named hmem
      obtain ⟨_, -, hv⟩ := bind_eq_some_iff.mp hv
      obtain ⟨_, hv, -⟩ := bind_eq_some_iff.mp hv
      rw [hname] at hv
      obtain ⟨_, hassert, -⟩ := bind_eq_some_iff.mp hv
      exact of_assertThat hassert

theorem acls_of_encodeAcls (h : encodeAcls entry options = some w) :
    (entry.acls.isSome = true ↔ options.preserveAcls = true ∧ isSymlinkMode entry.mode = false) ∧
    ∀ acls, entry.acls = some acls → acls.access.Fits ∧
      acls.default.isSome = isDirectoryMode entry.mode ∧
      ∀ acl, acls.default = some acl → acl.Fits := by
  unfold encodeAcls at h
  by_cases hp : options.preserveAcls = true
  · rw [if_pos hp] at h
    cases hl : isSymlinkMode entry.mode with
    | true =>
      rw [if_pos hl] at h
      obtain ⟨_, hassert, -⟩ := bind_eq_some_iff.mp h
      simp [of_assertThat hassert]
    | false =>
      rw [if_neg (by simp [hl])] at h
      obtain ⟨acls, hacls, h⟩ := bind_eq_some_iff.mp h
      obtain ⟨_, hacc, h⟩ := bind_eq_some_iff.mp h
      refine ⟨by simp [hacls, hp], fun acls' hacls' => ?_⟩
      cases hacls.symm.trans hacls'
      refine ⟨fits_of_encodeAclWire hacc, ?_⟩
      cases hdir : isDirectoryMode entry.mode with
      | true =>
        rw [if_pos hdir] at h
        obtain ⟨acl, hacl, h⟩ := bind_eq_some_iff.mp h
        obtain ⟨_, hdefault, -⟩ := bind_eq_some_iff.mp h
        refine ⟨by simp [hacl], fun acl' hacl' => ?_⟩
        cases hacl.symm.trans hacl'
        exact fits_of_encodeAclWire hdefault
      | false =>
        rw [if_neg (by simp [hdir])] at h
        obtain ⟨_, hassert, -⟩ := bind_eq_some_iff.mp h
        simp [of_assertThat hassert]
  · rw [if_neg hp] at h
    obtain ⟨_, hassert, -⟩ := bind_eq_some_iff.mp h
    simp [of_assertThat hassert, hp]

theorem name_of_encodeOwner {preserve : Bool} {same nameFollows : UInt32} {id : Option Int}
    {name : Option Utf8String} (h : encodeOwner preserve same nameFollows flags id name = some w)
    (hp : preserve = true ∧ flags &&& same = 0) (hf : flags &&& nameFollows ≠ 0) :
    ∀ n, name = some n → n.bytes.length ≤ 255 := by
  rintro n rfl
  rw [encodeOwner, if_pos hp] at h
  rw [if_pos hf] at h
  obtain ⟨_, h, -⟩ := bind_eq_some_iff.mp h
  obtain ⟨_, ha, -⟩ := bind_eq_some_iff.mp h
  exact of_assertThat ha

/-! ### The entry of an upload -/

variable {source : SourceFile} {fileChecksum : List UInt8} {symlinkTarget : Option Utf8String}
  {acls : Option FileListAcls} {metadata : EffectiveMetadataFlags} {options : FileListDecodeOptions}

/-- The session the entry is built for. -/
structure SourceSession (source : SourceFile) (fileChecksum : List UInt8)
    (symlinkTarget : Option Utf8String) (metadata : EffectiveMetadataFlags)
    (options : FileListDecodeOptions) : Prop where
  protocol : options.protocol ≥ 31
  owner : options.preserveUid = metadata.preserveOwner
  group : options.preserveGid = metadata.preserveGroup
  xattrs : options.preserveXattrs = metadata.preserveXattrs
  checksum : fileChecksum.length =
    if options.alwaysChecksum = true ∧ isSymlinkMode source.mode = false then options.csumLen else 0
  symlink : symlinkTarget.isSome = isSymlinkMode source.mode
  target : ∀ target, symlinkTarget = some target → target.bytes.length < 2 ^ 31

/-- The entry as it is read: with the flags of its encoding, and the long attribute values put
aside. -/
def FileListEntry.received (md5 : List UInt8 → List UInt8) (options : FileListDecodeOptions)
    (entry : FileListEntry) : FileListEntry :=
  { entry with
    flags := entry.wireFlags options
    xattrs := entry.xattrs.map (·.map (·.listed md5)) }

theorem sourceFlags_spec (metadata : EffectiveMetadataFlags) :
    sourceFlags metadata &&& xmitSameName = 0 ∧ sourceFlags metadata &&& xmitLongName = 0 ∧
    sourceFlags metadata &&& xmitSameTime = 0 ∧ sourceFlags metadata &&& xmitSameMode = 0 ∧
    sourceFlags metadata &&& xmitSameUid = 0 ∧ sourceFlags metadata &&& xmitSameGid = 0 ∧
    sourceFlags metadata &&& xmitModNsec ≠ 0 ∧
    (sourceFlags metadata &&& xmitUserNameFollows ≠ 0 ↔ metadata.preserveOwner = true) ∧
    (sourceFlags metadata &&& xmitGroupNameFollows ≠ 0 ↔ metadata.preserveGroup = true) ∧
    sourceFlags metadata ≤ 0xFFFF ∧ sourceFlags metadata ≠ 0 ∧ sourceFlags metadata ≠ 0x1000 ∧
    sourceFlags metadata ≠ 0x1004 := by
  obtain ⟨owner, group, xattrs⟩ := metadata
  cases owner <;> cases group <;> cases xattrs <;> decide

theorem suffix_buildSourceEntry (xattrs : Option (List XattrPair)) :
    FileListEntry.suffix
      { buildSourceEntry source fileChecksum symlinkTarget acls metadata with xattrs } options =
      (buildSourceEntry source fileChecksum symlinkTarget acls metadata).path.bytes := by
  simp [FileListEntry.suffix, computeFlistNameSplit, buildSourceEntry,
    (sourceFlags_spec metadata).1]

variable {md5 : List UInt8 → List UInt8}

theorem listed_fit (hmd5 : ∀ value, (md5 value).length = xattrDigestLen)
    (hb : Bounded (buildSourceEntry source fileChecksum symlinkTarget acls metadata))
    {pairs : List XattrPair}
    (h : (buildSourceEntry source fileChecksum symlinkTarget acls metadata).xattrs.map
      (·.map (·.listed md5)) = some pairs) :
    XattrsFit pairs ∧ ∀ pair ∈ pairs, ∀ len digest, pair.datum = .deferred len digest →
      maxFullDatum < len := by
  obtain ⟨given, hg, rfl⟩ := map_eq_some_iff.mp h
  obtain ⟨hcount, hceil⟩ := hb.xattrs given hg
  refine XattrsInHand.listed ⟨fun pair hp => ?_, hcount,
    hceil.names, by simpa using hceil.total⟩ hmd5
  simp only [buildSourceEntry] at hg
  split at hg
  · cases hg
    obtain ⟨given, -, rfl⟩ := mem_map.mp hp
    exact ⟨given.2, rfl⟩
  · cases hg

theorem id_low {present : Bool} {raw : UInt32} {id : Int}
    (h : (if present then some (raw.toNat : Int) else none) = some id) : -2 ^ 31 ≤ id := by
  split at h
  · cases h
    omega
  · cases h

theorem wellFormed_of_bounded (hmd5 : ∀ value, (md5 value).length = xattrDigestLen)
    (hsession : SourceSession source fileChecksum symlinkTarget metadata options)
    (hentry : buildSourceEntry source fileChecksum symlinkTarget acls metadata = entry)
    {bytes : List UInt8} (henc : encodeFileListEntry md5 entry options = some bytes)
    (hb : Bounded entry) :
    FileListEntry.WellFormed { entry with xattrs := entry.xattrs.map (·.map (·.listed md5)) }
      options := by
  obtain ⟨hsameName, hl, hsameTime, hsameMode, hsameUid, hsameGid, hnsec, huser, hgroup, hw, hf⟩ :=
    sourceFlags_spec metadata
  simp only [encodeFileListEntry, encodeStat, encodeRest, bind_eq_bind,
    bind_eq_some_iff] at henc
  obtain ⟨_, -, _, ⟨_, huid, _, hgid, -⟩, _, ⟨_, -, _, hacls, -⟩, -⟩ := henc
  obtain ⟨haclsIff, haclsFit⟩ := acls_of_encodeAcls hacls
  subst hentry
  refine
    { size := ⟨Int64.le_toInt _, Int64.toInt_lt _⟩
      mtime := ⟨Int64.le_toInt _, Int64.toInt_lt _⟩
      varintFlags := fun _ => hf.1
      classic := fun _ => ⟨hw, hf.2⟩
      sameTime := fun h => absurd hsameTime h
      sameMode := fun h => absurd hsameMode h
      modNsec := iff_of_true hnsec rfl
      sameName := fun h => absurd hsameName h
      shortName := fun _ => (suffix_buildSourceEntry _).symm ▸ hb.path
      uid := ?_, gid := ?_, uidRange := ?_, gidRange := ?_, uidNameLen := ?_, gidNameLen := ?_
      symlink := hsession.symlink
      checksum := hsession.checksum
      acls := haclsIff
      access := fun acls h => (haclsFit acls h).1
      defaults := fun acls h => (haclsFit acls h).2
      xattrs := ?_
      xattrsFit := fun pairs h => (listed_fit hmd5 hb h).1
      uidName := ?_, gidName := ?_
      longName := ?_
      target := hsession.target
      deferred := fun pairs h => (listed_fit hmd5 hb h).2 }
  · simp [buildSourceEntry, hsession.owner, hsameUid]
  · simp [buildSourceEntry, hsession.group, hsameGid]
  · exact fun id hid => ⟨id_low hid, hb.uid id hid⟩
  · exact fun id hid => ⟨id_low hid, hb.gid id hid⟩
  · intro name hname
    cases ho : metadata.preserveOwner with
    | true =>
      exact name_of_encodeOwner huid ⟨hsession.owner.trans ho, hsameUid⟩ (huser.mpr ho) name hname
    | false => simp [buildSourceEntry, ho] at hname
  · intro name hname
    cases hgroup' : metadata.preserveGroup with
    | true =>
      exact name_of_encodeOwner hgid ⟨hsession.group.trans hgroup', hsameGid⟩
        (hgroup.mpr hgroup') name hname
    | false => simp [buildSourceEntry, hgroup'] at hname
  · cases hx : metadata.preserveXattrs <;> simp [buildSourceEntry, hsession.xattrs, hx]
  · simp only [buildSourceEntry, huser]
    cases metadata.preserveOwner <;> simp
  · simp only [buildSourceEntry, hgroup]
    cases metadata.preserveGroup <;> simp
  · rw [suffix_buildSourceEntry]
    have := hb.path
    omega

theorem encode_listed (md5 : List UInt8 → List UInt8) (entry : FileListEntry) :
    encodeFileListEntry md5 { entry with xattrs := entry.xattrs.map (·.map (·.listed md5)) } options
      = encodeFileListEntry md5 entry options := by
  have hx :
      encodeXattrs md5 { entry with xattrs := entry.xattrs.map (·.map (·.listed md5)) } options =
      encodeXattrs md5 entry options := by
    cases hp : entry.xattrs with
    | none => simp [encodeXattrs, hp]
    | some pairs => simp [encodeXattrs, hp, encodeXattrBlob_listed]
  unfold encodeFileListEntry encodeRest
  rw [hx]
  rfl

/-- **The entry of an upload comes back exactly if its name has at most 255 bytes**, its ids 31 bits
and its attributes are within the decoder's ceilings. -/
theorem sourceEntry_received_iff (md5 : List UInt8 → List UInt8)
    (hmd5 : ∀ value, (md5 value).length = 16) (source : SourceFile) (fileChecksum : List UInt8)
    (symlinkTarget : Option Utf8String) (acls : Option FileListAcls)
    (metadata : EffectiveMetadataFlags) (options : FileListDecodeOptions)
    (hsession : SourceSession source fileChecksum symlinkTarget metadata options)
    (entry : FileListEntry)
    (hentry : buildSourceEntry source fileChecksum symlinkTarget acls metadata = entry)
    (bytes : List UInt8) (henc : encodeFileListEntry md5 entry options = some bytes) :
    (∀ t, decodeFileListEntry (bytes ++ t) options =
      .ok (.entry (entry.received md5 options), bytes.length)) ↔ Bounded entry := by
  constructor
  · intro h
    obtain ⟨hsame, hlong, -⟩ := sourceFlags_spec metadata
    have hflags : entry.flags = sourceFlags metadata := by rw [← hentry, buildSourceEntry]
    rw [← hflags] at hsame hlong
    have hbound := bounded_of_decode (h [])
      ((entry.wireFlags_and options _ (by decide) (by decide)).trans hlong)
      ((entry.wireFlags_and options _ (by decide) (by decide)).trans hsame)
    refine ⟨hbound.path, hbound.uid, hbound.gid, fun pairs hpairs => ?_⟩
    obtain ⟨hcount, hceil⟩ := hbound.xattrs (pairs.map (·.listed md5))
      (by simp [FileListEntry.received, hpairs])
    refine ⟨by simpa using hcount, fun pair hpair => ?_, ?_⟩
    · exact hceil.names (pair.listed md5) (mem_map_of_mem hpair)
    · have htotal := hceil.total
      simp only [List.map_map, Function.comp_def, XattrPair.listed, len_listed] at htotal
      exact htotal
  · intro hbound t
    obtain ⟨bytes', henc', hdec⟩ := roundTrips_of_wellFormed md5 options _ hsession.protocol
      (wellFormed_of_bounded hmd5 hsession hentry henc hbound)
    rw [encode_listed, henc] at henc'
    cases henc'
    exact hdec t

/-- A file of five bytes, in a session that preserves nothing. -/
def plainSource (name : Utf8String) : SourceFile where
  fileName := some name
  size := 5
  mtime := 0
  mtimeNsec := none
  mode := 0o100644
  uid := 0
  uidName := sourceBin
  gid := 0
  gidName := sourceBin
  userXattrs := none

theorem sourceEntry_received_iff_plain :
    ∃ bytes, encodeFileListEntry id
      (buildSourceEntry (plainSource sourceBin) [] none none ⟨false, false, false⟩)
        (bareOptions false) = some bytes ∧
      ∀ t, decodeFileListEntry (bytes ++ t) (bareOptions false) =
        .ok (.entry
          ((buildSourceEntry (plainSource sourceBin) [] none none ⟨false, false, false⟩).received
          (fun _ => .replicate 16 0) (bareOptions false)), bytes.length) := by
  refine ⟨_, rfl, (sourceEntry_received_iff (fun _ => .replicate 16 0) (fun _ => rfl)
    (plainSource sourceBin) [] none
    none ⟨false, false, false⟩ (bareOptions false)
      ⟨by decide, rfl, rfl, rfl, rfl, by decide, by simp⟩ _ rfl _ rfl).mpr
    ⟨by decide, by simp [buildSourceEntry], by simp [buildSourceEntry], by simp [buildSourceEntry]⟩⟩

/-- A name of 256 bytes is written with the length zero: the decoder reads an entry without a
name, and takes the first twelve bytes of the name for the fields that follow. -/
theorem sourceEntry_longName :
    (encodeFileListEntry id (buildSourceEntry (plainSource
      ⟨List.replicate 256 0x61, by rw [validUpTo_ascii, length_replicate]⟩) [] none none
        ⟨false, false, false⟩) (bareOptions false)).map
          (decodeFileListEntry · (bareOptions false)) =
    some (.ok (.entry
      { flags := xmitModNsec, path := ⟨[], rfl⟩, size := 0x616161, mtime := 0x61616161,
        mtimeNsec := some 0x61, mode := 0x61616161, uid := none, uidName := none, gid := none,
        gidName := none, checksum := [], symlinkTarget := none, xattrs := none,
        acls := none }, 15)) := by
  decide +kernel

end AeroFtp.RealWire
