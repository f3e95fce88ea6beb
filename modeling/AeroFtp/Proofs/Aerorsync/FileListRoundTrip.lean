/-
An entry of the file list is read back as it was written.

The format does not describe itself: encoder and decoder work out from the flags, the
mode and the options which fields there are, each on its own.  They agree on an entry
that fits its own flags.  The round trip goes field by field, in the order of the wire;
what a field needs is a field of `WellFormed`.
-/
import AeroFtp.Aerorsync.RealWire.FileListEncode
import AeroFtp.Proofs.Aerorsync.Varint
import Mathlib.Algebra.GroupWithZero.Nat

namespace AeroFtp.RealWire

open LittleEndian Reader List FileListEntry

/-! ### Entries that fit their flags -/

/-- An ACL within the decoder's ceilings. -/
structure RsyncAcl.Fits (acl : RsyncAcl) : Prop where
  perms : ∀ obj ∈ [acl.userObj, acl.groupObj, acl.maskObj, acl.otherObj], ∀ perm, obj = some perm →
    perm ≤ aclAccessMax
  count : acl.names.length ≤ maxAclNamedEntries
  access : ∀ named ∈ acl.names, named.access ≤ aclAccessMax
  names : ∀ named ∈ acl.names, ∀ name, named.name = some name → name.bytes.length ≤ maxAclNameLen

def AclWireEntry.Fits : AclWireEntry → Prop
  | .reference index => index.toNat + 1 ≤ 2147483647
  | .literal acl => acl.Fits

/-- A value that is short, or was put aside. -/
def XattrDatum.Fits : XattrDatum → Prop
  | .inline value => value.length ≤ maxFullDatum
  | .deferred _ digest => digest.length = xattrDigestLen

/-- Attributes within the decoder's ceilings. -/
structure XattrsFit (pairs : List XattrPair) : Prop where
  count : pairs.length ≤ maxXattrPairs
  names : ∀ pair ∈ pairs, pair.name.bytes.length ≤ maxXattrNameLen
  data : ∀ pair ∈ pairs, pair.datum.Fits
  total : (pairs.map (·.datum.len)).sum ≤ maxXattrTotalBytes

namespace FileListEntry

/-- The bytes of the name that are on the wire. -/
def suffix (entry : FileListEntry) (options : FileListDecodeOptions) : List UInt8 :=
  (computeFlistNameSplit entry.path options.previousName (entry.flags &&& xmitSameName ≠ 0)).2

/-- An entry consistent with its own flags and with the options of the session, the names
of its owners apart. -/
structure Fits (entry : FileListEntry) (options : FileListDecodeOptions) : Prop where
  size : -2 ^ 63 ≤ entry.size ∧ entry.size < 2 ^ 63
  mtime : -2 ^ 63 ≤ entry.mtime ∧ entry.mtime < 2 ^ 63
  varintFlags : options.xferFlagsAsVarint = true → entry.flags ≠ 0
  classic : options.xferFlagsAsVarint = false →
    entry.flags ≤ 0xFFFF ∧ entry.flags ≠ 0x1000 ∧ entry.flags ≠ 0x1004
  sameTime : entry.flags &&& xmitSameTime ≠ 0 → entry.mtime = 0
  sameMode : entry.flags &&& xmitSameMode ≠ 0 → entry.mode = 0
  modNsec : entry.flags &&& xmitModNsec ≠ 0 ↔ entry.mtimeNsec.isSome = true
  sameName : entry.flags &&& xmitSameName ≠ 0 → options.previousName.isSome = true
  shortName : entry.flags &&& xmitLongName = 0 → (entry.suffix options).length ≤ 255
  uid : entry.uid.isSome = true ↔ options.preserveUid = true ∧ entry.flags &&& xmitSameUid = 0
  gid : entry.gid.isSome = true ↔ options.preserveGid = true ∧ entry.flags &&& xmitSameGid = 0
  uidRange : ∀ id, entry.uid = some id → -2 ^ 31 ≤ id ∧ id < 2 ^ 31
  gidRange : ∀ id, entry.gid = some id → -2 ^ 31 ≤ id ∧ id < 2 ^ 31
  uidNameLen : ∀ name, entry.uidName = some name → name.bytes.length ≤ 255
  gidNameLen : ∀ name, entry.gidName = some name → name.bytes.length ≤ 255
  symlink : entry.symlinkTarget.isSome = isSymlinkMode entry.mode
  checksum : entry.checksum.length =
    if options.alwaysChecksum = true ∧ isSymlinkMode entry.mode = false then options.csumLen else 0
  acls : entry.acls.isSome = true ↔ options.preserveAcls = true ∧ isSymlinkMode entry.mode = false
  access : ∀ acls, entry.acls = some acls → acls.access.Fits
  defaults : ∀ acls, entry.acls = some acls →
    acls.default.isSome = isDirectoryMode entry.mode ∧ ∀ acl, acls.default = some acl → acl.Fits
  xattrs : entry.xattrs.isSome = options.preserveXattrs
  xattrsFit : ∀ pairs, entry.xattrs = some pairs → XattrsFit pairs

/-- An entry that fits, with a name of an owner exactly where the flags announce one. -/
structure Consistent (entry : FileListEntry) (options : FileListDecodeOptions) : Prop
    extends entry.Fits options where
  uidName : entry.uidName.isSome = true ↔ entry.flags &&& xmitUserNameFollows ≠ 0
  gidName : entry.gidName.isSome = true ↔ entry.flags &&& xmitGroupNameFollows ≠ 0

variable {n : Nat}

/-- An entry that fits, with a name of an owner where the owner is there and the flags
announce one; no length runs into the sign of its varint, and only a value that is too long
to be inline was put aside. -/
structure WellFormed (entry : FileListEntry) (options : FileListDecodeOptions) : Prop
    extends entry.Fits options where
  uidName : entry.uidName.isSome = true ↔
    entry.uid.isSome = true ∧ entry.flags &&& xmitUserNameFollows ≠ 0
  gidName : entry.gidName.isSome = true ↔
    entry.gid.isSome = true ∧ entry.flags &&& xmitGroupNameFollows ≠ 0
  longName : (entry.suffix options).length < 2 ^ 31
  target : ∀ target, entry.symlinkTarget = some target → target.bytes.length < 2 ^ 31
  deferred : ∀ pairs, entry.xattrs = some pairs → ∀ pair ∈ pairs, ∀ len digest,
    pair.datum = .deferred len digest → maxFullDatum < len

end FileListEntry

/-! ### Small fields -/

theorem reads_varint_ofNat (h : n < 2 ^ 31) :
    Reads decodeVarint (encodeVarint (Int32.ofNat n)) (n : Int) := by
  rw [← Int32.toInt_ofNat_of_lt h]
  exact reads_decodeVarint _

theorem reads_varint_zero : Reads decodeVarint (encodeVarint 0) 0 := reads_decodeVarint 0

theorem reads_decodeLength (h : n < 2 ^ 31) : Reads decodeLength (encodeLength n) n :=
  (reads_varint_ofNat h).bind_last (.ite_neg (by omega) (.pure_of_eq (by simp)))

theorem fromUtf8_bytes (s : Utf8String) : fromUtf8 s.bytes = .ok s := dif_pos s.valid

theorem reads_readUtf8 (short : Nat → RealWireError) (s : Utf8String)
    (h : s.bytes.length = n) : Reads (readUtf8 short n) s.bytes s := by
  refine Reads.position fun offset => (Reads.take h).bind_last ?_
  rw [fromUtf8_bytes]
  exact .pure s

theorem toNat_ofNat_of_le (h : n ≤ 255) : (UInt8.ofNat n).toNat = n := by
  rw [UInt8.toNat_ofNat']
  omega

/-! ### ACLs -/

theorem reads_decodeAclPerm (field : String) {perm : UInt8} (h : perm ≤ aclAccessMax) :
    Reads (decodeAclPerm field) (encodeVarint (Int32.ofNat perm.toNat)) perm := by
  have hle : perm.toNat ≤ aclAccessMax.toNat := h
  have hmax : aclAccessMax.toNat = 7 := rfl
  refine (reads_varint_ofNat (by omega)).bind_last (.ite_neg (by omega) ?_)
  exact .pure_of_eq (by simp)

/-- What an encoder wrote, if it wrote something, is read as `a`. -/
def Carries {α : Type} (written : Option (List UInt8)) (p : Decoder α) (a : α) : Prop :=
  ∃ w, written = some w ∧ Reads p w a

theorem carries_aclObj {flags flag : UInt8} (field : String) {obj : Option UInt8}
    (hf : flags &&& flag ≠ 0 ↔ obj.isSome = true)
    (hp : ∀ perm, obj = some perm → perm ≤ aclAccessMax) :
    Carries (encodeAclObj obj) (decodeAclObj flags flag field) obj := by
  cases obj with
  | none =>
    refine ⟨[], rfl, .ite_neg ?_ (.pure none)⟩
    rw [hf]
    simp
  | some perm =>
    have hle := hp perm rfl
    refine ⟨_, ?_, .ite_pos (hf.mpr rfl) ((reads_decodeAclPerm field hle).bind_last (.pure _))⟩
    simp [encodeAclObj, encodeAclPerm, assertThat, hle]

theorem xbits_spec : ∀ access : UInt8, access ≤ aclAccessMax → ∀ follows user : Bool,
    let xbits := (access <<< 2) |||
      ((if follows then aclNameFollows else 0) ||| (if user then aclNameIsUser else 0))
    xbits.toNat ≤ aclXbitsMax.toNat ∧ xbits >>> 2 = access ∧
      (xbits &&& aclXbitsFlagsMask &&& aclNameFollows ≠ 0 ↔ follows = true) ∧
      (xbits &&& aclXbitsFlagsMask &&& aclNameIsUser ≠ 0 ↔ user = true) := by
  decide +kernel

variable {name : Option Utf8String}

theorem carries_aclName {xflags : UInt8} (hf : xflags &&& aclNameFollows ≠ 0 ↔ name.isSome = true)
    (hlen : ∀ s, name = some s → s.bytes.length ≤ maxAclNameLen) :
    Carries (encodeAclName name) (decodeAclName xflags) name := by
  cases name with
  | none =>
    refine ⟨[], rfl, .ite_neg ?_ (.pure none)⟩
    rw [hf]
    simp
  | some s =>
    have hle := hlen s rfl
    have hb : (UInt8.ofNat s.bytes.length).toNat = s.bytes.length := toNat_ofNat_of_le hle
    refine ⟨[UInt8.ofNat s.bytes.length] ++ s.bytes, ?_, .ite_pos (hf.mpr rfl)
      ((reads_decodeByte _ _).bind (.ite_neg ?_ ?_))⟩
    · simp [encodeAclName, assertThat, hle]
    · rw [hb]
      exact Nat.not_lt.mpr hle
    · exact (reads_readUtf8 _ s hb.symm).bind_last (.pure _)

theorem carries_aclNamedEntry {named : AclNamedEntry} (hacc : named.access ≤ aclAccessMax)
    (hn : ∀ s, named.name = some s → s.bytes.length ≤ maxAclNameLen) :
    Carries (encodeAclNamedEntry named) decodeAclNamedEntry named := by
  obtain ⟨id, principal, access, name⟩ := named
  obtain ⟨hmax, hb, hf, hu⟩ :=
    xbits_spec access hacc name.isSome (decide (principal = .user))
  simp only [decide_eq_true_eq] at hmax hb hf hu
  generalize hx : (access <<< 2 ||| ((if name.isSome = true then aclNameFollows else 0) |||
    (if principal = .user then aclNameIsUser else 0))) = xbits at hmax hb hf hu
  obtain ⟨w, hw, hr⟩ := carries_aclName hf hn
  refine ⟨encodeAclId id ++ (encodeVarint (Int32.ofNat xbits.toNat) ++ w), ?_, ?_⟩
  · simp [encodeAclNamedEntry, assertThat, show access ≤ aclAccessMax from hacc, hw, hx]
  · have hlt := xbits.toNat_lt
    refine (reads_decodeVarint id.toInt32).bind ((reads_varint_ofNat (by omega)).bind
      (.ite_neg (by omega) ?_))
    simp only [Int.toNat_natCast, UInt8.ofNat_toNat]
    refine hr.bind_last (.pure_of_eq ?_)
    rw [Int32.ofInt_toInt]
    congr 1
    cases principal with
    | user => exact if_pos (hu.mpr rfl)
    | group => exact if_neg fun h => absurd (hu.mp h) (by simp)

theorem carries_aclNamedEntries : ∀ names : List AclNamedEntry,
    (∀ named ∈ names, named.access ≤ aclAccessMax) →
    (∀ named ∈ names, ∀ s, named.name = some s → s.bytes.length ≤ maxAclNameLen) →
    Carries (encodeEach encodeAclNamedEntry names) (decodeAclNames names.length) names := by
  intro names
  induction names with
  | nil => exact fun _ _ => ⟨[], rfl, .pure []⟩
  | cons named names ih =>
    intro hacc hname
    obtain ⟨ha, has⟩ := forall_mem_cons.mp hacc
    obtain ⟨hn, hns⟩ := forall_mem_cons.mp hname
    obtain ⟨w, hw, hreads⟩ := carries_aclNamedEntry ha hn
    obtain ⟨v, hv, hrest⟩ := ih has hns
    refine ⟨w ++ v, ?_, hreads.bind (hrest.bind_last (.pure _))⟩
    simp [encodeEach, hw, hv]

theorem carries_aclNameList {flags : UInt8} {names : List AclNamedEntry}
    (hf : flags &&& aclXmitNameList ≠ 0 ↔ names ≠ []) (hc : names.length ≤ maxAclNamedEntries)
    (hacc : ∀ named ∈ names, named.access ≤ aclAccessMax)
    (hname : ∀ named ∈ names, ∀ s, named.name = some s → s.bytes.length ≤ maxAclNameLen) :
    Carries (encodeAclNames names) (decodeAclNameList flags) names := by
  by_cases hnil : names = []
  · refine ⟨[], ?_, .ite_neg ?_ ?_⟩
    · simp [encodeAclNames, hnil]
    · rw [hf]
      exact not_not.mpr hnil
    · exact .pure_of_eq hnil.symm
  · obtain ⟨w, hw, hr⟩ := carries_aclNamedEntries names hacc hname
    have hmax : maxAclNamedEntries = 256 := rfl
    refine ⟨encodeVarint (Int32.ofNat names.length) ++ w, ?_, .ite_pos (hf.mpr hnil)
      ((reads_varint_ofNat (by omega)).bind (.ite_neg (by omega) (.ite_neg ?_ ?_)))⟩
    · simp [encodeAclNames, hnil, assertThat, hc, hw]
    · omega
    · rwa [Int.toNat_natCast]

theorem xmitFlags_spec : ∀ user group mask other names : Bool,
    let flags : UInt8 :=
      (if user then aclXmitUserObj else 0) ||| (if group then aclXmitGroupObj else 0) |||
        (if mask then aclXmitMaskObj else 0) ||| (if other then aclXmitOtherObj else 0) |||
        (if names then aclXmitNameList else 0)
    flags &&& ~~~ aclXmitFlagsMask = 0 ∧ (flags &&& aclXmitUserObj ≠ 0 ↔ user = true) ∧
      (flags &&& aclXmitGroupObj ≠ 0 ↔ group = true) ∧
        (flags &&& aclXmitMaskObj ≠ 0 ↔ mask = true) ∧
      (flags &&& aclXmitOtherObj ≠ 0 ↔ other = true) ∧
        (flags &&& aclXmitNameList ≠ 0 ↔ names = true) := by
  decide +kernel

theorem carries_aclWire {entry : AclWireEntry} (h : entry.Fits) :
    Carries (encodeAclWire entry) decodeAclWire entry := by
  cases entry with
  | reference index =>
    have hle : index.toNat + 1 ≤ 2147483647 := h
    refine ⟨encodeVarint (Int32.ofNat (index.toNat + 1)), ?_,
      (reads_varint_ofNat (by omega)).bind_last (.ite_neg (by omega) (.ite_pos (by omega) ?_))⟩
    · simp [encodeAclWire, assertThat, hle]
    · refine .pure_of_eq (congrArg _ ?_)
      exact UInt32.add_sub_cancel index 1
  | literal acl =>
    have hf : acl.Fits := h
    obtain ⟨hmask, huser, hgroup, hmaskObj, hother, hnames⟩ := xmitFlags_spec acl.userObj.isSome
      acl.groupObj.isSome acl.maskObj.isSome acl.otherObj.isSome (decide (acl.names ≠ []))
    simp only [decide_eq_true_eq] at hmask huser hgroup hmaskObj hother hnames
    obtain ⟨u, hu, hreadU⟩ := carries_aclObj "user_obj" huser (hf.perms _ (by simp))
    obtain ⟨g, hg, hreadG⟩ := carries_aclObj "group_obj" hgroup (hf.perms _ (by simp))
    obtain ⟨m, hm, hreadM⟩ := carries_aclObj "mask_obj" hmaskObj (hf.perms _ (by simp))
    obtain ⟨o, ho, hreadO⟩ := carries_aclObj "other_obj" hother (hf.perms _ (by simp))
    obtain ⟨n, hn, hreadN⟩ := carries_aclNameList hnames hf.count hf.access hf.names
    refine ⟨encodeVarint 0 ++ ([acl.xmitFlags] ++ (u ++ (g ++ (m ++ (o ++ n))))), ?_, ?_⟩
    · simp [encodeAclWire, hu, hg, hm, ho, hn]
    · refine reads_varint_zero.bind (.ite_neg (by decide) (.ite_neg (by decide)
        ((reads_decodeByte _ _).bind (.ite_neg (not_not.mpr hmask) ?_))))
      exact hreadU.bind (hreadG.bind (hreadM.bind (hreadO.bind (hreadN.bind_last (.pure _)))))

/-! ### Extended attributes -/

variable (md5 : List UInt8 → List UInt8) (x : UInt32)

theorem onWire_length {datum : XattrDatum} (h : datum.Fits)
    (hdef : ∀ len digest, datum = .deferred len digest → maxFullDatum < len) :
    (datum.onWire md5).length =
      (if datum.len > maxFullDatum then xattrDigestLen else datum.len) ∧
    (if datum.len > maxFullDatum then XattrDatum.deferred datum.len (datum.onWire md5)
      else .inline (datum.onWire md5)) = datum := by
  cases datum with
  | inline value =>
    have hle : value.length ≤ maxFullDatum := h
    simp [XattrDatum.onWire, XattrDatum.len, hle]
  | deferred len digest =>
    have hlt : maxFullDatum < len := hdef len digest rfl
    have hdig : digest.length = xattrDigestLen := h
    simp [XattrDatum.onWire, XattrDatum.len, hlt, hdig]

theorem reads_decodeXattrPair (pair : XattrPair) (total : Nat)
    (hname : pair.name.bytes.length ≤ maxXattrNameLen) (hf : pair.datum.Fits)
    (hdef : ∀ len digest, pair.datum = .deferred len digest → maxFullDatum < len)
    (ht : total + pair.datum.len ≤ maxXattrTotalBytes) :
    Reads (decodeXattrPair total) (encodeXattrPair md5 pair) (pair, total + pair.datum.len) := by
  obtain ⟨hlen, hdatum⟩ := onWire_length md5 hf hdef
  have hmaxName : maxXattrNameLen = 255 := rfl
  have hmaxTotal : maxXattrTotalBytes = 1048576 := rfl
  have hnameLen : Int32.ofNat pair.name.bytes.length + 1 = Int32.ofNat
      (pair.name.bytes.length + 1) := by
    rw [Int32.ofNat_add]
    rfl
  rw [encodeXattrPair, hnameLen]
  refine (reads_varint_ofNat (by omega)).bind ((reads_varint_ofNat (by omega)).bind
    (.ite_neg (by omega) (.ite_neg (by omega) ?_)))
  simp only [Int.toNat_natCast]
  refine .ite_neg (by omega) (.ite_neg (by omega) (.position fun cursor => ?_))
  refine (Reads.take ?_).bind_last (Reads.ite_neg ?_ ?_)
  · simp only [length_append, length_singleton]
    omega
  · simp
  · have hp : pair.name.bytes ++ ([0] ++ pair.datum.onWire md5) =
        (pair.name.bytes ++ [0]) ++ pair.datum.onWire md5 := (append_assoc ..).symm
    have hdrop : (pair.name.bytes ++ ([0] ++ pair.datum.onWire md5)).drop
        (pair.name.bytes.length + 1) = pair.datum.onWire md5 := by
      rw [hp]
      exact drop_left' (by simp)
    rw [Nat.add_sub_cancel, take_left, fromUtf8_bytes]
    refine .pure_of_eq ?_
    rw [hdrop, hdatum]

theorem reads_decodeXattrPairs : ∀ (pairs : List XattrPair) (total : Nat),
    (∀ pair ∈ pairs, pair.name.bytes.length ≤ maxXattrNameLen) → (∀ pair ∈ pairs, pair.datum.Fits) →
    (∀ pair ∈ pairs, ∀ len digest, pair.datum = .deferred len digest → maxFullDatum < len) →
    total + (pairs.map (·.datum.len)).sum ≤ maxXattrTotalBytes →
    Reads (decodeXattrPairs pairs.length total) (pairs.flatMap (encodeXattrPair md5)) pairs := by
  intro pairs
  induction pairs with
  | nil => exact fun _ _ _ _ _ => .pure []
  | cons pair pairs ih =>
    intro total hnames hfits hdef ht
    obtain ⟨hn, hns⟩ := forall_mem_cons.mp hnames
    obtain ⟨hf, hfs⟩ := forall_mem_cons.mp hfits
    obtain ⟨hd, hds⟩ := forall_mem_cons.mp hdef
    rw [map_cons, sum_cons] at ht
    exact (reads_decodeXattrPair md5 pair total hn hf hd (by omega)).bind
      ((ih _ hns hfs hds (by omega)).bind_last (.pure _))

theorem reads_decodeXattrBlob {pairs : List XattrPair} (h : XattrsFit pairs)
    (hd : ∀ pair ∈ pairs, ∀ len digest, pair.datum = .deferred len digest → maxFullDatum < len) :
    Reads decodeXattrBlob (encodeXattrBlob md5 pairs) pairs := by
  have hc := h.count
  have hmax : maxXattrPairs = 256 := rfl
  refine reads_varint_zero.bind (.ite_neg (by simp) ((reads_varint_ofNat (by omega)).bind
    (.ite_neg (by omega) ?_)))
  refine .ite_neg (by omega) (reads_decodeXattrPairs md5 pairs 0 h.names h.data hd ?_)
  rw [Nat.zero_add]
  exact h.total

/-! ### Flags -/

theorem ofInt_toInt32 : UInt32.ofInt x.toInt32.toInt = x := by
  have hv : x.toInt32.toInt = (x.toNat : Int).bmod (2 ^ 32) := BitVec.toInt_eq_toNat_bmod _
  have hlt := x.toNat_lt
  apply UInt32.toNat_inj.mp
  rw [UInt32.ofInt, UInt32.toNat_ofNat', hv, Int.bmod]
  split <;> omega

theorem or_and_of_disjoint {a m : UInt32} (h : a &&& m = 0) : (x ||| a) &&& m = x &&& m := by
  have hd : (x ||| a) &&& m = (x &&& m) ||| (a &&& m) := by
    apply UInt32.toBitVec_inj.mp
    simp [BitVec.and_or_distrib_right]
  rw [hd, h, UInt32.or_zero]

theorem or_and_self (x a : UInt32) : (x ||| a) &&& a = a := by
  apply UInt32.toBitVec_inj.mp
  ext i
  simpa using .inr

theorem or_extended_and : (x ||| xmitExtendedFlags) &&& xmitExtendedFlags ≠ 0 := by
  rw [or_and_self]
  decide

theorem toUInt8_toUInt32 : x.toUInt8.toUInt32 = x &&& 255 := by
  apply UInt32.toNat_inj.mp
  exact (Nat.and_two_pow_sub_one_eq_mod x.toNat 8).symm

theorem toUInt8_and_extended :
    x.toUInt8.toUInt32 &&& xmitExtendedFlags = x &&& xmitExtendedFlags := by
  rw [toUInt8_toUInt32, UInt32.and_assoc]
  rfl

theorem short_bytes (h : x.toNat < 65536) :
    ((UInt8.ofNat (x.toNat / 256)).toUInt32 <<< 8) ||| (UInt8.ofNat x.toNat).toUInt32 = x := by
  apply UInt32.toNat_inj.mp
  have hhi : (UInt8.ofNat (x.toNat / 256)).toNat = x.toNat / 256 := toNat_ofNat_of_le (by omega)
  have hlo : (UInt8.ofNat x.toNat).toNat = x.toNat % 2 ^ 8 := UInt8.toNat_ofNat'
  rw [UInt32.toNat_or, UInt32.toNat_shiftLeft, UInt8.toNat_toUInt32, UInt8.toNat_toUInt32, hlo]
  rw [show (8 : UInt32).toNat % 32 = 8 from rfl, Nat.shiftLeft_eq, Nat.mod_eq_of_lt (by omega),
    Nat.mul_comm, ← Nat.two_pow_add_eq_or_of_lt (Nat.mod_lt _ (by decide))]
  omega

theorem small_of_no_high_byte (h : x.toNat < 65536) (hh : x &&& 0xFF00 = 0) : x.toNat < 256 := by
  have hz : x.toNat &&& 0xFF00 = 0 := by
    rw [← UInt32.toNat_inj] at hh
    exact hh
  have hall : x.toNat &&& (2 ^ 16 - 1) = x.toNat := Nat.and_two_pow_sub_one_of_lt_two_pow h
  rw [show 2 ^ 16 - 1 = 0xFF00 ||| (2 ^ 8 - 1) from rfl, Nat.and_or_distrib_left, hz, Nat.zero_or,
    Nat.and_two_pow_sub_one_eq_mod] at hall
  omega

namespace FileListEntry

variable {entry : FileListEntry} {options : FileListDecodeOptions}

variable (entry options) in
theorem wireFlags_and (m : UInt32) (htop : xmitTopDir &&& m = 0)
    (hext : xmitExtendedFlags &&& m = 0) : entry.wireFlags options &&& m = entry.flags &&& m := by
  unfold wireFlags classicFlags
  dsimp only
  split_ifs <;> simp only [or_and_of_disjoint _ hext, or_and_of_disjoint _ htop]

/-- What the classic rule does: the flags, or `XMIT_TOP_DIR` for none, with the extended bit
wherever the low byte alone would not do. -/
theorem classicFlags_cases (entry : FileListEntry) : ∃ x, (x = entry.flags ∨ x = xmitTopDir) ∧
      (entry.classicFlags = x ||| xmitExtendedFlags ∨
        entry.classicFlags = x ∧ x &&& 0xFF00 = 0 ∧ x ≠ 0 ∧ x &&& xmitExtendedFlags = 0) := by
  have hs : ∀ x : UInt32,
      (if x &&& 0xFF00 ≠ 0 ∨ x = 0 ∨ x &&& xmitExtendedFlags ≠ 0 then
        x ||| xmitExtendedFlags else x) = x ||| xmitExtendedFlags ∨
      (if x &&& 0xFF00 ≠ 0 ∨ x = 0 ∨ x &&& xmitExtendedFlags ≠ 0 then x ||| xmitExtendedFlags
        else x) = x ∧ x &&& 0xFF00 = 0 ∧ x ≠ 0 ∧ x &&& xmitExtendedFlags = 0 := by
    intro x
    split_ifs with h
    · exact .inl rfl
    · simp only [not_or, not_not] at h
      exact .inr ⟨rfl, h⟩
  unfold classicFlags
  by_cases hz : entry.flags = 0 ∧ ¬ isDirectoryMode entry.mode = true
  · refine ⟨xmitTopDir, .inr rfl, ?_⟩
    rw [if_pos hz, hz.1]
    exact hs xmitTopDir
  · refine ⟨entry.flags, .inl rfl, ?_⟩
    rw [if_neg hz]
    exact hs entry.flags

theorem classicFlags_lt (h : entry.flags ≤ 0xFFFF) : entry.classicFlags.toNat < 2 ^ 16 := by
  have hf : entry.flags.toNat ≤ 65535 := h
  obtain ⟨x, hx, hcases⟩ := classicFlags_cases entry
  have hlt : x.toNat < 2 ^ 16 := by
    rcases hx with rfl | rfl
    · omega
    · decide
  rcases hcases with hcase | ⟨hcase, -⟩
  · rw [hcase]
    exact Nat.or_lt_two_pow hlt (by decide)
  · rwa [hcase]

theorem eq_of_or_extended {x : UInt32} (h : x ||| xmitExtendedFlags = 0x1004) :
    x = 0x1000 ∨ x = 0x1004 := by
  have hnat : x.toNat ||| 4 = 4100 := by rw [← UInt32.toNat_inj] at h; exact h
  have hdiv := Nat.or_div_two_pow (a := x.toNat) (b := 4) (n := 3)
  have hmod := Nat.or_mod_two_pow (a := x.toNat) (b := 4) (n := 3)
  rw [hnat] at hdiv hmod
  have hlow : ∀ r < 8, 4 = r ||| 4 → r = 0 ∨ r = 4 := by decide
  have hh : x.toNat / 8 = 512 := by simpa using hdiv.symm
  rcases hlow (x.toNat % 8) (Nat.mod_lt _ (by decide)) hmod with hr | hr
  · exact .inl (UInt32.toNat_inj.mp (show x.toNat = 4096 by omega))
  · exact .inr (UInt32.toNat_inj.mp (show x.toNat = 4100 by omega))

theorem wireFlags_not_end (h : entry.Fits options) :
    ¬ (entry.wireFlags options = 0 ∨ classicIOErrorEnd options (entry.wireFlags options)
      = true) := by
  unfold wireFlags classicIOErrorEnd
  cases hm : options.xferFlagsAsVarint with
  | true => simp [h.varintFlags hm]
  | false =>
    obtain ⟨-, hio, hio'⟩ := h.classic hm
    obtain ⟨x, hx, hcases⟩ := classicFlags_cases entry
    have hend : xmitExtendedFlags ||| xmitIOErrorEndlist = 0x1004 := by decide
    have hxio : x ≠ 0x1000 ∧ x ≠ 0x1004 := by
      rcases hx with rfl | rfl
      · exact ⟨hio, hio'⟩
      · decide
    simp only [Bool.false_eq_true, if_false, Bool.not_false, Bool.true_and, beq_iff_eq, not_or]
    rcases hcases with hcase | ⟨hcase, -, hne, -⟩
    · rw [hcase]
      refine ⟨fun hz => ?_, fun heq => ?_⟩
      · exact or_extended_and x (by rw [hz, UInt32.zero_and])
      · rcases eq_of_or_extended heq with hx | hx
        · exact hxio.1 hx
        · exact hxio.2 hx
    · rw [hcase]
      exact ⟨hne, hxio.2⟩

theorem carries_flags (h : entry.Fits options) :
    Carries (encodeFlistFlags entry options) (decodeFlistFlags options.xferFlagsAsVarint)
      (entry.wireFlags options) := by
  unfold wireFlags encodeFlistFlags decodeFlistFlags
  cases hm : options.xferFlagsAsVarint with
  | true =>
    exact ⟨_, rfl, (reads_decodeVarint _).bind_last (.pure_of_eq (ofInt_toInt32 _))⟩
  | false =>
    have hle := (h.classic hm).1
    have hlt := classicFlags_lt hle
    simp only [assertThat, if_pos hle]
    by_cases hext : entry.classicFlags &&& xmitExtendedFlags = 0
    · -- One byte.
      obtain ⟨x, -, hcases⟩ := classicFlags_cases entry
      have hs : entry.classicFlags.toNat < 256 := by
        rcases hcases with hcase | ⟨hcase, hh, -⟩
        · exact absurd (hcase ▸ hext) (or_extended_and x)
        · exact small_of_no_high_byte _ hlt (hcase ▸ hh)
      have hback : entry.classicFlags.toUInt8.toUInt32 = entry.classicFlags := by
        apply UInt32.toNat_inj.mp
        exact Nat.mod_eq_of_lt hs
      refine ⟨[entry.classicFlags.toUInt8], by simp [hext], (reads_decodeByte _ _).bind_last
        (.ite_neg ?_ (.pure_of_eq hback))⟩
      rw [toUInt8_and_extended]
      exact not_not.mpr hext
    · -- Two bytes.
      have hbytes : u16ToLeBytes entry.classicFlags.toUInt16 =
          [entry.classicFlags.toUInt8] ++ [UInt8.ofNat (entry.classicFlags.toNat / 256)] := by
        rw [u16ToLeBytes, UInt32.toNat_toUInt16, Nat.mod_eq_of_lt hlt]
        rfl
      refine ⟨_, if_pos hext, ?_⟩
      rw [hbytes]
      refine (reads_decodeByte _ _).bind (.ite_pos ?_ ((reads_decodeByte _ _).bind_last
        (.pure_of_eq (short_bytes _ hlt))))
      rw [toUInt8_and_extended]
      exact hext

end FileListEntry

/-! ### The name -/

theorem commonLen_spec (max : Nat) (as bs : List UInt8) :
    commonLen max as bs ≤ max ∧ commonLen max as bs ≤ bs.length ∧
      bs.take (commonLen max as bs) = as.take (commonLen max as bs) := by
  induction max generalizing as bs with
  | zero => simp [commonLen]
  | succ max ih =>
    cases as with
    | nil => simp [commonLen]
    | cons a as =>
      cases bs with
      | nil => simp [commonLen]
      | cons b bs =>
        rw [commonLen]
        split
        next hab =>
          obtain ⟨hmax, hle, ht⟩ := ih as bs
          refine ⟨Nat.succ_le_succ hmax, Nat.succ_le_succ hle, ?_⟩
          rw [take_succ_cons, take_succ_cons, ht, hab]
        next => simp

section Fields

variable {entry : FileListEntry} {options : FileListDecodeOptions}

theorem encodeFlistName_eq (entry : FileListEntry) (options : FileListDecodeOptions) :
    encodeFlistName entry options =
      (if entry.flags &&& xmitSameName ≠ 0 then
        [UInt8.ofNat (computeFlistNameSplit entry.path options.previousName
          (entry.flags &&& xmitSameName ≠ 0)).1]
      else []) ++
      ((if entry.flags &&& xmitLongName ≠ 0 then encodeLength (entry.suffix options).length
        else [UInt8.ofNat (entry.suffix options).length]) ++ entry.suffix options) := by
  simp only [encodeFlistName, suffix, decide_eq_true_eq]

variable (entry options) in
theorem reads_sameName : ∃ shared, Reads (decodeSameName options (entry.wireFlags options))
        (if entry.flags &&& xmitSameName ≠ 0 then
          [UInt8.ofNat (computeFlistNameSplit entry.path options.previousName
            (entry.flags &&& xmitSameName ≠ 0)).1]
        else []) shared ∧
      shared ++ entry.suffix options = entry.path.bytes := by
  unfold suffix computeFlistNameSplit decodeSameName
  rw [entry.wireFlags_and options xmitSameName (by decide) (by decide)]
  by_cases hf : entry.flags &&& xmitSameName = 0
  · refine ⟨[], ?_, by simp [hf]⟩
    simp only [hf]
    exact .pure []
  · simp only [ne_eq, hf, not_false_eq_true, decide_true, Bool.not_true, Bool.false_eq_true,
      if_false]
    generalize hl1 : commonLen 255 entry.path.bytes
      ((options.previousName.map (·.bytes)).getD []) = l1
    have hb : (UInt8.ofNat l1).toNat = l1 := toNat_ofNat_of_le (hl1 ▸ (commonLen_spec ..).1)
    refine ⟨entry.path.bytes.take l1, (reads_decodeByte _ _).bind_last ?_, take_append_drop ..⟩
    rw [hb]
    by_cases hpos : l1 > 0
    · refine .ite_pos hpos ?_
      cases hprev : options.previousName with
      | none =>
        rw [hprev] at hl1
        have hz : l1 = 0 := by
          rw [← hl1]
          cases entry.path.bytes <;> rfl
        omega
      | some prev =>
        rw [hprev] at hl1
        obtain ⟨-, hlen, ht⟩ := commonLen_spec 255 entry.path.bytes prev.bytes
        have hl1' : commonLen 255 entry.path.bytes prev.bytes = l1 := hl1
        rw [hl1'] at hlen ht
        exact .ite_neg (by omega) (.pure_of_eq ht)
    · refine .ite_neg hpos (.pure_of_eq ?_)
      rw [Nat.eq_zero_of_not_pos hpos, take_zero]

theorem reads_nameLen (h : entry.WellFormed options) :
    Reads (decodeNameLen (entry.wireFlags options))
      (if entry.flags &&& xmitLongName ≠ 0 then encodeLength (entry.suffix options).length
        else [UInt8.ofNat (entry.suffix options).length]) (entry.suffix options).length := by
  unfold decodeNameLen
  rw [entry.wireFlags_and options xmitLongName (by decide) (by decide)]
  by_cases hf : entry.flags &&& xmitLongName = 0
  · rw [if_neg (not_not.mpr hf), if_neg (not_not.mpr hf)]
    exact (reads_decodeByte _ _).bind_last (.pure_of_eq (toNat_ofNat_of_le (h.shortName hf)))
  · rw [if_pos hf, if_pos hf]
    exact reads_decodeLength h.longName

theorem reads_pathRest {shared : List UInt8}
    (hp : shared ++ entry.suffix options = entry.path.bytes) :
    Reads (decodePathRest shared (entry.suffix options).length)
      (entry.suffix options) entry.path := by
  refine (Reads.take rfl).bind_last ?_
  rw [hp, fromUtf8_bytes]
  exact .pure _

/-! ### The fields between the name and the target -/

theorem reads_mtime (hprotocol : options.protocol ≥ 31) (h : entry.Fits options) :
    Reads (decodeMtime options (entry.wireFlags options))
      (encodeMtime entry options) entry.mtime := by
  have hproto : options.protocol ≥ 30 := UInt32.le_trans (by decide) hprotocol
  unfold decodeMtime encodeMtime
  rw [entry.wireFlags_and options xmitSameTime (by decide) (by decide)]
  by_cases hf : entry.flags &&& xmitSameTime = 0
  · rw [if_neg (not_not.mpr hf), if_pos hproto, if_pos hf, if_pos hproto]
    have hr := reads_decodeVarlong (Int64.ofInt entry.mtime) 4 (by decide) (by decide)
    rwa [Int64.toInt_ofInt_of_le h.mtime.1 h.mtime.2] at hr
  · rw [if_pos hf, if_neg hf, h.sameTime hf]
    exact .pure 0

theorem reads_mtimeNsec (hp : options.protocol ≥ 31) (h : entry.Fits options) :
    Reads (decodeMtimeNsec options (entry.wireFlags options))
      (encodeMtimeNsec entry options) entry.mtimeNsec := by
  unfold decodeMtimeNsec encodeMtimeNsec
  rw [entry.wireFlags_and options xmitModNsec (by decide) (by decide)]
  cases hn : entry.mtimeNsec with
  | none =>
    have hf : ¬ (options.protocol ≥ 31 ∧ entry.flags &&& xmitModNsec ≠ 0) := by
      rw [h.modNsec, hn]
      simp
    rw [if_neg hf, if_neg hf]
    exact .pure none
  | some nsec =>
    have hf : options.protocol ≥ 31 ∧ entry.flags &&& xmitModNsec ≠ 0 := by
      rw [h.modNsec, hn]
      exact ⟨hp, rfl⟩
    rw [if_pos hf, if_pos hf]
    exact (reads_decodeVarint nsec).bind_last (.pure_of_eq (by rw [Int32.ofInt_toInt]))

theorem reads_mode (h : entry.Fits options) :
    Reads (decodeMode (entry.wireFlags options)) (encodeMode entry) entry.mode := by
  unfold decodeMode encodeMode
  rw [entry.wireFlags_and options xmitSameMode (by decide) (by decide)]
  by_cases hf : entry.flags &&& xmitSameMode = 0
  · rw [if_neg (not_not.mpr hf), if_pos hf]
    refine (Reads.take (length_toLeBytes ..)).bind_last (Reads.pure_of_eq ?_)
    show UInt32.ofNat (fromLeBytes (toLeBytes 4 entry.mode.toNat)) = entry.mode
    rw [fromLeBytes_toLeBytes_of_lt entry.mode.toNat_lt, UInt32.ofNat_toNat]
  · rw [if_pos hf, if_neg hf, h.sameMode hf]
    exact .pure 0

theorem carries_owner {preserve : Bool} {same nameFollows flags wire : UInt32} (nameLenAt : String)
    {id : Option Int}
    (hs : wire &&& same = flags &&& same) (hf : wire &&& nameFollows = flags &&& nameFollows)
    (hid : id.isSome = true ↔ preserve = true ∧ flags &&& same = 0)
    (hrange : ∀ i, id = some i → -2 ^ 31 ≤ i ∧ i < 2 ^ 31)
    (hname : name.isSome = true ↔ id.isSome = true ∧ flags &&& nameFollows ≠ 0)
    (hlen : ∀ s, name = some s → s.bytes.length ≤ 255) :
    Carries (encodeOwner preserve same nameFollows flags id name)
      (decodeOwner preserve same nameFollows nameLenAt wire) (id, name) := by
  unfold encodeOwner decodeOwner
  rw [hs, hf]
  cases id with
  | none =>
    have hnone : name = none := by simpa using hname
    have habs : ¬ (preserve = true ∧ flags &&& same = 0) := by simpa using hid
    rw [if_neg habs, if_neg habs, hnone]
    exact ⟨[], rfl, .pure _⟩
  | some i =>
    have ht : preserve = true ∧ flags &&& same = 0 := hid.mp rfl
    have hread := reads_decodeVarint (Int32.ofInt i)
    rw [Int32.toInt_ofInt_of_le (hrange i rfl).1 (hrange i rfl).2] at hread
    rw [if_pos ht, if_pos ht]
    cases name with
    | none =>
      have hno : ¬ flags &&& nameFollows ≠ 0 := by simpa using hname
      rw [if_neg hno]
      exact ⟨_, rfl, hread.bind_last (.ite_neg hno (.pure _))⟩
    | some s =>
      have hyes : flags &&& nameFollows ≠ 0 := (hname.mp rfl).2
      have hle := hlen s rfl
      refine ⟨encodeVarint (Int32.ofInt i) ++ ([UInt8.ofNat s.bytes.length] ++ s.bytes), ?_,
        hread.bind (.ite_pos hyes ((reads_decodeByte _ _).bind
          ((reads_readUtf8 _ s (toNat_ofNat_of_le hle).symm).bind_last (.pure _))))⟩
      simp [hyes, encodeOwnerName, assertThat, hle]

/-- The fields from the size to the group. -/
def FileListEntry.stat (entry : FileListEntry) : EntryStat where
  size := entry.size
  mtime := entry.mtime
  mtimeNsec := entry.mtimeNsec
  mode := entry.mode
  uid := (entry.uid, entry.uidName)
  gid := (entry.gid, entry.gidName)

theorem carries_stat (hp : options.protocol ≥ 31) (h : entry.WellFormed options) :
    Carries (encodeStat entry options)
      (decodeStat options (entry.wireFlags options)) entry.stat := by
  have hs := reads_decodeVarlong (Int64.ofInt entry.size) 3 (by decide) (by decide)
  rw [Int64.toInt_ofInt_of_le h.size.1 h.size.2] at hs
  obtain ⟨u, hu, hreadU⟩ := carries_owner "flist_uid_name_len"
    (entry.wireFlags_and options _ (by decide) (by decide))
    (entry.wireFlags_and options _ (by decide) (by decide)) h.uid h.uidRange h.uidName h.uidNameLen
  obtain ⟨g, hg, hreadG⟩ := carries_owner "flist_gid_name_len"
    (entry.wireFlags_and options _ (by decide) (by decide))
    (entry.wireFlags_and options _ (by decide) (by decide)) h.gid h.gidRange h.gidName h.gidNameLen
  have hf := h.toFits
  refine ⟨encodeVarlong (Int64.ofInt entry.size) 3 ++ (encodeMtime entry options ++
    (encodeMtimeNsec entry options ++ (encodeMode entry ++ (u ++ g)))), ?_, ?_⟩
  · simp [encodeStat, encodeUid, encodeGid, hu, hg]
  · exact hs.bind ((reads_mtime hp hf).bind ((reads_mtimeNsec hp hf).bind
      ((reads_mode hf).bind (hreadU.bind (hreadG.bind_last (.pure _))))))

/-! ### The fields behind it -/

theorem reads_symlinkTarget (h : entry.WellFormed options) :
    Reads (decodeSymlinkTarget entry.mode) (encodeSymlinkTarget entry) entry.symlinkTarget := by
  have hl := h.symlink
  unfold decodeSymlinkTarget encodeSymlinkTarget
  cases ht : entry.symlinkTarget with
  | none =>
    rw [ht] at hl
    have hno : ¬ isSymlinkMode entry.mode = true := by simp [← hl]
    rw [if_neg hno, if_neg hno]
    exact .pure none
  | some target =>
    rw [ht] at hl
    have hyes : isSymlinkMode entry.mode = true := by simp [← hl]
    rw [if_pos hyes, if_pos hyes]
    exact (reads_decodeLength (h.target target ht)).bind
      ((reads_readUtf8 _ target rfl).bind_last (.pure _))

theorem carries_checksum (h : entry.Fits options) :
    Carries (encodeChecksum entry options) (decodeChecksum options entry.mode) entry.checksum := by
  have hlen := h.checksum
  unfold encodeChecksum decodeChecksum
  by_cases ht : options.alwaysChecksum = true ∧ options.csumLen > 0 ∧
    ¬ isSymlinkMode entry.mode = true
  · rw [if_pos ⟨ht.1, by simpa using ht.2.2⟩] at hlen
    rw [if_pos ht, if_pos ht]
    exact ⟨entry.checksum, by simp [assertThat, hlen], .take hlen⟩
  · have hnil : entry.checksum = [] := by
      apply length_eq_zero_iff.mp
      rw [hlen]
      split
      next hg =>
        by_contra hpos
        exact ht ⟨hg.1, Nat.pos_of_ne_zero hpos, by simp [hg.2]⟩
      next => rfl
    rw [if_neg ht, if_neg ht, hnil]
    exact ⟨[], rfl, .pure []⟩

theorem carries_acls (h : entry.Fits options) :
    Carries (encodeAcls entry options) (decodeAcls options entry.mode) entry.acls := by
  unfold encodeAcls decodeAcls
  cases hacls : entry.acls with
  | none =>
    have habs : ¬ (options.preserveAcls = true ∧ ¬ isSymlinkMode entry.mode = true) := by
      have := h.acls
      simp_all
    rw [if_neg habs]
    refine ⟨[], ?_, .pure none⟩
    by_cases hA : options.preserveAcls = true
    · have hl : isSymlinkMode entry.mode = true := by
        by_contra hno
        exact habs ⟨hA, hno⟩
      simp [hl, assertThat]
    · simp [hA, assertThat]
  | some acls =>
    obtain ⟨hA, hl⟩ := h.acls.mp (by rw [hacls]; rfl)
    obtain ⟨hdir, hf⟩ := h.defaults acls hacls
    obtain ⟨w, hw, hr⟩ := carries_aclWire (h.access acls hacls)
    obtain ⟨access, default⟩ := acls
    have hg : options.preserveAcls = true ∧ ¬ isSymlinkMode entry.mode = true := ⟨hA, by simp [hl]⟩
    cases default with
    | none =>
      have hno : isDirectoryMode entry.mode = false := hdir.symm
      refine ⟨w, ?_, .ite_pos hg
        (hr.onSlice.bind_last (.ite_neg (by simp [hno]) (.pure _)))⟩
      simp [hA, hl, hno, assertThat, hw]
    | some acl =>
      have hyes : isDirectoryMode entry.mode = true := hdir.symm
      obtain ⟨v, hv, hr'⟩ := carries_aclWire (hf acl rfl)
      refine ⟨w ++ v, ?_, .ite_pos hg
        (hr.onSlice.bind (.ite_pos hyes (hr'.onSlice.bind_last (.pure _))))⟩
      simp [hA, hl, hyes, hw, hv]

theorem carries_xattrs (md5 : List UInt8 → List UInt8) (h : entry.WellFormed options) :
    Carries (encodeXattrs md5 entry options) (decodeXattrs options) entry.xattrs := by
  have hX := h.xattrs
  unfold encodeXattrs decodeXattrs
  cases hx : entry.xattrs with
  | none =>
    rw [hx] at hX
    have hno : options.preserveXattrs = false := hX.symm
    refine ⟨[], ?_, .ite_neg (by simp [hno]) (.pure none)⟩
    simp [hno, assertThat]
  | some pairs =>
    rw [hx] at hX
    have hyes : options.preserveXattrs = true := hX.symm
    refine ⟨encodeXattrBlob md5 pairs, ?_, .ite_pos hyes ?_⟩
    · simp [hyes]
    · exact (reads_decodeXattrBlob md5 (h.xattrsFit pairs hx)
        (h.deferred pairs hx)).onSlice.bind_last (.pure _)

theorem carries_rest (md5 : List UInt8 → List UInt8) (h : entry.WellFormed options)
    (flags : UInt32) :
    Carries (encodeRest md5 entry options)
      (decodeRest options flags entry.path entry.stat entry.symlinkTarget)
      (.entry { entry with flags }) := by
  obtain ⟨c, hc, hreadC⟩ := carries_checksum h.toFits
  obtain ⟨a, ha, hreadA⟩ := carries_acls h.toFits
  obtain ⟨x, hx, hreadX⟩ := carries_xattrs md5 h
  refine ⟨c ++ (a ++ x), ?_, hreadC.bind (hreadA.bind (hreadX.bind_last (.pure _)))⟩
  simp [encodeRest, hc, ha, hx]

end Fields

/-! ### The entry -/

/-- What is written for the entry is read as the entry, whatever follows: with its flags
unchanged, or with what the classic encoding adds to them. -/
def FileListEntry.RoundTrips (md5 : List UInt8 → List UInt8) (options : FileListDecodeOptions)
    (entry : FileListEntry) : Prop :=
  ∃ bytes, encodeFileListEntry md5 entry options = some bytes ∧
    ∀ t, decodeFileListEntry (bytes ++ t) options =
      .ok (.entry { entry with flags := entry.wireFlags options }, bytes.length)

/-- **An entry is read back as it was written.** -/
theorem roundTrips_of_wellFormed (options : FileListDecodeOptions)
    (entry : FileListEntry) (hprotocol : options.protocol ≥ 31) (h : entry.WellFormed options) :
    entry.RoundTrips md5 options := by
  obtain ⟨f, hf, hreadF⟩ := carries_flags h.toFits
  obtain ⟨s, hs, hreadS⟩ := carries_stat hprotocol h
  obtain ⟨r, hr, hreadR⟩ := carries_rest md5 h (entry.wireFlags options)
  obtain ⟨shared, hshared, hpath⟩ := reads_sameName entry options
  have hentry : Reads (decodeEntry options (entry.wireFlags options)) _
      (.entry { entry with flags := entry.wireFlags options }) :=
    hshared.bind ((reads_nameLen h).bind ((reads_pathRest hpath).bind
      (hreadS.bind ((reads_symlinkTarget h).bind hreadR))))
  have hall : Reads (fileListEntry options) _ _ :=
    hreadF.bind (.ite_neg (wireFlags_not_end h.toFits) hentry)
  refine ⟨f ++ (encodeFlistName entry options ++ (s ++ (encodeSymlinkTarget entry ++ r))), ?_,
    fun t => ?_⟩
  · simp [encodeFileListEntry, hf, hs, hr]
  · have hrun := hall [] t
    rw [length_nil, Nat.zero_add] at hrun
    rw [encodeFlistName_eq]
    simp only [append_assoc] at hrun ⊢
    exact hrun

/-- A directory in the classic encoding, with an owner, an ACL and an attribute put aside. -/
theorem roundTrips_directory :
    FileListEntry.RoundTrips id
      { protocol := 31, xferFlagsAsVarint := false, alwaysChecksum := true, csumLen := 2,
        preserveUid := true, preserveGid := false, preserveAcls := true, preserveXattrs := true,
        previousName := some ⟨[0x61, 0x62], by decide⟩ }
      { flags := 0x2420, path := ⟨[0x61, 0x63], by decide⟩, size := 4096, mtime := -1,
        mtimeNsec := some 7, mode := 0o040755, uid := some 1000,
        uidName := some ⟨[0x75], by decide⟩,
        gid := none, gidName := none, checksum := [1, 2], symlinkTarget := none,
        xattrs := some [⟨⟨[0x6B], by decide⟩, .deferred 40 (replicate 16 0)⟩],
        acls := some ⟨.literal ⟨some 7, none, none, some 5,
          [⟨9, .user, 6, some ⟨[0x76], by decide⟩⟩]⟩, some (.reference 3)⟩ } := by
  refine roundTrips_of_wellFormed _ _ _ (by decide)
    { size := by decide, mtime := by decide, varintFlags := by decide, classic := by decide,
      sameTime := by decide, sameMode := by decide, modNsec := by decide, sameName := by decide,
      shortName := by decide, uid := by decide, gid := by decide, uidRange := ?_, gidRange := ?_,
      uidNameLen := ?_, gidNameLen := ?_,
      symlink := by decide, checksum := by decide, acls := by decide,
      access := ?_, defaults := ?_, xattrs := by decide, xattrsFit := ?_, uidName := by decide,
      gidName := by decide, longName := by decide, target := ?_, deferred := ?_ }
  · simp
  · simp
  · simp
  · simp
  · rintro acls ⟨⟩
    refine ⟨?_, by decide, by decide, by simp [maxAclNameLen]⟩
    rintro obj hobj perm rfl
    have hperm : perm = 7 ∨ perm = 5 := by simpa using hobj
    rcases hperm with rfl | rfl <;> decide
  · rintro acls ⟨⟩
    refine ⟨by decide, ?_⟩
    rintro acl ⟨⟩
    show (3 : UInt32).toNat + 1 ≤ 2147483647
    decide
  · rintro pairs ⟨⟩
    exact ⟨by decide, by decide, by simp [XattrDatum.Fits, xattrDigestLen], by decide⟩
  · simp
  · rintro pairs ⟨⟩
    simp [maxFullDatum]

/-! ### Entries that are consistent and not read back -/

/-- Options with nothing negotiated, attributes apart. -/
def bareOptions (preserveXattrs : Bool) : FileListDecodeOptions where
  protocol := 31
  xferFlagsAsVarint := true
  alwaysChecksum := false
  csumLen := 0
  preserveUid := false
  preserveGid := false
  preserveAcls := false
  preserveXattrs := preserveXattrs
  previousName := none

/-- An empty file. -/
def bareEntry (flags : UInt32) (path : Utf8String) (uidName : Option Utf8String)
    (xattrs : Option (List XattrPair)) : FileListEntry where
  flags := flags
  path := path
  size := 0
  mtime := 0
  mtimeNsec := none
  mode := 0o100644
  uid := none
  uidName := uidName
  gid := none
  gidName := none
  checksum := []
  symlinkTarget := none
  xattrs := xattrs
  acls := none

variable {path : Utf8String}

theorem bareEntry_consistent {flags : UInt32} {uidName : Option Utf8String}
    {xattrs : Option (List XattrPair)} (hne : flags ≠ 0) (hm : flags &&& xmitSameMode = 0)
    (hnsec : flags &&& xmitModNsec = 0) (hsame : flags &&& xmitSameName = 0)
    (hshort : flags &&& xmitLongName = 0 → path.bytes.length ≤ 255)
    (huid : uidName.isSome = true ↔ flags &&& xmitUserNameFollows ≠ 0)
    (hlen : ∀ name, uidName = some name → name.bytes.length ≤ 255)
    (hgid : flags &&& xmitGroupNameFollows = 0)
    (hx : ∀ pairs, xattrs = some pairs → XattrsFit pairs) :
    (bareEntry flags path uidName xattrs).Consistent (bareOptions xattrs.isSome) where
  size := by simp [bareEntry]
  mtime := by simp [bareEntry]
  varintFlags _ := hne
  classic := by simp [bareOptions]
  sameTime _ := rfl
  sameMode h := absurd hm h
  modNsec := by simp [bareEntry, hnsec]
  sameName h := absurd hsame h
  shortName h := by
    simpa [suffix, bareEntry, computeFlistNameSplit, hsame] using hshort h
  uid := by simp [bareEntry, bareOptions]
  gid := by simp [bareEntry, bareOptions]
  uidRange := by simp [bareEntry]
  gidRange := by simp [bareEntry]
  uidNameLen := hlen
  gidNameLen := by simp [bareEntry]
  symlink := by
    show (none : Option Utf8String).isSome = isSymlinkMode 0o100644
    decide
  checksum := by simp [bareEntry, bareOptions]
  acls := by simp [bareEntry, bareOptions]
  access := by simp [bareEntry]
  defaults := by simp [bareEntry]
  xattrs := rfl
  xattrsFit := hx
  uidName := huid
  gidName := by simp [bareEntry, hgid]

/-- A short attribute value that was put aside all the same. -/
def deferredShort : FileListEntry :=
  bareEntry xmitSameUid ⟨[0x61], by decide⟩ none
    (some [⟨⟨[0x6B], by decide⟩, .deferred 5 (List.replicate 16 0)⟩])

/-- An owner's name without the owner. -/
def ownerless : FileListEntry :=
  bareEntry xmitUserNameFollows ⟨[0x61], by decide⟩ (some ⟨[0x6F], by decide⟩) none

theorem validUpTo_ascii (n : Nat) : validUpTo (replicate n 0x61) = n := by
  have hf : ∀ n, validUpToFrom n (replicate n 0x61) = n := by
    intro n
    induction n with
    | zero => rfl
    | succ n ih =>
      show 1 + validUpToFrom n (replicate n 0x61) = n + 1
      rw [ih, Nat.add_comm]
  rw [validUpTo, length_replicate, hf]

/-- A name whose length does not fit the sign of its varint. -/
def overlong : FileListEntry :=
  bareEntry xmitLongName ⟨List.replicate (2 ^ 31) 0x61, by rw [validUpTo_ascii, length_replicate]⟩
    none none

variable {md5 : List UInt8 → List UInt8} {bytes : List UInt8}

theorem not_roundTrips_of {options : FileListDecodeOptions}
    {entry : FileListEntry} (hw : encodeFileListEntry md5 entry options = some bytes)
    (hr : decodeFileListEntry bytes options ≠
      .ok (.entry { entry with flags := entry.wireFlags options }, bytes.length)) :
    ¬ entry.RoundTrips md5 options := by
  rintro ⟨bytes', hw', hr'⟩
  cases hw.symm.trans hw'
  have h := hr' []
  rw [append_nil] at h
  exact hr h

theorem decode_negative_length (rest : List UInt8) :
    decodeFileListEntry ([0x40] ++ (encodeLength (2 ^ 31) ++ rest)) (bareOptions false) =
      .error (.invalidNameLen 0 0) := by
  have hf : Reads (decodeFlistFlags true) [0x40] xmitLongName :=
    (reads_decodeVarint 0x40).bind_last (.pure_of_eq (by decide))
  have hlen : Reads decodeVarint (encodeLength (2 ^ 31)) (-2147483648) := reads_decodeVarint _
  have he : decodeEntry (bareOptions false) xmitLongName
      ([0x40] ++ (encodeLength (2 ^ 31) ++ rest)) 1 = .error (.invalidNameLen 0 0) := by
    refine (run_bind_ok (Eq.refl (Except.ok ([], 1)))).trans (run_bind_error ?_)
    exact (run_bind_ok (hlen [0x40] rest)).trans rfl
  exact (run_bind_ok (hf [] _)).trans he

theorem encode_negative_length (hp : path.bytes.length = 2 ^ 31)
    (h : encodeFileListEntry md5 (bareEntry xmitLongName path none none)
      (bareOptions false) = some bytes) :
    ∃ rest, bytes = [0x40] ++ (encodeLength (2 ^ 31) ++ rest) := by
  have hflags : encodeFlistFlags (bareEntry xmitLongName path none none)
      (bareOptions false) = some [0x40] :=
    show some (encodeVarint xmitLongName.toInt32) = some [0x40] by decide
  have hn : encodeFlistName (bareEntry xmitLongName path none none) (bareOptions false) =
      encodeLength (2 ^ 31) ++ path.bytes := by
    have hsplit : (bareEntry xmitLongName path none none).suffix (bareOptions false)
        = path.bytes := by
      have hsame : xmitLongName &&& xmitSameName = 0 := by decide
      simp [suffix, bareEntry, computeFlistNameSplit, hsame]
    have hflagsEq : (bareEntry xmitLongName path none none).flags = xmitLongName := rfl
    rw [encodeFlistName_eq, hsplit, hp, hflagsEq, if_neg (by decide), if_pos (by decide),
      nil_append]
  simp only [encodeFileListEntry, hflags, hn] at h
  obtain ⟨stat, -, rest, -, rfl⟩ := h
  exact ⟨_, by rw [append_assoc]⟩

/-- Consistent entries that are not read back: a value put aside though it is short, a name
of an owner that is not sent, a name of `2 ^ 31` bytes. -/
theorem roundTrips_fails :
    (deferredShort.Consistent (bareOptions true) ∧ ¬ deferredShort.RoundTrips id
      (bareOptions true)) ∧
    (ownerless.Consistent (bareOptions false) ∧ ¬ ownerless.RoundTrips id (bareOptions false)) ∧
    (overlong.Consistent (bareOptions false) ∧ ¬ overlong.RoundTrips id (bareOptions false)) := by
  refine ⟨⟨?_, ?_⟩, ⟨?_, ?_⟩, ?_, ?_⟩
  · refine bareEntry_consistent (by decide) (by decide) (by decide) (by decide) (by decide)
      (by decide) (by simp) (by decide) ?_
    rintro pairs ⟨⟩
    exact ⟨by decide, by decide, by simp [XattrDatum.Fits, xattrDigestLen], by decide⟩
  · have hwrite : encodeFileListEntry id deferredShort (bareOptions true) =
        some ([8, 1, 0x61] ++ replicate 7 0 ++ [0xA4, 0x81, 0, 0, 0, 1, 2, 5, 0x6B, 0] ++
          replicate 16 0) := by decide
    exact not_roundTrips_of hwrite (by decide)
  · exact bareEntry_consistent (by decide) (by decide) (by decide) (by decide) (by decide)
      (by decide) (by simp) (by decide) (by simp)
  · have hwrite : encodeFileListEntry id ownerless (bareOptions false) =
        some ([0x84, 0, 1, 0x61] ++ replicate 7 0 ++ [0xA4, 0x81, 0, 0]) := by decide
    exact not_roundTrips_of hwrite (by decide)
  · exact bareEntry_consistent (by decide) (by decide) (by decide) (by decide) (by decide)
      (by decide) (by simp) (by decide) (by simp)
  · rintro ⟨bytes, hwrite, hread⟩
    obtain ⟨rest, rfl⟩ := encode_negative_length length_replicate hwrite
    have h := hread []
    rw [append_nil, decode_negative_length] at h
    cases h

end AeroFtp.RealWire
