/-
The server's preamble is read back from protocol 30 on.

Below protocol 30 the decoder expects no compat flags and the encoder writes them all the
same, so the byte of the flags is taken for the first one of the seed.
-/
import AeroFtp.Aerorsync.RealWire.Preamble
import AeroFtp.Proofs.Aerorsync.FileListRoundTrip

namespace AeroFtp.RealWire

open LittleEndian Reader List

variable {preamble : ServerPreamble} {compression : PreambleCompression} {bytes : List UInt8}

theorem u32FromLeBytes_toLeBytes (x : UInt32) : u32FromLeBytes (u32ToLeBytes x) = x := by
  rw [u32FromLeBytes, u32ToLeBytes, fromLeBytes_toLeBytes_of_lt x.toNat_lt, UInt32.ofNat_toNat]

theorem reads_u32 (short : Nat → RealWireError) (x : UInt32) :
    Reads (take short 4) (u32ToLeBytes x) (u32ToLeBytes x) :=
  .take (length_toLeBytes ..)

theorem reads_protocolVersion {version : UInt32}
    (h : rsyncMinProtocolVersion ≤ version ∧ version ≤ rsyncMaxProtocolVersion) :
    Reads decodeProtocolVersion (u32ToLeBytes version) version := by
  refine (reads_u32 _ version).bind_last ?_
  rw [u32FromLeBytes_toLeBytes]
  exact .ite_neg (not_not.mpr h) (.pure version)

theorem reads_lenPrefixed (at_ : String) {algos w : List UInt8}
    (h : writeU8LenPrefixedAscii algos = some w) : Reads (readU8LenPrefixedAscii at_) w algos := by
  unfold writeU8LenPrefixedAscii assertThat at h
  by_cases hlen : algos.length ≤ 255
  · rw [if_pos hlen] at h
    by_cases hascii : algos.all isPrintable = true
    · rw [if_pos hascii] at h
      cases h
      have hf : algos.findIdx? (fun b => !isPrintable b) = none := by
        simpa [findIdx?_eq_none_iff] using hascii
      refine (reads_decodeByte at_ _).bind (.position fun start => ?_)
      refine (Reads.take (toNat_ofNat_of_le hlen).symm).bind_last ?_
      rw [hf]
      exact .pure algos
    · rw [if_neg hascii] at h
      cases h
  · rw [if_neg hlen] at h
    cases h

theorem encodeAlgos_absent {algos w : List UInt8} (h : encodeAlgos false algos = some w) :
    algos = [] ∧ w = [] := by
  by_cases hnil : algos = []
  · simp [encodeAlgos, assertThat, hnil] at h
    exact ⟨hnil, h⟩
  · simp [encodeAlgos, assertThat, hnil] at h

theorem reads_algos {strings : Bool} {checksumAlgos compressionAlgos w v : List UInt8}
    (hw : encodeAlgos strings checksumAlgos = some w)
    (hv : encodeAlgos (strings && compression == .negotiated) compressionAlgos = some v) :
    Reads (decodeAlgos strings compression) (w ++ v) (checksumAlgos, compressionAlgos) := by
  cases strings with
  | false =>
    obtain ⟨rfl, rfl⟩ := encodeAlgos_absent hw
    obtain ⟨rfl, rfl⟩ := encodeAlgos_absent hv
    exact .pure _
  | true =>
    refine .ite_pos rfl ((reads_lenPrefixed _ hw).bind ?_)
    cases compression with
    | negotiated => exact .ite_pos rfl ((reads_lenPrefixed _ hv).bind_last (.pure _))
    | fixedOrOff =>
      obtain ⟨rfl, rfl⟩ := encodeAlgos_absent hv
      exact .ite_neg (by decide) (.pure _)

theorem decodeServerPreambleWith_of_reads {w : List UInt8} (t : List UInt8)
    (h : Reads (serverPreambleFields compression) w preamble) :
    decodeServerPreambleWith (w ++ t) compression = .ok { preamble with consumed := w.length } := by
  have hrun := h [] t
  rw [nil_append, length_nil, Nat.zero_add] at hrun
  rw [decodeServerPreambleWith, hrun]
  rfl

theorem encodeServerPreambleWith_eq
    (h : encodeServerPreambleWith preamble compression = some bytes) :
    ∃ w v, encodeAlgos (negotiatesStrings preamble.compatFlags) preamble.checksumAlgos = some w ∧
      encodeAlgos (negotiatesStrings preamble.compatFlags && compression == .negotiated)
        preamble.compressionAlgos = some v ∧
      bytes = u32ToLeBytes preamble.protocolVersion ++ (encodeVarint preamble.compatFlags ++
        ((w ++ v) ++ u32ToLeBytes preamble.checksumSeed)) := by
  simp only [encodeServerPreambleWith, Option.bind_eq_bind, Option.bind_eq_some_iff,
    Option.pure_def, Option.some.injEq] at h
  obtain ⟨w, hw, v, hv, rfl⟩ := h
  exact ⟨w, v, hw, hv, by rw [append_assoc]⟩

theorem reads_preamble (hnew : 30 ≤ preamble.protocolVersion)
    (hversion : rsyncMinProtocolVersion ≤ preamble.protocolVersion ∧
      preamble.protocolVersion ≤ rsyncMaxProtocolVersion)
    (h : encodeServerPreambleWith preamble compression = some bytes) :
    Reads (serverPreambleFields compression) bytes { preamble with consumed := 0 } := by
  obtain ⟨w, v, hw, hv, rfl⟩ := encodeServerPreambleWith_eq h
  have hh : Reads decodeServerHello
      (u32ToLeBytes preamble.protocolVersion ++ encodeVarint preamble.compatFlags)
      ⟨preamble.protocolVersion, preamble.compatFlags⟩ := by
    refine (reads_protocolVersion hversion).bind (.ite_neg (UInt32.not_lt.mpr hnew) ?_)
    exact (reads_decodeVarint _).bind_last (.pure_of_eq (by rw [Int32.ofInt_toInt]))
  refine hh.bind ((reads_algos hw hv).bind ((reads_u32 _ _).bind_last (.pure_of_eq ?_)))
  rw [u32FromLeBytes_toLeBytes]

theorem reads_older (hold : preamble.protocolVersion < 30)
    (hv : rsyncMinProtocolVersion ≤ preamble.protocolVersion ∧
      preamble.protocolVersion ≤ rsyncMaxProtocolVersion)
    {seed : List UInt8} (hs : seed.length = 4) :
    Reads (serverPreambleFields compression) (u32ToLeBytes preamble.protocolVersion ++ seed)
      ⟨preamble.protocolVersion, 0, [], [], u32FromLeBytes seed, 0⟩ := by
  have hh : Reads decodeServerHello (u32ToLeBytes preamble.protocolVersion)
      ⟨preamble.protocolVersion, 0⟩ :=
    (reads_protocolVersion hv).bind_last (.ite_pos hold (.pure _))
  have halgos : Reads (decodeAlgos (negotiatesStrings 0) compression) [] ([], []) := .pure _
  exact hh.bind (halgos.bind ((Reads.take hs).bind_last (Reads.pure _)))

/-- **A preamble is read back exactly from protocol 30 on.** -/
theorem serverPreamble_roundTrip_iff (preamble : ServerPreamble) (compression : PreambleCompression)
    (bytes : List UInt8) (hversion : 20 ≤ preamble.protocolVersion ∧ preamble.protocolVersion ≤ 40)
    (hcompat : preamble.protocolVersion < 30 → preamble.compatFlags = 0)
    (hwrite : encodeServerPreambleWith preamble compression = some bytes) :
    (∀ t, decodeServerPreambleWith (bytes ++ t) compression =
      .ok { preamble with consumed := bytes.length }) ↔ 30 ≤ preamble.protocolVersion := by
  constructor
  · intro h
    by_contra hnew
    have hold := UInt32.not_le.mp hnew
    obtain ⟨w, v, hw, hv, rfl⟩ := encodeServerPreambleWith_eq hwrite
    rw [hcompat hold] at hw hv h
    obtain ⟨-, rfl⟩ := encodeAlgos_absent hw
    obtain ⟨-, rfl⟩ := encodeAlgos_absent hv
    -- the flags' byte and three of the seed are taken for the seed, and one byte is left
    have hflags : encodeVarint 0 = [0] := by decide
    have hlen : (u32ToLeBytes preamble.checksumSeed).length = 4 := length_toLeBytes ..
    have hversionLen : (u32ToLeBytes preamble.protocolVersion).length = 4 := length_toLeBytes ..
    have hfour : (0 :: (u32ToLeBytes preamble.checksumSeed).take 3).length = 4 := by simp [hlen]
    have hfields : Reads (serverPreambleFields compression) _ _ := reads_older hold hversion hfour
    have hread := decodeServerPreambleWith_of_reads
      ((u32ToLeBytes preamble.checksumSeed).drop 3) hfields
    have hwhole := h []
    rw [hflags, append_nil] at hwhole
    rw [append_assoc, cons_append, take_append_drop] at hread
    simp only [nil_append, singleton_append] at hwhole
    rw [hread] at hwhole
    have hconsumed := congrArg ServerPreamble.consumed (Except.ok.inj hwhole)
    simp [hlen, hversionLen] at hconsumed
  · intro hnew t
    have hread := decodeServerPreambleWith_of_reads t (reads_preamble hnew hversion hwrite)
    exact hread

/-- A preamble of protocol 31 with both lists. -/
theorem serverPreamble_roundTrip_iff_lists :
    decodeServerPreambleWith ([31, 0, 0, 0, 0x80, 0xFE, 1, 0x61, 1, 0x62, 1, 2, 3, 4] ++ [7])
      .negotiated = .ok ⟨31, 0xFE, [0x61], [0x62], 0x04030201, 14⟩ := by
  have hwrite : encodeServerPreambleWith ⟨31, 0xFE, [0x61], [0x62], 0x04030201, 0⟩ .negotiated =
      some [31, 0, 0, 0, 0x80, 0xFE, 1, 0x61, 1, 0x62, 1, 2, 3, 4] := by decide +kernel
  exact (serverPreamble_roundTrip_iff _ .negotiated _ (by decide) (by decide) hwrite).mpr
    (by decide) [7]

/-- A preamble of protocol 29: the flags' byte is read as the first of the seed. -/
theorem serverPreamble_older :
    encodeServerPreambleWith ⟨29, 0, [], [], 0x04030201, 0⟩ .negotiated = some
      [29, 0, 0, 0, 0, 1, 2, 3, 4] ∧
    decodeServerPreambleWith [29, 0, 0, 0, 0, 1, 2, 3, 4] .negotiated =
      .ok ⟨29, 0, [], [], 0x03020100, 8⟩ := by
  decide

end AeroFtp.RealWire
