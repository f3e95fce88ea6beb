/-
A hidden name reads back.

In `standard` mode the padding is taken off again, the wide block is deciphered by walking it
with the inverse permutation and the text of the bytes is the name.  In `obfuscate` mode a
character stays in its bucket, so the bucket of the rotated one is the bucket it came from,
and the number in front parses to the rotation.  No hidden name is empty or holds a slash,
so it is one segment of a path.
-/
import AeroFtp.RcloneCrypt.Names

namespace AeroFtp.RcloneCrypt

open Sync Framing LittleEndian List Texts

/-! ### Text -/

theorem pushDigit_digitChar {n d : Nat} (hd : d < 10) (h : n * 10 + d < 2 ^ 32) :
    pushDigit n d.digitChar = .ok (n * 10 + d) := by
  have hdigit : d.digitChar.isDigit = true ∧ d.digitChar.toNat - '0'.toNat = d := by
    have hall : ∀ d < 10, d.digitChar.isDigit = true ∧ d.digitChar.toNat - '0'.toNat
        = d := by decide
    exact hall d hd
  rw [pushDigit, if_neg (by simp [hdigit.1]), hdigit.2, if_neg (by omega)]

theorem foldlM_pushDigit_toDigits (n : Nat) (h : n < 2 ^ 32) :
    (Nat.toDigits 10 n).foldlM pushDigit 0 = .ok n := by
  induction n using Nat.strongRecOn with
  | ind n ih =>
    by_cases hs : n < 10
    · rw [Nat.toDigits_of_lt_base hs, foldlM_cons, pushDigit_digitChar hs (by omega),
        Nat.zero_add]
      rfl
    · rw [Nat.toDigits_of_base_le (by omega) (by omega), foldlM_append, ih (n / 10) (by omega)
        (by omega)]
      have hl := pushDigit_digitChar (n := n / 10) (Nat.mod_lt n (by omega)) (by omega)
      have hn : n / 10 * 10 + n % 10 = n := by omega
      rw [hn] at hl
      show foldlM pushDigit (n / 10) [(n % 10).digitChar] = .ok n
      rw [foldlM_cons, hl]
      rfl

theorem isDigit_of_mem_toDigits {c : Char} {n : Nat} (h : c ∈ Nat.toDigits 10 n) :
    c.isDigit = true :=
  Nat.isDigit_of_mem_toDigits (by omega) (by omega) h

theorem parseU32_toDigits {n : Nat} (h : n < 2 ^ 32) : parseU32 (Nat.toDigits 10 n) = .ok n := by
  have hdigits := foldlM_pushDigit_toDigits n h
  have hs : ∀ c ∈ Nat.toDigits 10 n, c ≠ '+' := by
    intro c hc hp
    have hdigit := isDigit_of_mem_toDigits hc
    rw [hp] at hdigit
    exact absurd hdigit (by decide)
  unfold parseU32
  split
  case h_1 heq => exact absurd heq Nat.toDigits_ne_nil
  case h_2 heq => exact absurd rfl (hs '+' (by simp [heq]))
  case h_3 digits heq => exact absurd rfl (hs '+' (by simp [heq]))
  case h_4 => exact hdigits

/-! ### Blocks -/

theorem xorBlock_comm (a b : Block) : xorBlock a b = xorBlock b a := by
  apply Vector.ext
  intro i hi
  simp only [xorBlock, Vector.getElem_zipWith]
  exact UInt8.xor_comm _ _

theorem xorBlock_assoc (a b c : Block) : xorBlock (xorBlock a b) c = xorBlock a (xorBlock b c) := by
  apply Vector.ext
  intro i hi
  simp only [xorBlock, Vector.getElem_zipWith]
  exact UInt8.xor_assoc _ _ _

instance : Std.Commutative xorBlock := ⟨xorBlock_comm⟩

instance : Std.Associative xorBlock := ⟨xorBlock_assoc⟩

theorem xorBlock_cancel (a b : Block) : xorBlock (xorBlock a b) b = a := by
  apply Vector.ext
  intro i hi
  simp only [xorBlock, Vector.getElem_zipWith]
  rw [UInt8.xor_assoc, UInt8.xor_self, UInt8.xor_zero]

theorem length_ofBlocks (blocks : List Block) :
    (ofBlocks blocks).length = blocks.length * aesBlock := by
  induction blocks with
  | nil => rfl
  | cons block blocks ih =>
    have hlen : (ofBlocks (block :: blocks)).length = aesBlock + (ofBlocks blocks).length := by
      simp [ofBlocks]
    rw [hlen, ih, length_cons, Nat.succ_mul, Nat.add_comm]

theorem ofFn_getD_toList (block : Block) :
    (Vector.ofFn fun i => block.toList.getD i 0) = block := by
  apply Vector.ext
  intro i hi
  simp

theorem toBlocks_ofBlocks (blocks : List Block) : toBlocks (ofBlocks blocks) = blocks := by
  have hchunks : chunks aesBlock (ofBlocks blocks) = blocks.map Vector.toList := by
    refine chunks_flatten (by decide) ?_
    intro chunk hchunk
    obtain ⟨block, _, rfl⟩ := mem_map.mp hchunk
    exact Vector.length_toList
  rw [toBlocks, hchunks, map_map]
  conv => rhs; rw [← map_id blocks]
  exact map_congr_left fun block _ => ofFn_getD_toList block

theorem exists_ofBlocks {m : Nat} : ∀ {data : Bytes}, data.length = m * aesBlock →
    ∃ blocks, data = ofBlocks blocks := by
  induction m with
  | zero =>
    intro data h
    exact ⟨[], length_eq_zero_iff.mp (by omega)⟩
  | succ m ih =>
    intro data h
    rw [Nat.succ_mul] at h
    have hd : (data.drop aesBlock).length
        = m * aesBlock := by rw [length_drop, h, Nat.add_sub_cancel]
    obtain ⟨blocks, hb⟩ := ih hd
    have ht : (data.take aesBlock).length = aesBlock := length_take_of_le (by omega)
    refine ⟨⟨(data.take aesBlock).toArray, by simpa using ht⟩ :: blocks, ?_⟩
    rw [ofBlocks, flatMap_cons, ← ofBlocks, ← hb]
    exact (take_append_drop aesBlock data).symm

/-! ### Standard names -/

variable (prims : Primitives) {blocks : List Block}

theorem emeTransform_ofBlocks (key : NameKey) (tweak : Block) (hne : blocks ≠ [])
    (encrypt : Bool) : emeTransform prims key tweak (ofBlocks blocks) encrypt
      = .ok (ofBlocks (Eme.transform xorBlock gf128Double
          (if encrypt then prims.aes256 key else (prims.aes256 key).symm : Equiv.Perm Block) tweak
          (tabulateL (prims.aes256 key (Vector.replicate aesBlock 0)) blocks.length) blocks)) := by
  have hm : (ofBlocks blocks).length / aesBlock = blocks.length := by
    rw [length_ofBlocks, Nat.mul_div_cancel _ (by decide)]
  have hmod : (ofBlocks blocks).length % aesBlock = 0 := by rw [length_ofBlocks, Nat.mul_mod_left]
  have hacc : ¬ (blocks.length = 0 ∨ 0 ≠ 0) := by
    simpa using hne
  rw [emeTransform, hm, hmod, if_neg hacc, toBlocks_ofBlocks]

theorem emeTransform_emeTransform (key : NameKey) (tweak : Block) (hne : blocks ≠ [])
    (encrypt : Bool) :
    ∃ sealed, emeTransform prims key tweak (ofBlocks blocks) encrypt = .ok (ofBlocks sealed) ∧
      sealed ≠ [] ∧
      emeTransform prims key tweak (ofBlocks sealed) (!encrypt) = .ok (ofBlocks blocks) := by
  have hf := emeTransform_ofBlocks prims key tweak hne encrypt
  have ho : (if !encrypt then prims.aes256 key else (prims.aes256 key).symm : Equiv.Perm Block)
      = (if encrypt then prims.aes256 key else
        (prims.aes256 key).symm : Equiv.Perm Block).symm := by
    cases encrypt <;> rfl
  generalize (if encrypt then prims.aes256 key else (prims.aes256 key).symm : Equiv.Perm Block) = σ
    at hf ho
  have hm : blocks.length
      = (tabulateL (prims.aes256 key (Vector.replicate aesBlock 0)) blocks.length).length :=
    (Eme.length_doublings _ _ _).symm
  have hlen := Eme.length_transform xorBlock gf128Double σ tweak hm
  have hs : Eme.transform xorBlock gf128Double σ tweak
      (tabulateL (prims.aes256 key (Vector.replicate aesBlock 0)) blocks.length) blocks ≠ [] := by
    intro hnil
    rw [hnil] at hlen
    exact hne (length_eq_zero_iff.mp hlen.symm)
  refine ⟨_, hf, hs, ?_⟩
  -- the table depends on the number of blocks alone, which is the same
  refine (emeTransform_ofBlocks prims key tweak hs _).trans ?_
  rw [ho, hlen]
  exact congrArg (fun blocks => Except.ok (ofBlocks blocks))
    (Eme.transform_symm_transform xorBlock gf128Double xorBlock_cancel σ tweak hm)

/-- **The wide-block cipher is a permutation.**  For every key, tweak and non-empty string of
whole blocks, deciphering undoes enciphering and enciphering undoes deciphering. -/
theorem eme_inverts (prims : Primitives) (key : NameKey) (tweak : Block) (x : Bytes) (hne : x ≠ [])
    (hmul : x.length % aesBlock = 0) :
    (emeEncrypt prims key tweak x >>= emeDecrypt prims key tweak) = .ok x ∧
      (emeDecrypt prims key tweak x >>= emeEncrypt prims key tweak) = .ok x := by
  obtain ⟨blocks, rfl⟩ := exists_ofBlocks (Nat.div_mul_cancel (Nat.dvd_of_mod_eq_zero hmul)).symm
  have hblocks : blocks ≠ [] := by
    rintro rfl
    exact hne rfl
  constructor
  · obtain ⟨sealed, hseal, _, hopen⟩ := emeTransform_emeTransform prims key tweak hblocks true
    rw [emeEncrypt, hseal]
    exact hopen
  · obtain ⟨opened, hopen, _, hseal⟩ := emeTransform_emeTransform prims key tweak hblocks false
    rw [emeDecrypt, hopen]
    exact hseal

theorem length_pkcs7Pad (data : Bytes) : ∃ m, (pkcs7Pad data).length = (m + 1) * aesBlock := by
  refine ⟨data.length / 16, ?_⟩
  simp only [pkcs7Pad, length_append, length_replicate, aesBlock]
  omega

theorem pkcs7Unpad_pkcs7Pad (data : Bytes) : pkcs7Unpad (pkcs7Pad data) = .ok data := by
  obtain ⟨padLen, hpad, hpos, hle⟩ : ∃ padLen, padLen = aesBlock - data.length % aesBlock ∧
      0 < padLen ∧
      padLen ≤ 16 := ⟨_, rfl, by simp only [aesBlock]; omega, by simp only [aesBlock]; omega⟩
  have hb : (UInt8.ofNat padLen).toNat = padLen := by
    rw [UInt8.toNat_ofNat']
    omega
  have hlast : (data ++ replicate padLen (UInt8.ofNat padLen)).getLast? = some
      (UInt8.ofNat padLen) := by
    rw [getLast?_append, getLast?_replicate, if_neg (by omega)]
    rfl
  have hn : UInt8.ofNat padLen ≠ 0 := by
    intro hz
    rw [hz] at hb
    exact absurd hb.symm (by simpa using Nat.ne_of_gt hpos)
  rw [pkcs7Unpad, pkcs7Pad, ← hpad, hlast]
  simp only [hb, length_append, length_replicate, Nat.add_sub_cancel]
  rw [if_neg (by simp only [hn, false_or]; omega), take_left, if_neg (by simp)]

/-- **A standard name reads back, and is one segment.** -/
theorem decryptName_encryptName (nameKey : NameKey) (dirIv : Block) (name : Path) :
    ∃ hidden, encryptName prims nameKey dirIv name = .ok hidden ∧ hidden ≠ [] ∧ '/' ∉ hidden ∧
      decryptName prims nameKey dirIv hidden = .ok name := by
  obtain ⟨m, hm⟩ := length_pkcs7Pad (asBytes name)
  obtain ⟨blocks, hb⟩ := exists_ofBlocks hm
  have hne : blocks ≠ [] := by
    intro hnil
    rw [hb, length_ofBlocks, hnil] at hm
    exact absurd hm (by simp)
  obtain ⟨sealed, henc, hs, hdec⟩ := emeTransform_emeTransform prims nameKey dirIv hne true
  have hlen : (ofBlocks sealed).length ≠ 0 ∧ (ofBlocks sealed).length % aesBlock = 0 := by
    rw [length_ofBlocks, Nat.mul_mod_left]
    have hpos := length_pos_of_ne_nil hs
    exact ⟨by simp only [aesBlock]; omega, rfl⟩
  refine ⟨base32hexEncode prims (ofBlocks sealed), ?_, ?_,
    prims.base32hex.slash_notMem_encode _, ?_⟩
  · rw [encryptName, hb, emeEncrypt, henc]
    rfl
  · intro hnil
    have hdecode := prims.base32hex.decode_encode (ofBlocks sealed)
    rw [show prims.base32hex.encode (ofBlocks sealed) = [] from hnil,
      prims.base32hex.decode_nil] at hdecode
    rw [← Except.ok.inj hdecode] at hlen
    exact hlen.1 rfl
  · have hdecode : base32hexDecode prims (base32hexEncode prims (ofBlocks sealed)) = .ok
        (ofBlocks sealed) := by
      rw [base32hexDecode, base32hexEncode, prims.base32hex.decode_encode]
      rfl
    have hacc : ¬ ((ofBlocks sealed).length = 0 ∨ (ofBlocks sealed).length % aesBlock ≠ 0) := by
      simp [hlen.1, hlen.2]
    have hu := pkcs7Unpad_pkcs7Pad (asBytes name)
    rw [hb] at hu
    show (base32hexDecode prims _ >>= _) = _
    rw [hdecode]
    show (if _ then _ else _) = _
    rw [if_neg hacc]
    show (emeTransform prims nameKey dirIv (ofBlocks sealed) (!true) >>= _) = _
    rw [hdec]
    show (pkcs7Unpad (ofBlocks blocks) >>= _) = _
    rw [hu]
    simp only [bind, Except.bind, fromUtf8_asBytes]
    rfl

/-! ### Obfuscated names -/

theorem rotatedOffset_lt (size off rotateBy : Nat) (encrypt : Bool) :
    rotatedOffset (size + 1) off rotateBy encrypt < size + 1 := by
  cases encrypt with
  | true => exact Nat.mod_lt _ (Nat.succ_pos size)
  | false => exact Nat.mod_lt _ (Nat.succ_pos size)

theorem rotatedOffset_rotatedOffset {size off : Nat} (hoff : off < size) (rotateBy : Nat) :
    rotatedOffset size (rotatedOffset size off rotateBy true) rotateBy false = off := by
  have hr : rotateBy % size < size := Nat.mod_lt _ (by omega)
  simp only [rotatedOffset, if_true, Bool.false_eq_true, if_false]
  by_cases hw : off + rotateBy % size < size
  · have hb : off + rotateBy % size + size - rotateBy % size = off + size := by omega
    rw [Nat.mod_eq_of_lt hw, hb, Nat.add_mod_right, Nat.mod_eq_of_lt hoff]
  · have hround : (off + rotateBy % size) % size = off + rotateBy % size - size := by
      rw [Nat.mod_eq_sub_mod (by omega), Nat.mod_eq_of_lt (by omega)]
    have hb : off + rotateBy % size - size + size - rotateBy % size = off := by omega
    rw [hround, hb, Nat.mod_eq_of_lt hoff]

/-- The code point lies in the bucket. -/
def ObfBucket.Has (b : ObfBucket) (cp : Nat) : Prop := b.lower ≤ cp ∧ cp ≤ b.upper

theorem find?_of_has {buckets : List ObfBucket} (hs : buckets.Pairwise fun a b => a.upper < b.lower)
    {b : ObfBucket} (hb : b ∈ buckets) {cp : Nat} (h : b.Has cp) :
    (buckets.find? fun b => b.lower ≤ cp ∧ cp ≤ b.upper) = some b := by
  induction buckets with
  | nil => cases hb
  | cons a buckets ih =>
    rw [pairwise_cons] at hs
    rcases mem_cons.mp hb with rfl | hb
    · exact find?_cons_of_pos (decide_eq_true h)
    · have hbefore := hs.1 b hb
      rw [find?_cons_of_neg (by simp; have := h.1; omega)]
      exact ih hs.2 hb

theorem obfBuckets_sorted : obfBuckets.Pairwise fun a b => a.upper < b.lower := by decide

theorem obfBuckets_bounded : ∀ b ∈ obfBuckets, b.lower ≤ b.upper ∧ b.upper ≤ 0xFF := by decide

variable {ch : Char}

theorem obfRotateChar_of_has {b : ObfBucket} (hb : b ∈ obfBuckets) (h : b.Has ch.toNat)
    (rotateBy : Nat) (encrypt : Bool) : (obfRotateChar ch rotateBy encrypt).toNat
      = b.lower + rotatedOffset (b.upper - b.lower + 1) (ch.toNat - b.lower) rotateBy encrypt := by
  have hlt := rotatedOffset_lt (b.upper - b.lower) (ch.toNat - b.lower) rotateBy encrypt
  have hbound := obfBuckets_bounded b hb
  have hv : Nat.isValidChar (b.lower + rotatedOffset (b.upper - b.lower + 1)
      (ch.toNat - b.lower) rotateBy encrypt) := by
    omega
  simp only [obfRotateChar, find?_of_has obfBuckets_sorted hb h, charOr]
  rw [if_pos hv, Char.ofNat, dif_pos hv]
  rfl

theorem obfRotateChar_of_none (h : ∀ b ∈ obfBuckets, ¬ b.Has ch.toNat) (rotateBy : Nat)
    (encrypt : Bool) : obfRotateChar ch rotateBy encrypt = ch := by
  have hn : (obfBuckets.find? fun b => b.lower ≤ ch.toNat ∧ ch.toNat ≤ b.upper) = none := by
    rw [find?_eq_none]
    intro b hb
    have hout : ¬ (b.lower ≤ ch.toNat ∧ ch.toNat ≤ b.upper) := h b hb
    simpa only [decide_eq_true_eq] using hout
  simp only [obfRotateChar, hn]

theorem obfRotateChar_obfRotateChar (ch : Char) (rotateBy : Nat) :
    obfRotateChar (obfRotateChar ch rotateBy true) rotateBy false = ch := by
  by_cases hin : ∃ b ∈ obfBuckets, b.Has ch.toNat
  · obtain ⟨b, hb, h⟩ := hin
    have hr := obfRotateChar_of_has hb h rotateBy true
    have hlt := rotatedOffset_lt (b.upper - b.lower) (ch.toNat - b.lower) rotateBy true
    have hhas : b.Has (obfRotateChar ch rotateBy true).toNat := by
      rw [ObfBucket.Has]
      have hbound := obfBuckets_bounded b hb
      omega
    have hoff : ch.toNat - b.lower < b.upper - b.lower + 1 := by
      have hle := h.2
      omega
    apply Char.toNat_inj.mp
    rw [obfRotateChar_of_has hb hhas, hr, Nat.add_sub_cancel_left, rotatedOffset_rotatedOffset hoff,
      Nat.add_sub_cancel' h.1]
  · have hn : ∀ b ∈ obfBuckets, ¬ b.Has ch.toNat := fun b hb h => hin ⟨b, hb, h⟩
    rw [obfRotateChar_of_none hn, obfRotateChar_of_none hn]

theorem obfRotateChar_ne_slash (h : ch ≠ '/') (rotateBy : Nat) :
    obfRotateChar ch rotateBy true ≠ '/' := by
  intro hs
  have hb := obfRotateChar_obfRotateChar ch rotateBy
  rw [hs] at hb
  exact h hb.symm

theorem obfRotationFromDirIv_lt (dirIv : Block) : obfRotationFromDirIv dirIv < 2 ^ 32 := by
  have hlt := fromLeBytes_lt (dirIv.toList.take 4)
  have hlen : (dirIv.toList.take 4).length = 4 := by simp [aesBlock]
  rw [hlen] at hlt
  exact hlt

/-- **An obfuscated name reads back, and is one segment.** -/
theorem deobfuscateName_obfuscateName (dirIv : Block) {name : Path} (hne : name ≠ [])
    (hslash : '/' ∉ name) :
    ∃ hidden, obfuscateName dirIv name = .ok hidden ∧ hidden ≠ [] ∧ '/' ∉ hidden ∧
      deobfuscateName prims dirIv hidden = .ok name := by
  have hd : ∀ c ∈ Nat.toDigits 10 (obfRotationFromDirIv dirIv), (c != '.') = true ∧ c ≠ '/' := by
    intro c hc
    have hc := isDigit_of_mem_toDigits hc
    refine ⟨?_, ?_⟩
    · rw [bne_iff_ne]
      rintro rfl
      exact absurd hc (by decide)
    · rintro rfl
      exact absurd hc (by decide)
  refine ⟨_, by rw [obfuscateName, if_neg hne], by simp, ?_, ?_⟩
  · rw [mem_append, mem_cons, mem_map]
    rintro (hmem | hmem | ⟨ch, hmem, hr⟩)
    · exact (hd _ hmem).2 rfl
    · exact absurd hmem (by decide)
    · exact obfRotateChar_ne_slash (fun h => hslash (h ▸ hmem)) _ hr
  · have hspan : (Nat.toDigits 10 (obfRotationFromDirIv dirIv) ++
        '.' :: name.map (obfRotateChar · (obfRotationFromDirIv dirIv) true)).span (· != '.')
        = (Nat.toDigits 10 (obfRotationFromDirIv dirIv),
          '.' :: name.map (obfRotateChar · (obfRotationFromDirIv dirIv) true)) := by
      rw [span_eq_takeWhile_dropWhile, takeWhile_append_of_pos fun c hc => (hd c hc).1,
        dropWhile_append_of_pos fun c hc => (hd c hc).1]
      simp
    have hb : (name.map (obfRotateChar · (obfRotationFromDirIv dirIv) true)).map
        (obfRotateChar · (obfRotationFromDirIv dirIv) false) = name := by
      rw [map_map]
      exact (map_congr_left fun ch _ => obfRotateChar_obfRotateChar ch _).trans (map_id name)
    simp only [deobfuscateName, hspan, parseU32_toDigits (obfRotationFromDirIv_lt dirIv), hb]
    rw [if_neg (by simp)]

/-! ### An instance of the parameters -/

/-- A byte as a character past the first 256. -/
def wideChar (b : UInt8) : Char := Char.ofNat (0x100 + b.toNat)

theorem toNat_wideChar (b : UInt8) : (wideChar b).toNat = 0x100 + b.toNat := by
  have hb := b.toNat_lt
  have hv : Nat.isValidChar (0x100 + b.toNat) := by
    omega
  rw [wideChar, Char.ofNat, dif_pos hv]
  rfl

def wideCodec : Base32Hex where
  encode data := data.map wideChar
  decode s := .ok (s.map fun c => UInt8.ofNat (c.toNat - 0x100))
  decode_encode data := by
    rw [map_map]
    refine congrArg Except.ok ((map_congr_left fun b _ => ?_).trans (map_id data))
    rw [Function.comp_apply, toNat_wideChar, Nat.add_sub_cancel_left, UInt8.ofNat_toNat]
    rfl
  decode_nil := rfl
  slash_notMem_encode data := by
    rw [mem_map]
    intro ⟨b, _, hslash⟩
    have hwide := toNat_wideChar b
    rw [hslash, show '/'.toNat = 47 from rfl] at hwide
    omega

/-- The sum with the first bytes of the key. -/
def maskCipher (key : NameKey) : Equiv.Perm Block where
  toFun block := xorBlock block (Vector.ofFn fun i => key.get (i.castLE (by decide)))
  invFun block := xorBlock block (Vector.ofFn fun i => key.get (i.castLE (by decide)))
  left_inv block := xorBlock_cancel block _
  right_inv block := xorBlock_cancel block _

def maskPrims : Primitives where
  aes256 := maskCipher
  base32hex := wideCodec
  utf8Error _ := "invalid utf-8 sequence"
  debugText text := String.ofList text

theorem eme_inverts_two_blocks :
    (emeEncrypt maskPrims (.replicate 32 5) (.replicate 16 1) (List.replicate 32 7) >>=
        emeDecrypt maskPrims (.replicate 32 5) (.replicate 16 1)) = .ok (List.replicate 32 7) ∧
      (emeDecrypt maskPrims (.replicate 32 5) (.replicate 16 1) (List.replicate 32 7) >>=
        emeEncrypt maskPrims (.replicate 32 5) (.replicate 16 1)) = .ok (List.replicate 32 7) :=
  eme_inverts maskPrims _ _ _ (by decide) (by decide)

end AeroFtp.RcloneCrypt
