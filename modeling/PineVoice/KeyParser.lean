import PineVoice.NorFlash

/-!
# Keys of the key partition

`parser_init` copies the key partition to a buffer, decrypts it in place and checks its
magic number and its version. `parser_get_key` then takes the number of keys, and the
place and size of a key, from the decrypted image as they are. The cipher is a parameter.
-/

namespace PineVoice.KeyMgr

open NorFlash

/-- Little-endian word of two bytes. -/
def le16 (m : Mem) (off : ℕ) : ℕ := (m off).toNat+256*(m (off+1)).toNat

/-- `KM_OK`. -/
def kmOk : ℕ := 0

/-- `KM_ERR`. -/
def kmErr : ℕ := 0x20000001

/-- `KM_ERR_TOO_LONG`. -/
def kmErrTooLong : ℕ := 0x2000000A

/-- The `KP_ERR` codes, as `uint32_t`. -/
inductive KpErr where
  | magicNum
  | notFound
  | version
  | null
  | keySize
deriving DecidableEq

/-- `INVALID_ADDR`. -/
def invalidAddr : ℕ := 2^32-1

/-- `KP_IDX_MAGIC`. -/
def kpIdxMagic : ℕ := 0x78446E49

/-- `sizeof(g_parser_buf)`. -/
def kpBufferLen : ℕ := 4096

/-- `sizeof(parser_head_t)`, and of `parser_key_info_t`. -/
def kpHeadLen : ℕ := 16

/-- `g_parser_buf`, in an address space of 32 bits. -/
structure ParserBuf where
  /-- Its address. -/
  addr : ℕ
  /-- The buffer lies in the address space. -/
  addr_le : addr+kpBufferLen ≤ 2^32

/-- What `mtb_get_partition_info` gives for a partition. -/
structure KpPart where
  /-- `start_addr`. -/
  startAddr : ℕ
  /-- `img_size`. -/
  imgSize : ℕ
deriving DecidableEq

/-- `parser_read_kp` up to the read: the partition "otp", or else "kp". -/
def parserReadKp (otp kp : Option KpPart) (len : ℕ) : Except ℕ KpPart :=
  match otp.or kp with
  | none => .error kmErr
  | some part =>
    if part.startAddr = invalidAddr ∨ part.imgSize = invalidAddr then .error kmErr
    else if len < part.imgSize then .error kmErrTooLong
    else .ok part

/-- `parser_check`. -/
def parserCheck (mem : Mem) (buf : ℕ) : Option KpErr :=
  if le32 mem buf ≠ kpIdxMagic then some .magicNum
  else if le16 mem (buf+4) ≠ 3 then some .version
  else none

/-- The memory with the image at the start of the buffer and zeros behind it. -/
def loadImage (mem : Mem) (buf : ℕ) (image : Mem) (size : ℕ) : Mem := fun i =>
  if buf ≤ i ∧ i < buf+kpBufferLen then if i < buf+size then image (i-buf) else 0 else mem i

/-- What the calls of the cipher give for an image of a size: the decrypted one, or the first
code that is not `KP_OK`. Without `CONFIG_KEY_MGR_KP_PROTECT` it is the image itself. -/
abbrev Cipher := Mem → ℕ → Except { ret : ℕ // ret ≠ kmOk } Mem

/-- `parser_init`; the image is what the read from the start of the partition gives. -/
def parserInit (buf : ParserBuf) (otp kp : Option KpPart) (image : KpPart → Mem)
    (decrypt : Cipher) (mem : Mem) : ℕ × Mem :=
  match parserReadKp otp kp kpBufferLen with
  | .error _ => (kmErr, loadImage mem buf.addr (fun _ => 0) 0)
  | .ok part =>
    match decrypt (image part) part.imgSize with
    | .error ret => (ret, loadImage mem buf.addr (image part) part.imgSize)
    | .ok plain =>
      let loaded := loadImage mem buf.addr plain part.imgSize
      if parserCheck loaded buf.addr = none then (kmOk, loaded) else (kmErr, loaded)

section Descriptor

variable (mem : Mem) (buf i : ℕ)

/-- `&kp->key[i]`. -/
def keyInfo : ℕ := buf+kpHeadLen+i*kpHeadLen

/-- `key_info->type`. -/
def keyInfoType : ℕ := le16 mem (keyInfo buf i)

/-- `key_info->size`. -/
def keyInfoSize : ℕ := le16 mem (keyInfo buf i+2)

/-- `key_info->offset`. -/
def keyInfoOffset : ℕ := le32 mem (keyInfo buf i+8)

/-- `kp->head.keynum`. -/
def headKeynum : ℕ := le16 mem (buf+8)

end Descriptor

/-- A key that was found. -/
structure KeyRegion where
  /-- The place of its descriptor. -/
  index : ℕ
  /-- `*key`. -/
  key : ℕ
  /-- `*key_size`. -/
  keySize : ℕ
deriving DecidableEq

/-- `parser_get_key`. -/
def parserGetKey (mem : Mem) (buf : ParserBuf) (keyNull : Bool) (keyType : ℕ) :
    Except KpErr KeyRegion :=
  if keyNull then .error .null
  else
    match parserCheck mem buf.addr with
    | some err => .error err
    | none =>
      match (List.range (headKeynum mem buf.addr)).find? fun i =>
          keyInfoType mem buf.addr i = keyType with
      | none => .error .notFound
      | some i =>
        if keyInfoSize mem buf.addr i = 0 then .error .keySize
        else if le16 mem (buf.addr+4) ≠ 3 then .error .version
        else .ok ⟨i, (buf.addr+keyInfoOffset mem buf.addr i) % 2^32, keyInfoSize mem buf.addr i⟩

/-- The key and its descriptor lie in the bytes that were loaded. -/
def KeyRegion.Inside (buf loaded : ℕ) (k : KeyRegion) : Prop :=
  buf ≤ k.key ∧ k.key+k.keySize ≤ buf+loaded ∧ keyInfo buf k.index+kpHeadLen ≤ buf+loaded

/-- The image has a descriptor of the type, and the first one points into the image. -/
def HasKey (image : Mem) (size keyType : ℕ) : Prop :=
  ∃ i < headKeynum image 0, keyInfo 0 i+kpHeadLen ≤ size ∧ keyInfoType image 0 i = keyType ∧
    (∀ j < i, keyInfoType image 0 j ≠ keyType) ∧
    keyInfoOffset image 0 i+keyInfoSize image 0 i ≤ size

theorem le32_lt (m : Mem) (off : ℕ) : le32 m off < 2^32 := by
  have h0 := (m off).toNat_lt
  have h1 := (m (off+1)).toNat_lt
  have h2 := (m (off+2)).toNat_lt
  have h3 := (m (off+3)).toNat_lt
  rw [le32]
  omega

section Loaded

variable {mem image : Mem} {buf size : ℕ}

section

variable (hsize : size ≤ kpBufferLen)
include hsize

theorem loadImage_inside {i : ℕ} (hi : i < size) :
    loadImage mem buf image size (buf+i) = image i := by
  rw [loadImage, if_pos (by omega), if_pos (by omega), Nat.add_sub_cancel_left]

theorem le16_loadImage {i : ℕ} (hi : i+2 ≤ size) :
    le16 (loadImage mem buf image size) (buf+i) = le16 image i := by
  rw [le16, le16, Nat.add_assoc, loadImage_inside hsize (by omega),
    loadImage_inside hsize (by omega)]

theorem le32_loadImage {i : ℕ} (hi : i+4 ≤ size) :
    le32 (loadImage mem buf image size) (buf+i) = le32 image i := by
  simp only [le32, Nat.add_assoc]
  rw [loadImage_inside hsize (by omega), loadImage_inside hsize (by omega),
    loadImage_inside hsize (by omega), loadImage_inside hsize (by omega)]

/-- A descriptor that was loaded is the one of the image. -/
theorem keyInfo_loadImage {i : ℕ} (hi : keyInfo 0 i+kpHeadLen ≤ size) :
    keyInfoType (loadImage mem buf image size) buf i = keyInfoType image 0 i ∧
      keyInfoSize (loadImage mem buf image size) buf i = keyInfoSize image 0 i ∧
      keyInfoOffset (loadImage mem buf image size) buf i = keyInfoOffset image 0 i := by
  have hlen : kpHeadLen = 16 := rfl
  have haddr : keyInfo buf i = buf+keyInfo 0 i := by
    simp only [keyInfo]
    omega
  simp only [keyInfoType, keyInfoSize, keyInfoOffset, haddr, Nat.add_assoc]
  exact ⟨le16_loadImage hsize (by omega), le16_loadImage hsize (by omega),
    le32_loadImage hsize (by omega)⟩

theorem headKeynum_loadImage (hhead : kpHeadLen ≤ size) :
    headKeynum (loadImage mem buf image size) buf = headKeynum image 0 := by
  have hlen : kpHeadLen = 16 := rfl
  rw [headKeynum, headKeynum, le16_loadImage hsize (by omega)]

end

end Loaded

section Results

variable {buf : ParserBuf} {otp kp : Option KpPart} {image : KpPart → Mem} {decrypt : Cipher}

variable {mem mem' : Mem}

theorem ite_error_ok {ε α : Type*} {c : Prop} [Decidable c] {e : ε} {x : Except ε α} {a : α}
    (h : (if c then .error e else x) = .ok a) : ¬c ∧ x = .ok a := by
  split_ifs at h with hc
  exact ⟨hc, h⟩

/-- A partition that was loaded fits into the buffer. -/
theorem parserInit_ok (h : parserInit buf otp kp image decrypt mem = (kmOk, mem')) {part : KpPart}
    (hpart : otp.or kp = some part) {plain : Mem}
    (hplain : decrypt (image part) part.imgSize = .ok plain) :
    part.imgSize ≤ kpBufferLen ∧ mem' = loadImage mem buf.addr plain part.imgSize := by
  rw [parserInit, parserReadKp, hpart] at h
  dsimp only at h
  split_ifs at h with hinvalid hlong
  · cases h
  · cases h
  · simp only [hplain] at h
    split_ifs at h
    · cases h
      exact ⟨Nat.le_of_not_lt hlong, rfl⟩
    · cases h

/-- The key comes from the first descriptor of its type. -/
theorem parserGetKey_ok {keyNull : Bool} {keyType : ℕ} {k : KeyRegion}
    (h : parserGetKey mem buf keyNull keyType = .ok k) :
    k.index < headKeynum mem buf.addr ∧ keyInfoType mem buf.addr k.index = keyType ∧
      (∀ j < k.index, keyInfoType mem buf.addr j ≠ keyType) ∧
      k.key = (buf.addr+keyInfoOffset mem buf.addr k.index) % 2^32 ∧
      k.keySize = keyInfoSize mem buf.addr k.index ∧ k.keySize ≠ 0 := by
  obtain ⟨-, h⟩ := ite_error_ok h
  cases hcheck : parserCheck mem buf.addr with
  | some err =>
    rw [hcheck] at h
    cases h
  | none =>
    rw [hcheck] at h
    cases hfind : (List.range (headKeynum mem buf.addr)).find? fun i =>
        decide (keyInfoType mem buf.addr i = keyType) with
    | none =>
      rw [hfind] at h
      cases h
    | some i =>
      rw [hfind] at h
      obtain ⟨hsize, h⟩ := ite_error_ok h
      obtain ⟨-, h⟩ := ite_error_ok h
      cases h
      obtain ⟨htype, hmem, hfirst⟩ := List.find?_range_eq_some.mp hfind
      refine ⟨List.mem_range.mp hmem, of_decide_eq_true htype, fun j hj => ?_, rfl, rfl, hsize⟩
      simpa using hfirst j hj

end Results

/-- For every image that `parser_init` accepts, whatever lies behind the buffer, and every key that
is found: the key and its descriptor lie in the bytes that were loaded if and only if the first
descriptor of its type in the decrypted image points into the image. -/
theorem parserGetKey_inside_iff (buf : ParserBuf) {otp kp : Option KpPart}
    (image : KpPart → Mem) (decrypt : Cipher) (mem : Mem) {mem' : Mem}
    (hinit : parserInit buf otp kp image decrypt mem = (kmOk, mem')) {part : KpPart}
    (hpart : otp.or kp = some part) {plain : Mem}
    (hplain : decrypt (image part) part.imgSize = .ok plain) {keyNull : Bool} {keyType : ℕ}
    {k : KeyRegion} (hget : parserGetKey mem' buf keyNull keyType = .ok k) :
    k.Inside buf.addr part.imgSize ↔ HasKey plain part.imgSize keyType := by
  obtain ⟨hsize, rfl⟩ := parserInit_ok hinit hpart hplain
  obtain ⟨hnum, htype, hfirst, hkey, hlen, hpos⟩ := parserGetKey_ok hget
  have hbuf := buf.addr_le
  have hinfo : ∀ b i, keyInfo b i = b+16+i*16 := fun b i => rfl
  have hsame : ∀ {i}, keyInfo 0 i+kpHeadLen ≤ part.imgSize → ∀ j ≤ i,
      keyInfoType (loadImage mem buf.addr plain part.imgSize) buf.addr j =
        keyInfoType plain 0 j := by
    intro i hi j hj
    refine (keyInfo_loadImage hsize ?_).1
    rw [hinfo] at hi ⊢
    omega
  constructor
  · rintro ⟨hlow, hhigh, hdesc⟩
    have hloaded : keyInfo 0 k.index+kpHeadLen ≤ part.imgSize := by
      rw [hinfo] at hdesc ⊢
      omega
    obtain ⟨-, hsize', hoff'⟩ := @keyInfo_loadImage mem plain buf.addr _ hsize _ hloaded
    rw [headKeynum_loadImage hsize (by rw [hinfo] at hloaded; omega)] at hnum
    rw [hsame hloaded k.index (Nat.le_refl _)] at htype
    refine ⟨k.index, hnum, hloaded, htype, fun j hj => ?_, ?_⟩
    · rw [← hsame hloaded j hj.le]
      exact hfirst j hj
    · have hoff := le32_lt plain (keyInfo 0 k.index+8)
      rw [hoff'] at hkey
      rw [keyInfoOffset] at hkey ⊢
      omega
  · rintro ⟨i, hi, hdesc, htype', hfirst', hregion⟩
    have heq : k.index = i := by
      rcases Nat.lt_trichotomy k.index i with hlt | heq | hlt
      · exact absurd ((hsame hdesc k.index hlt.le).symm.trans htype) (hfirst' k.index hlt)
      · exact heq
      · exact absurd ((hsame hdesc i (Nat.le_refl i)).trans htype') (hfirst i hlt)
    obtain ⟨-, hsize', hoff'⟩ := @keyInfo_loadImage mem plain buf.addr _ hsize _ hdesc
    rw [heq, hoff'] at hkey
    rw [heq, hsize'] at hlen
    rw [KeyRegion.Inside, heq]
    rw [hinfo] at hdesc ⊢
    omega

section Samples

/-- The buffer. -/
def sampleBuf : ParserBuf := ⟨0x1000, by decide⟩

/-- The partition "kp" with an image of a size. -/
def samplePart (size : ℕ) : KpPart := ⟨0, size⟩

/-- An image for a number of keys, the first of type 3 with 16 bytes at an offset. -/
def sampleImage (keynum : List UInt8) (offset : UInt8) : Mem := fun i =>
  ([0x49, 0x6E, 0x44, 0x78, 3, 0, 0, 0] ++ keynum ++ [0, 0, 0, 0, 0, 0,
    3, 0, 16, 0, 0, 0, 0, 0, offset, 0, 0, 0, 0, 0, 0, 0]).getD i 0

/-- Memory with a descriptor of a key of type 3 behind the buffer. -/
def sampleMem : Mem := fun i => if i = 0x2000 then 3 else if i = 0x2002 then 16 else 0

/-- The memory after the image was loaded. -/
def sampleLoaded (keynum : List UInt8) (offset : UInt8) (size : ℕ) : Mem :=
  loadImage sampleMem 0x1000 (sampleImage keynum offset) size

/-- No encryption. -/
def samplePlain : Cipher := fun image _ => .ok image

theorem sample_init {keynum : List UInt8} {offset : UInt8} {size : ℕ}
    (hread : parserReadKp none (some (samplePart size)) kpBufferLen = .ok (samplePart size))
    (hcheck : parserCheck (sampleLoaded keynum offset size) 0x1000 = none) :
    parserInit sampleBuf none (some (samplePart size)) (fun _ => sampleImage keynum offset)
      samplePlain sampleMem = (kmOk, sampleLoaded keynum offset size) := by
  rw [parserInit, hread]
  exact if_pos hcheck

theorem parserGetKey_inside_sample :
    parserGetKey (sampleLoaded [1, 0] 32 48) sampleBuf false 3 = .ok ⟨0, 0x1020, 16⟩ ∧
      KeyRegion.Inside 0x1000 48 ⟨0, 0x1020, 16⟩ := by
  have hpart : (none : Option KpPart).or (some (samplePart 48)) = some (samplePart 48) := rfl
  have hget : parserGetKey (sampleLoaded [1, 0] 32 48) sampleBuf false 3 =
      .ok ⟨0, 0x1020, 16⟩ := by decide
  refine ⟨hget, (parserGetKey_inside_iff sampleBuf (fun _ => sampleImage [1, 0] 32) samplePlain
    sampleMem (sample_init rfl (by decide)) hpart rfl hget).mpr ?_⟩
  exact ⟨0, by decide, by decide, by decide, nofun, by decide⟩

/-- A key that lies behind an image of 48 bytes, and one whose descriptor lies behind the buffer,
for an image that is a header only. -/
theorem parserGetKey_outside :
    parserInit sampleBuf none (some (samplePart 48)) (fun _ => sampleImage [1, 0] 48) samplePlain
        sampleMem = (kmOk, sampleLoaded [1, 0] 48 48) ∧
      parserGetKey (sampleLoaded [1, 0] 48 48) sampleBuf false 3 = .ok ⟨0, 0x1030, 16⟩ ∧
      ¬KeyRegion.Inside 0x1000 48 ⟨0, 0x1030, 16⟩ ∧
      parserInit sampleBuf none (some (samplePart 16)) (fun _ => sampleImage [0, 1] 0) samplePlain
        sampleMem = (kmOk, sampleLoaded [0, 1] 0 16) ∧
      parserGetKey (sampleLoaded [0, 1] 0 16) sampleBuf false 3 = .ok ⟨255, 0x1000, 16⟩ ∧
      ¬KeyRegion.Inside 0x1000 16 ⟨255, 0x1000, 16⟩ := by
  refine ⟨sample_init rfl (by decide), by decide +kernel, ?_, sample_init rfl (by decide),
    by decide +kernel, ?_⟩
  · rintro ⟨-, hhigh, -⟩
    exact absurd hhigh (by decide)
  · rintro ⟨-, -, hdesc⟩
    exact absurd hdesc (by decide)

end Samples

end PineVoice.KeyMgr
