import PineVoice.Mtb
import PineVoice.Bootab

/-!
# Verifying the image in a partition

A signed image is a header with the size of the content, the content, a tail with the types of
digest and signature, the digest and the signature. The model of `mtbv4_image_verify` returns the
ranges of flash that it hashes and reads, with the addresses as the code computes them. The one
bound that is checked counts the content alone, and wraps.
-/

namespace PineVoice.Mtb

open NorFlash Partitions Bootab

/-- `PARTITION_HEAD_MAGIC`. -/
def partitionHeadMagic : List UInt8 := [67, 83, 75, 89]

/-- `READ_MAX_SIZE`. -/
def readMaxSize : ℕ := 32

/-- The size of a `partition_header_t`. -/
def partHeadSize : ℕ := 12

/-- The size of a `partition_tail_head_t`. -/
def partTailHeadSize : ℕ := 8

/-- `get_length_with_digest_type`. -/
def getLengthWithDigestType : ℕ → ℕ
  | 1 => 20
  | 2 => 16
  | 3 => 28
  | 4 => 32
  | 5 => 48
  | 6 => 64
  | _ => 0

/-- `get_length_with_signature_type`. -/
def getLengthWithSignatureType : ℕ → ℕ
  | 1 => 128
  | 2 => 256
  | 4 => 40
  | _ => 0

/-- What the verification calls. -/
structure Verifier where
  /-- `get_data_from_faddr`, from an address and for a length. -/
  read : ℕ → ℕ → Option (List UInt8)
  /-- `hash_calc_start` with a digest type over a range: the digest and its length. -/
  hashCalc : ℕ → ℕ → ℕ → List UInt8 × ℕ
  /-- `km_get_pub_key_by_name`. -/
  pubKey : List UInt8 → Option (List UInt8)
  /-- `signature_verify_start` with both types, the key, the digest and the signature. -/
  signatureVerify : ℕ → ℕ → List UInt8 → List UInt8 → List UInt8 → ℤ
  /-- `check_is_need_verify`. -/
  needVerify : List UInt8 → Bool

/-- The parts of a signed image. -/
inductive Part where
  | content
  | tail
  | digest
  | signature
deriving DecidableEq

/-- A range of flash that is hashed or read. -/
structure Access where
  /-- What is expected there. -/
  part : Part
  /-- The address. -/
  addr : ℕ
  /-- The length. -/
  len : ℕ
deriving DecidableEq

/-- A range lies in a partition. -/
def Access.Inside (info : PartInfo) (a : Access) : Prop :=
  info.startAddr ≤ a.addr ∧ a.addr+a.len ≤ info.endAddr

instance (info : PartInfo) (a : Access) : Decidable (a.Inside info) :=
  inferInstanceAs (Decidable (_ ∧ _))

/-- Whether a header starts at an offset of the buffer. -/
def isHeader (buf : List UInt8) (offset : ℕ) : Bool :=
  (buf.drop offset).take 4 != partitionHeadMagic &&
    ((buf.drop (offset+4)).take 4 == partitionHeadMagic &&
      (buf.drop (offset+8)).take 4 != partitionHeadMagic)

/-- The loop that looks for a header, in steps of four bytes. -/
def findHeader (buf : List UInt8) : Option ℕ :=
  ((List.range (readMaxSize/4)).map (4*·)).find? (isHeader buf)

/-- `size` in the header at an offset. -/
def headerSize (buf : List UInt8) (offset : ℕ) : ℕ := le32 (bufferMem buf) (offset+8)

section Verify

variable (v : Verifier)

/-- The check of the signature. -/
def verifySignature (info : PartInfo) (digestType sigType sigAddr : ℕ) (sha : List UInt8)
    (done : List Access) : ℤ × List Access :=
  let sigLen := getLengthWithSignatureType sigType
  match v.pubKey info.pubKeyName with
  | none => (-1, done)
  | some key =>
    let done := ⟨.signature, sigAddr, sigLen⟩ :: done
    match v.read sigAddr sigLen with
    | none => (-1, done)
    | some oldSig =>
      if v.signatureVerify digestType sigType key sha oldSig ≠ 0 then (-1, done) else (0, done)

/-- The check of the digest, and what follows it. -/
def verifyDigest (info : PartInfo) (digestType sigType contentAddr contentSize tailAddr : ℕ)
    (done : List Access) : ℤ × List Access :=
  let hashAddr := (tailAddr+partTailHeadSize) % 2^32
  let hashLen := getLengthWithDigestType digestType
  let sigAddr := (hashAddr+hashLen) % 2^32
  let sha := v.hashCalc digestType contentAddr contentSize
  let done := ⟨.content, contentAddr, contentSize⟩ :: done
  if sha.2 ≠ hashLen then (-1, done)
  else
    let done := ⟨.digest, hashAddr, hashLen⟩ :: done
    match v.read hashAddr hashLen with
    | none => (-1, done)
    | some oldSha =>
      if oldSha ≠ sha.1.take hashLen then (-1, done)
      else verifySignature v info digestType sigType sigAddr (sha.1.take hashLen) done

/-- The address of the tail. -/
def partTailAddr (info : PartInfo) (offset size : ℕ) : ℕ :=
  ((info.startAddr+partHeadSize+offset) % 2^32+size) % 2^32

/-- The check of an image with a header at an offset. -/
def verifySigned (info : PartInfo) (offset size : ℕ) : ℤ × List Access :=
  let contentAddr := (info.startAddr+partHeadSize+offset) % 2^32
  let tailAddr := partTailAddr info offset size
  if info.endAddr < (info.startAddr+size) % 2^32 then (-1, [])
  else
    let done := [⟨.tail, tailAddr, partTailHeadSize⟩]
    match v.read tailAddr partTailHeadSize with
    | none => (-1, done)
    | some tail =>
      let digestType := (bufferMem tail 4).toNat
      let sigType := (bufferMem tail 5).toNat
      if sigType = 1 ∨ sigType = 2 then
        verifyDigest v info digestType sigType contentAddr size tailAddr done
      else (-1, done)

/-- The header of a signed image: its offset and the size of the content. -/
def signedHeader (info : PartInfo) : Option (ℕ × ℕ) :=
  (v.read info.startAddr (readMaxSize+partHeadSize)).bind fun buf =>
    (findHeader buf).map fun offset => (offset, headerSize buf offset)

/-- `mtbv4_image_verify`, with the ranges of flash that it hashes and reads behind
the header. -/
def mtbv4ImageVerify (table : List ImtbEntry) (flashStart : ℕ) (name : List UInt8) :
    ℤ × List Access :=
  match mtbv4GetPartitionInfo table flashStart name with
  | none => (-1, [])
  | some info =>
    match v.read info.startAddr (readMaxSize+partHeadSize) with
    | none => (-1, [])
    | some buf =>
      match findHeader buf with
      | none => if v.needVerify name then (-1, []) else (0, [])
      | some offset => verifySigned v info offset (headerSize buf offset)

end Verify

theorem findHeader_lt {buf : List UInt8} {offset : ℕ} (h : findHeader buf = some offset) :
    offset < readMaxSize := by
  obtain ⟨i, hi, rfl⟩ := List.mem_map.mp (List.mem_of_find?_eq_some h)
  have hlt : i < readMaxSize/4 := List.mem_range.mp hi
  omega

section Ranges

variable {v : Verifier} {info : PartInfo}

theorem verifySignature_cases {digestType sigType sigAddr : ℕ} {sha : List UInt8}
    {done all : List Access}
    (h : verifySignature v info digestType sigType sigAddr sha done = (0, all)) :
    all = ⟨.signature, sigAddr, getLengthWithSignatureType sigType⟩ :: done := by
  revert h
  fun_cases verifySignature v info digestType sigType sigAddr sha done <;> intro h
  case case4 => exact (Prod.mk.inj h).2.symm
  all_goals cases (Prod.mk.inj h).1

/-- The ranges of an image that was accepted. -/
theorem verifySigned_cases {offset size : ℕ} {all : List Access}
    (h : verifySigned v info offset size = (0, all)) :
    ∃ tail, v.read (partTailAddr info offset size) partTailHeadSize = some tail ∧
      let digestLen := getLengthWithDigestType (bufferMem tail 4).toNat
      let sigLen := getLengthWithSignatureType (bufferMem tail 5).toNat
      let hashAddr := (partTailAddr info offset size+partTailHeadSize) % 2^32
      all = [⟨.signature, (hashAddr+digestLen) % 2^32, sigLen⟩, ⟨.digest, hashAddr, digestLen⟩,
        ⟨.content, (info.startAddr+partHeadSize+offset) % 2^32, size⟩,
        ⟨.tail, partTailAddr info offset size, partTailHeadSize⟩] := by
  revert h
  fun_cases verifySigned v info offset size with
  | case1 | case2 | case4 => exact nofun
  | case3 _ _ _ _ tail htail =>
    fun_cases verifyDigest
    case case4 => exact fun h => ⟨tail, htail, verifySignature_cases h⟩
    all_goals exact nofun

end Ranges

/-- An image with a recognised header that was accepted lies in its partition exactly if
header, content, tail, digest and signature together fit. -/
theorem mtbv4ImageVerify_inside_iff (v : Verifier) (table : List ImtbEntry) (flashStart : ℕ)
    (name : List UInt8) {info : PartInfo} {offset size : ℕ}
    (hinfo : mtbv4GetPartitionInfo table flashStart name = some info)
    (hhead : signedHeader v info = some (offset, size))
    (hret : (mtbv4ImageVerify v table flashStart name).1 = 0) :
    (∀ a ∈ (mtbv4ImageVerify v table flashStart name).2, a.Inside info) ↔
      ∃ tail, v.read (partTailAddr info offset size) partTailHeadSize = some tail ∧
        info.startAddr+offset+partHeadSize+size+partTailHeadSize+
          getLengthWithDigestType (bufferMem tail 4).toNat+
          getLengthWithSignatureType (bufferMem tail 5).toNat ≤ info.endAddr := by
  obtain ⟨hstart, hend⟩ := mtbv4GetPartitionInfo_lt hinfo
  obtain ⟨buf, hbuf, hfind⟩ := Option.bind_eq_some_iff.mp hhead
  obtain ⟨o, ho, hpair⟩ := Option.map_eq_some_iff.mp hfind
  cases hpair
  have hoffset : offset < 32 := findHeader_lt ho
  have heq : mtbv4ImageVerify v table flashStart name =
      verifySigned v info offset (headerSize buf offset) := by
    simp only [mtbv4ImageVerify, hinfo, hbuf, ho]
  obtain ⟨all, hrun⟩ : ∃ all, mtbv4ImageVerify v table flashStart name = (0, all) :=
    ⟨_, Prod.ext hret rfl⟩
  obtain ⟨tail, htail, hall⟩ := verifySigned_cases (heq.symm.trans hrun)
  generalize headerSize buf offset = size at *
  have hexists : ∀ P : List UInt8 → Prop, (∃ t, v.read (partTailAddr info offset size)
      partTailHeadSize = some t ∧ P t) ↔ P tail := by
    intro P
    rw [htail]
    exact ⟨fun ⟨t, ht, hp⟩ => Option.some.inj ht ▸ hp, fun hp => ⟨tail, rfl, hp⟩⟩
  rw [hexists, hrun, hall]
  simp only [List.forall_mem_cons, Access.Inside, partTailAddr, partHeadSize, partTailHeadSize,
    List.not_mem_nil, false_implies, implies_true, and_true]
  omega

section Samples

/-- A flash with a signed image at address 4096, with a content of a size. -/
def sampleFlash (size : ℕ) : Mem := fun a =>
  if a = 4100 then 67 else if a = 4101 then 83 else if a = 4102 then 75 else
  if a = 4103 then 89 else if a = 4105 then (size/256).toUInt8 else
  if a = 4104 then (size % 256).toUInt8 else
  if a = 4096+12+size+4 then 4 else if a = 4096+12+size+5 then 1 else 0

/-- A verifier that reads a flash and accepts a digest and a signature of zeros. -/
def sampleVerifier (flash : Mem) : Verifier where
  read a n := some ((List.range n).map fun i => flash (a+i))
  hashCalc t _ _ := (List.replicate 64 0, getLengthWithDigestType t)
  pubKey _ := some []
  signatureVerify _ _ _ _ _ := 0
  needVerify _ := true

/-- A table with one partition of one block. -/
def sampleTable : List ImtbEntry := [⟨[112, 114, 105, 109], [], 1, 8⟩]

/-- The partition of `sampleTable`. -/
def sampleInfo : PartInfo := ⟨[112, 114, 105, 109], [], 4096, 4608⟩

theorem mtbv4ImageVerify_inside_sample :
    (mtbv4ImageVerify (sampleVerifier (sampleFlash 256)) sampleTable 0
      [112, 114, 105, 109]).1 = 0 ∧
    ∀ a ∈ (mtbv4ImageVerify (sampleVerifier (sampleFlash 256)) sampleTable 0
      [112, 114, 105, 109]).2, a.Inside sampleInfo := by
  have hinfo : mtbv4GetPartitionInfo sampleTable 0 [112, 114, 105, 109] = some sampleInfo := by
    decide +kernel
  have hhead : signedHeader (sampleVerifier (sampleFlash 256)) sampleInfo = some (0, 256) := by
    decide +kernel
  have hret : (mtbv4ImageVerify (sampleVerifier (sampleFlash 256)) sampleTable 0
      [112, 114, 105, 109]).1 = 0 := by
    decide +kernel
  have hinside := mtbv4ImageVerify_inside_iff (sampleVerifier (sampleFlash 256)) sampleTable 0
    [112, 114, 105, 109] hinfo hhead hret
  exact ⟨hret, hinside.mpr ⟨_, rfl, by decide +kernel⟩⟩

/-- A content of 512 bytes is accepted in a partition of 512 bytes: it ends twelve bytes
behind the partition, and the tail, the digest and the signature follow it. -/
theorem mtbv4ImageVerify_outside :
    mtbv4GetPartitionInfo sampleTable 0 [112, 114, 105, 109] = some sampleInfo ∧
    signedHeader (sampleVerifier (sampleFlash 512)) sampleInfo = some (0, 512) ∧
    mtbv4ImageVerify (sampleVerifier (sampleFlash 512)) sampleTable 0 [112, 114, 105, 109] =
      (0, [⟨.signature, 4660, 128⟩, ⟨.digest, 4628, 32⟩, ⟨.content, 4108, 512⟩,
        ⟨.tail, 4620, 8⟩]) ∧
    ¬ (⟨.content, 4108, 512⟩ : Access).Inside sampleInfo := by
  decide +kernel

end Samples

end PineVoice.Mtb
