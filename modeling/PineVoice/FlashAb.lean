import PineVoice.SliceImage

/-!
# Downloading a pack into the partitions of the other slot

The write operation of the `flashab` netio. The first chunk of a pack carries its header, which is
checked, kept in the env partition and read for the images. From then on a chunk goes to the image
that the stream offset lies in, and what is left of it to the next one. All counters are unsigned
words.
-/

namespace PineVoice.FlashAb

open NorFlash Partitions Bootab

/-- `PACK_HEAD_MAGIC`. -/
def packHeadMagic : ℕ := 0x4B434150

/-- `IMG_MAX_COUNT`. -/
def imgMaxCount : ℕ := 8

/-- The size of a `pack_header_v2_t`. -/
def packHeaderSize : ℕ := 1024

/-- A difference of unsigned words. -/
def wordSub (x y : ℕ) : ℕ := (x+2^32-y % 2^32) % 2^32

section Header

variable (header : List UInt8)

/-- A half word of the header. -/
def le16 (offset : ℕ) : ℕ :=
  (bufferMem header offset).toNat+256*(bufferMem header (offset+1)).toNat

/-- `magic`. -/
def magic : ℕ := le32 (bufferMem header) 0

/-- `head_version`. -/
def headVersion : ℕ := le16 header 4

/-- `head_size`. -/
def headSize : ℕ := le16 header 6

/-- `head_checksum`. -/
def headChecksum : ℕ := le32 (bufferMem header) 8

/-- `image_count`. -/
def imageCount : ℕ := le32 (bufferMem header) 12

/-- Where `image_info[i]` starts. -/
def imageInfoAt (i : ℕ) : ℕ := 664+24*i

/-- The text of `img_name`, as far as `strlcpy` copies it to a partition name. -/
def imgName (i : ℕ) : List UInt8 :=
  ((header.drop (imageInfoAt i)).take 18).takeWhile (· != 0)

/-- `offset` of an image. -/
def imgOffset (i : ℕ) : ℕ := le32 (bufferMem header) (imageInfoAt i+16)

/-- `size` of an image. -/
def imgSize (i : ℕ) : ℕ := le32 (bufferMem header) (imageInfoAt i+20)

/-- Bytes of a buffer set to zero. -/
def zeroed (lo n : ℕ) : List UInt8 :=
  header.take lo ++ (List.replicate n 0 ++ header.drop (lo+n))

end Header

/-- `get_checksum`. -/
def getChecksum (data : List UInt8) : ℕ := data.foldl (fun cksum b => (cksum+b.toNat) % 2^32) 0

/-- The checksum of a header: its own field and the signature count as zero. -/
def headerChecksum (buffer : List UInt8) (headsize : ℕ) : ℕ :=
  getChecksum (zeroed (zeroed (buffer.take headsize) 8 4) 36 512)

/-- An entry of `download_img_info_t`. -/
structure ImgInfo where
  /-- `partition_name`. -/
  partitionName : List UInt8
  /-- `img_offset`. -/
  imgOffset : ℕ
  /-- `img_size`. -/
  imgSize : ℕ
  /-- `partition_size`. -/
  partitionSize : ℕ
  /-- `write_size`. -/
  writeSize : ℕ
deriving DecidableEq

/-- A cleared entry. -/
def ImgInfo.zero : ImgInfo := ⟨[], 0, 0, 0, 0⟩

/-- The netio with its `pack_private_t`. -/
structure Io where
  /-- `io->offset`. -/
  offset : ℕ
  /-- `image_count`. -/
  imageCount : ℕ
  /-- The entries of `img_info` that are filled; the others are cleared. -/
  imgInfo : List ImgInfo
deriving DecidableEq

/-- The netio after `flash_open`. -/
def Io.opened : Io := ⟨0, 0, []⟩

/-- An entry of `img_info`. -/
def Io.img (io : Io) (i : ℕ) : ImgInfo := io.imgInfo.getD i .zero

/-- Bytes of an image were written. -/
def Io.written (io : Io) (i n : ℕ) : Io :=
  { io with imgInfo := io.imgInfo.modify i fun e => { e with writeSize := (e.writeSize+n) % 2^32 } }

/-- The loop of `get_img_index` over the offsets, each against the next one; the
entry behind the last image is all ones. -/
def imgIndexFrom (io : Io) (curOffset : ℕ) : ℕ → ℕ → Option ℕ
  | _, 0 => none
  | i, n+1 =>
    if (io.img i).imgOffset ≤ curOffset ∧
        curOffset < (if i+1 < io.imageCount then (io.img (i+1)).imgOffset else 2^32-1)
    then some i
    else imgIndexFrom io curOffset (i+1) n

/-- `get_img_index`. -/
def getImgIndex (io : Io) (curOffset : ℕ) : Option ℕ :=
  if curOffset = 0 then some 0 else imgIndexFrom io curOffset 0 io.imageCount

/-- The text of `otaab_get_next_ab`. -/
def slotText : Slot → List UInt8
  | .a => [97]
  | .b => [98]

/-- The name of the partition for an image. -/
def partitionName (header : List UInt8) (nextAb : Slot) (i : ℕ) : List UInt8 :=
  imgName header i ++ slotText nextAb

/-- What the netio works on. -/
structure Target where
  /-- The env partition. -/
  env : EnvPartition
  /-- The partition table. -/
  table : List PartitionInfo
  /-- What the C library sees. -/
  files : Files
  /-- The slot that `otaab_get_next_ab` names. -/
  nextAb : Slot

section Write

variable {σ : Type} (f : FlashOps σ) (tg : Target)

/-- The loop of `images_info_init` over the images from `i` on. -/
def imagesInfoFrom (header : List UInt8) : ℕ → ℕ → ℤ × List ImgInfo
  | _, 0 => (0, [])
  | i, n+1 =>
    let name := partitionName header tg.nextAb i
    match partitionInfoGet tg.table (partitionOpen tg.table name) with
    | none => (-1, [{ ImgInfo.zero with partitionName := name }])
    | some p =>
      let rest := imagesInfoFrom header (i+1) n
      (rest.1, ⟨name, imgOffset header i, imgSize header i, p.length, 0⟩ :: rest.2)

/-- `images_info_init`, on the netio that keeps the result. -/
def imagesInfoInit (io : Io) (header : List UInt8) : ℤ × Io :=
  if magic header ≠ packHeadMagic then (-1, io)
  else if imgMaxCount < imageCount header then (-1, io)
  else
    let r := imagesInfoFrom tg header 0 (imageCount header)
    (r.1, { io with imageCount := imageCount header, imgInfo := r.2 })

/-- `fota_flash_write`. -/
def fotaFlashWrite (s : σ) (partitionName : List UInt8) (offSet : ℕ) (data : List UInt8)
    (length : ℕ) : ℤ × σ :=
  if length = 0 then (0, s)
  else
    let r := bootabUpgradePartitionSlice f tg.env.sectorSize tg.table tg.files s
      (some partitionName) none offSet length 0 (some (bufferMem data))
    if r.1 < 0 then r else (offT length, r.2)

/-- The end of `flash_write`. -/
def accepted (io : Io) (length : ℕ) (s : σ) : ℤ × Io × σ :=
  (offT length, { io with offset := (io.offset+length) % 2^32 }, s)

/-- What is left of a chunk behind the end of an image goes to the next image. -/
def writeRemain (io : Io) (s : σ) (idx length : ℕ) (data : List UInt8) (remainsize : ℕ) :
    ℤ × Io × σ :=
  let next := io.img idx
  if next.partitionName = [] then accepted io length s
  else
    let w := fotaFlashWrite f tg s next.partitionName next.writeSize data remainsize
    if w.1 < 0 then (-1, io, w.2) else accepted (io.written idx remainsize) length w.2

/-- `flash_write` from the choice of the image on. -/
def writeImages (io : Io) (s : σ) (buffer : List UInt8) (headsize : ℕ) : ℤ × Io × σ :=
  match getImgIndex io io.offset with
  | none => (-1, io, s)
  | some idx =>
    let img := io.img idx
    let room := wordSub img.partitionSize (wordSub io.offset img.imgOffset)
    let length := if room < buffer.length then room else buffer.length
    let realToWriteLen := wordSub length headsize
    if img.imgSize < (img.writeSize+realToWriteLen) % 2^32 then
      let leftsize := wordSub img.imgSize img.writeSize
      let w := fotaFlashWrite f tg s img.partitionName img.writeSize (buffer.drop headsize) leftsize
      if w.1 < 0 then (-1, io, w.2)
      else
        writeRemain f tg (io.written idx leftsize) w.2 (idx+1) length
          (buffer.drop (headsize+leftsize)) (wordSub realToWriteLen leftsize)
    else
      let w := fotaFlashWrite f tg s img.partitionName img.writeSize (buffer.drop headsize)
        realToWriteLen
      if w.1 < 0 then (-1, io, w.2) else accepted (io.written idx realToWriteLen) length w.2

/-- The header is kept in the env partition, behind the flags. -/
def storeHeader (s : σ) (buffer : List UInt8) : ℤ × σ :=
  let offset := offT (2*tg.env.sectorSize % 2^32)
  let eraseBlk := packHeaderSize/tg.env.sectorSize
  let e := partitionErase f tg.env.toPartitionInfo s offset (if eraseBlk = 0 then 1 else eraseBlk)
  if e.1 < 0 then e
  else partitionWrite f tg.env.toPartitionInfo e.2 offset (buffer.take packHeaderSize)

/-- The part of `flash_write` that is run on the first chunk. -/
def writeHeader (io : Io) (s : σ) (buffer : List UInt8) : ℤ × Io × σ :=
  if magic buffer ≠ packHeadMagic then (-1, io, s)
  else if buffer.length < packHeaderSize then (-1, io, s)
  else if headVersion buffer ≠ 2 then (-1, io, s)
  else if tg.files.canAlloc (headSize buffer) = false then (enomem, io, s)
  else if headerChecksum buffer (headSize buffer) ≠ headChecksum buffer then (-1, io, s)
  else
    let h := storeHeader f tg s buffer
    if h.1 < 0 then (h.1, io, h.2)
    else
      let i := imagesInfoInit tg io buffer
      if i.1 < 0 then (i.1, i.2, h.2) else writeImages f tg i.2 h.2 buffer (headSize buffer)

/-- `flash_write`. -/
def flashWrite (io : Io) (s : σ) (buffer : List UInt8) : ℤ × Io × σ :=
  if tg.env.length < packHeaderSize then (-1, io, s)
  else if io.offset = 0 then writeHeader f tg io s buffer
  else writeImages f tg io s buffer 0

/-- A caller offers the bytes that come next, so many at a time, and goes on behind
those that were accepted: how far it gets if no call fails. -/
def feed (bytes : List UInt8) : List ℕ → ℕ × Io × σ → Option (ℕ × Io × σ)
  | [], st => some st
  | n :: lens, (pos, io, s) =>
    let r := flashWrite f tg io s ((bytes.drop pos).take n)
    if r.1 < 0 then none else feed bytes lens (pos+r.1.toNat, r.2.1, r.2.2)

end Write

end PineVoice.FlashAb
