import PineVoice.FlashAb

/-!
# Where the images of a pack end up

The stream offset says how much of every image was written. A call keeps that as long as its chunk
ends at the latest with the image behind the one it starts in. A chunk that reaches into a third
image writes its start behind the second one, and the rest of it to the wrong place.
-/

namespace PineVoice.FlashAb

open Function NorFlash Partitions Bootab List Option

/-- A pack: a header with a correct checksum, and the images it lists back to back. -/
structure Pack where
  /-- The header. -/
  header : List UInt8
  /-- The images. -/
  images : List (List UInt8)
  /-- The header is complete. -/
  header_length : header.length = packHeaderSize
  /-- The header is one of a pack. -/
  magic_eq : magic header = packHeadMagic
  /-- The header has version 2. -/
  version_eq : headVersion header = 2
  /-- The header says how long it is. -/
  headSize_eq : headSize header = packHeaderSize
  /-- The checksum is correct. -/
  checksum_eq : headerChecksum header packHeaderSize = headChecksum header
  /-- The header counts the images. -/
  count_eq : imageCount header = images.length
  /-- There is an image. -/
  count_pos : 0 < images.length
  /-- There are not too many. -/
  count_le : images.length ≤ imgMaxCount
  /-- The images are stored back to back. -/
  offset_eq : ∀ i < images.length,
    imgOffset header i = packHeaderSize+(images.take i).flatten.length
  /-- The header has the sizes of the images. -/
  size_eq : ∀ i < images.length, imgSize header i = (images.getD i []).length
  /-- The offsets increase. -/
  increasing : ∀ i, i+1 < images.length → images.getD i [] ≠ []

namespace Pack

variable (pk : Pack)

/-- The bytes of a pack. -/
def bytes : List UInt8 := pk.header ++ pk.images.flatten

/-- An image. -/
def image (i : ℕ) : List UInt8 := pk.images.getD i []

/-- Where an image starts in the stream. -/
def start (i : ℕ) : ℕ := packHeaderSize+(pk.images.take i).flatten.length

theorem start_zero : pk.start 0 = packHeaderSize := rfl

theorem start_succ (i : ℕ) : pk.start (i+1) = pk.start i+(pk.image i).length := by
  have hone : (pk.images[i]?.toList).flatten.length = (pk.image i).length := by
    rw [image, getD_eq_getElem?_getD]
    cases pk.images[i]? <;> simp only [toList_none, toList_some, flatten_nil,
      flatten_cons, append_nil, getD_none, getD_some]
  rw [start, start, take_add_one, flatten_append, length_append, hone, add_assoc]

variable {i : ℕ}

theorem start_mono {j : ℕ} (h : i ≤ j) : pk.start i ≤ pk.start j := by
  induction h with
  | refl => exact le_rfl
  | step _ ih => exact ih.trans (by rw [start_succ]; exact Nat.le_add_right _ _)

theorem start_length : pk.start pk.images.length = pk.bytes.length := by
  rw [start, bytes, take_length, length_append, pk.header_length]

/-- A piece of an image is a piece of the stream. -/
theorem bytes_piece {w k : ℕ} (hi : i < pk.images.length) (h : w+k ≤ (pk.image i).length) :
    (pk.bytes.drop (pk.start i+w)).take k = ((pk.image i).drop w).take k := by
  have himage : pk.image i = pk.images[i] := by
    rw [image, getD_eq_getElem?_getD, getElem?_eq_getElem hi, getD_some]
  have hsplit : pk.bytes = (pk.header ++ (pk.images.take i).flatten) ++
      (pk.image i ++ (pk.images.drop (i+1)).flatten) := by
    have hflat : (pk.images.drop i).flatten = pk.image i ++ (pk.images.drop (i+1)).flatten := by
      rw [drop_eq_getElem_cons hi, flatten_cons, himage]
    rw [bytes, ←take_append_drop i pk.images, flatten_append, take_append_drop, hflat, append_assoc]
  have hlen : (pk.header ++ (pk.images.take i).flatten).length = pk.start i := by
    rw [length_append, pk.header_length, start]
  rw [hsplit, ←drop_drop, ←hlen, drop_left, drop_append_of_le_length (by omega),
    take_append_of_le_length (by rw [length_drop]; omega)]

/-- How much of an image was written when the stream is at an offset. -/
def written (pos i : ℕ) : ℕ := min (pos-pk.start i) (pk.image i).length

/-- The entry of an image. -/
def entry (parts : ℕ → PartitionInfo) (nextAb : Slot) (w : ℕ → ℕ) (i : ℕ) : ImgInfo :=
  ⟨partitionName pk.header nextAb i, pk.start i, (pk.image i).length, (parts i).length, w i⟩

end Pack

/-- The images have partitions of their own that are large enough. -/
structure Targets (pk : Pack) (tg : Target) (parts : ℕ → PartitionInfo) : Prop where
  /-- The partition of an image is open under its name. -/
  opens : ∀ i < pk.images.length,
    partitionInfoGet tg.table (partitionOpen tg.table (partitionName pk.header tg.nextAb i)) =
      some (parts i)
  /-- No image is larger than its partition. -/
  fits : ∀ i < pk.images.length, (pk.image i).length ≤ (parts i).length
  /-- The partitions are distinct ranges. -/
  disjoint : ∀ i < pk.images.length, ∀ j < pk.images.length, i ≠ j →
    (parts i).addr+(parts i).length ≤ (parts j).addr ∨
      (parts j).addr+(parts j).length ≤ (parts i).addr

/-- The sizes the code can handle: no word overflows as a signed one, and the erases
of a slice, which are rounded with the sector size of the env partition, keep to
the partition. -/
structure Regular (pk : Pack) (tg : Target) (parts : ℕ → PartitionInfo) : Prop where
  /-- The sectors of the env partition are made of those of the partitions. -/
  sectors : ∀ i < pk.images.length, (parts i).sectorSize ∣ tg.env.sectorSize
  /-- The partitions are not too long. -/
  part_lt : ∀ i < pk.images.length, (parts i).length < 2^31
  /-- Nor is the pack. -/
  bytes_lt : pk.bytes.length < 2^31

/-- A chunk of `n` bytes at an offset ends, as far as the partition of the image that it
starts in lets it, at the latest with the image behind that one. -/
def ChunkOk (pk : Pack) (parts : ℕ → PartitionInfo) (pos n : ℕ) : Prop :=
  ∀ i < pk.images.length, pk.start i ≤ max pos packHeaderSize →
    (i+1 < pk.images.length → max pos packHeaderSize < pk.start (i+1)) →
    min (pos+n) (pk.start i+(parts i).length) ≤ pk.start (i+2)

/-- Every chunk that is offered is such a chunk. -/
def FeedOk {σ : Type} (f : FlashOps σ) (tg : Target) (pk : Pack) (parts : ℕ → PartitionInfo) :
    List ℕ → ℕ × Io × σ → Prop
  | [], _ => True
  | n :: lens, (pos, io, s) =>
    ChunkOk pk parts pos n ∧
      let r := flashWrite f tg io s ((pk.bytes.drop pos).take n)
      FeedOk f tg pk parts lens (pos+r.1.toNat, r.2.1, r.2.2)

instance (pk : Pack) (parts : ℕ → PartitionInfo) (pos n : ℕ) : Decidable (ChunkOk pk parts pos n) :=
  inferInstanceAs (Decidable (∀ i < pk.images.length, _))

instance FeedOk.decidable {σ : Type} (f : FlashOps σ) (tg : Target) (pk : Pack)
    (parts : ℕ → PartitionInfo) : (lens : List ℕ) → (st : ℕ × Io × σ) →
      Decidable (FeedOk f tg pk parts lens st)
  | [], _ => isTrue trivial
  | _ :: lens, (_, _, _) =>
    @instDecidableAnd _ _ inferInstance (FeedOk.decidable f tg pk parts lens _)

/-- How far the images were written. -/
structure Progress {σ : Type} (mem : σ → Mem) (pk : Pack) (tg : Target)
    (parts : ℕ → PartitionInfo) (w : ℕ → ℕ) (io : Io) (s : σ) : Prop where
  /-- All images are known. -/
  count : io.imageCount = pk.images.length
  /-- Each has an entry. -/
  length : io.imgInfo.length = pk.images.length
  /-- The entries count what was written. -/
  entry : ∀ i < pk.images.length, io.img i = pk.entry parts tg.nextAb w i
  /-- What was written is stored. -/
  stored : ∀ i < pk.images.length,
    Holds (window (mem s) (parts i).addr) 0 ((pk.image i).take (w i))

theorem wordSub_of_le {x y : ℕ} (h : y ≤ x) (hx : x < 2^32) : wordSub x y = x-y := by
  rw [wordSub]
  omega

theorem wordSub_neg {x y : ℕ} (h : x < y) (hy : y < 2^32) : wordSub x y = 2^32-(y-x) := by
  rw [wordSub]
  omega

section Slices

variable {σ : Type} {f : FlashOps σ} {mem : σ → Mem} {pk : Pack} {tg : Target}
  {parts : ℕ → PartitionInfo} {w : ℕ → ℕ} {io : Io} {s : σ} {data : List UInt8} {i n : ℕ}

/-- The steps of a slice write return zero or an error. -/
theorem writeSlice_zero {g : ℕ} {node : PartitionInfo} {offset : ℕ}
    (h : ¬(writeSlice f g node s offset data).1 < 0) :
    (writeSlice f g node s offset data).1 = 0 := by
  unfold writeSlice at h ⊢
  dsimp only at h ⊢
  split_ifs at h ⊢ with he hw hc
  · exact absurd he h
  · exact absurd hw h
  · exact absurd neg_one_lt_zero h
  · rfl

theorem readBytes_bufferMem_take {d : List UInt8} (h : n ≤ d.length) :
    readBytes (bufferMem d) 0 n = d.take n := by
  have hlen : (d.take n).length = n := length_take_of_le h
  have hholds : Holds (bufferMem d) 0 (d.take n) := holds_of_getD 0 fun i hi => by
    rw [hlen] at hi
    rw [zero_add, bufferMem, getD_eq_getElem?_getD, getD_eq_getElem?_getD, getElem?_take_of_lt hi]
  simpa only [hlen] using hholds.readBytes_eq

theorem Io.img_written {k : ℕ} (hi : i < io.imgInfo.length) :
    (io.written i n).img k =
      if k = i then { io.img i with writeSize := ((io.img i).writeSize+n) % 2^32 } else io.img k := by
  simp only [Io.written, Io.img, getD_eq_getElem?_getD, getElem?_modify]
  by_cases hk : i = k
  · subst hk
    simp only [getElem?_eq_getElem hi, Option.map_eq_map, map_some, getD_some]
  · simp only [if_neg hk, if_neg (Ne.symm hk), Option.map_eq_map, Option.map_id']

/-- What counts is how much of each image was written. -/
theorem Progress.congr {w' : ℕ → ℕ} (h : Progress mem pk tg parts w io s)
    (hw : ∀ i < pk.images.length, w' i = w i) : Progress mem pk tg parts w' io s where
  count := h.count
  length := h.length
  entry i hi := by
    rw [h.entry i hi, Pack.entry, Pack.entry, hw i hi]
  stored i hi := by
    rw [hw i hi]
    exact h.stored i hi

variable (hf : Confined f mem) (ht : Targets pk tg parts) (hr : Regular pk tg parts) {r : ℤ × σ}
include hf ht hr

/-- A slice write that does not fail stores the bytes behind those that are there,
and nothing outside the partition changes. -/
theorem fotaFlashWrite_stores (hi : i < pk.images.length) {off : ℕ} (hn : n ≤ data.length)
    (hlt : off+n < 2^31)
    (hcall : fotaFlashWrite f tg s (partitionName pk.header tg.nextAb i) off data n = r)
    (hret : ¬r.1 < 0) :
    Holds (window (mem r.2) (parts i).addr) off (data.take n) ∧
      (∀ k, k < off → window (mem r.2) (parts i).addr k = window (mem s) (parts i).addr k) ∧
      ∀ x, x < (parts i).addr ∨ (parts i).addr+(parts i).length ≤ x → mem r.2 x = mem s x := by
  subst hcall
  rcases eq_zero_or_pos n with rfl | hpos
  · exact ⟨trivial, fun _ _ => rfl, fun _ _ => rfl⟩
  · have hbytes := readBytes_bufferMem_take hn
    have hlen : (data.take n).length = n := length_take_of_le hn
    simp only [fotaFlashWrite, if_neg hpos.ne'] at hret ⊢
    have hcall : ∃ next, bootabUpgradePartitionSlice f tg.env.sectorSize tg.table tg.files s
        (some (partitionName pk.header tg.nextAb i)) none off n 0 (some (bufferMem data)) =
          (0, next) ∧ writeSlice f tg.env.sectorSize (parts i) s off (data.take n) = (0, next) := by
      simp only [bootabUpgradePartitionSlice, if_neg hpos.ne', ht.opens i hi, hbytes] at hret ⊢
      split_ifs at hret ⊢ with hbound hneg hneg
      · exact absurd hneg hret
      · exact absurd (show einval < 0 by decide) hneg
      · exact absurd hneg hret
      · exact ⟨_, Prod.ext (writeSlice_zero hneg) rfl, Prod.ext (writeSlice_zero hneg) rfl⟩
    obtain ⟨next, hcall, hslice⟩ := hcall
    rw [hcall]
    have henv := tg.env.sector_pos
    have hsize := tg.env.sector_le
    have hlt' : off+(data.take n).length < 2^31 := by rwa [hlen]
    have hpos' : 0 < (data.take n).length := by rwa [hlen]
    obtain ⟨hstored, hkept⟩ := writeSlice_stores hslice henv hsize hlt' hpos' hf
    exact ⟨hstored, hkept, fun x hx =>
      writeSlice_frame hslice henv hsize hlt' hpos' hf (hr.sectors i hi) hx⟩

/-- The next bytes of an image are written. -/
theorem Progress.write (h : Progress mem pk tg parts w io s) (hi : i < pk.images.length)
    (hn : w i+n ≤ (pk.image i).length) (hdata : data.take n = ((pk.image i).drop (w i)).take n)
    (hlen : n ≤ data.length)
    (hcall : fotaFlashWrite f tg s (partitionName pk.header tg.nextAb i) (w i) data n = r)
    (hret : ¬r.1 < 0) : Progress mem pk tg parts (update w i (w i+n)) (io.written i n) r.2 := by
  have hfit := ht.fits i hi
  have hlt := hr.part_lt i hi
  have hoff : w i+n < 2^31 := by omega
  obtain ⟨hstored, hkept, hframe⟩ := fotaFlashWrite_stores hf ht hr hi hlen hoff hcall hret
  refine ⟨h.count, ?_, fun k hk => ?_, fun k hk => ?_⟩
  · rw [Io.written, length_modify, h.length]
  · rw [Io.img_written (by rw [h.length]; exact hi), h.entry i hi, h.entry k hk]
    by_cases hki : k = i
    · subst hki
      have hmod : (w k+n) % 2^32 = w k+n := Nat.mod_eq_of_lt (by omega)
      simp only [if_true, Pack.entry, update_self, hmod]
    · simp only [if_neg hki, Pack.entry, update_of_ne hki]
  · by_cases hki : k = i
    · subst hki
      have hold : ((pk.image k).take (w k)).length = w k := length_take_of_le (by omega)
      rw [update_self, take_add, holds_append, hold, zero_add, ←hdata]
      refine ⟨(h.stored k hk).congr fun x _ hx => hkept x ?_, hstored⟩
      rwa [hold, zero_add] at hx
    · rw [update_of_ne hki]
      have hdis := ht.disjoint k hk i hi hki
      have hfitk := ht.fits k hk
      refine (h.stored k hk).congr fun x _ hx => hframe _ ?_
      rw [length_take] at hx
      omega

end Slices

section Chunk

variable {σ : Type} {f : FlashOps σ} {mem : σ → Mem} {pk : Pack} {tg : Target}
  {parts : ℕ → PartitionInfo} {w : ℕ → ℕ} {io : Io} {s : σ}

/-- The image that an offset lies in, or the last one behind the end. -/
structure IndexAt (pk : Pack) (pos idx : ℕ) : Prop where
  /-- It is an image of the pack. -/
  lt : idx < pk.images.length
  /-- It starts at the offset or before. -/
  start_le : pk.start idx ≤ pos
  /-- The next image starts behind the offset. -/
  lt_next : idx+1 < pk.images.length → pos < pk.start (idx+1)

variable {a i k left q : ℕ}

theorem imgIndexFrom_spec (h : Progress mem pk tg parts w io s) {pos n : ℕ} (hlt : pos < 2^32-1)
    (hin : i+n = pk.images.length) (hn : 0 < n) (hi : pk.start i ≤ pos) :
    ∃ idx, imgIndexFrom io pos i n = some idx ∧ IndexAt pk pos idx := by
  induction n generalizing i with
  | zero => omega
  | succ n ih =>
    have hentry : (io.img i).imgOffset = pk.start i := by rw [h.entry i (by omega), Pack.entry]
    by_cases hlast : i+1 < pk.images.length
    · have hnext : (io.img (i+1)).imgOffset = pk.start (i+1) := by
        rw [h.entry (i+1) hlast, Pack.entry]
      by_cases hpos : pos < pk.start (i+1)
      · refine ⟨i, ?_, by omega, hi, fun _ => hpos⟩
        rw [imgIndexFrom, h.count, if_pos hlast, hentry, hnext, if_pos ⟨hi, hpos⟩]
      · obtain ⟨idx, hidx, hat⟩ := ih (by omega) (by omega) (Nat.le_of_not_lt hpos)
        refine ⟨idx, ?_, hat⟩
        rw [imgIndexFrom, h.count, if_pos hlast, if_neg (by omega), hidx]
    · refine ⟨i, ?_, by omega, hi, fun hc => absurd hc hlast⟩
      rw [imgIndexFrom, h.count, if_neg hlast, hentry, if_pos ⟨hi, hlt⟩]

/-- A chunk starts with the header at offset 0, or behind it. -/
structure ChunkAt (pk : Pack) (pos headsize n : ℕ) : Prop where
  /-- The first chunk has the whole header, the others have none of it. -/
  head : headsize = 0 ∧ packHeaderSize ≤ pos ∨
    headsize = packHeaderSize ∧ pos = 0 ∧ packHeaderSize ≤ n
  /-- The stream is not past its end. -/
  le : pos ≤ pk.bytes.length

theorem Pack.header_le (pk : Pack) : packHeaderSize ≤ pk.bytes.length := by
  rw [bytes, length_append, pk.header_length]
  exact Nat.le_add_right _ _

theorem getImgIndex_spec (h : Progress mem pk tg parts w io s) {pos headsize n : ℕ}
    (hc : ChunkAt pk pos headsize n) (hlt : pk.bytes.length < 2^31) :
    ∃ idx, getImgIndex io pos = some idx ∧ IndexAt pk (pos+headsize) idx := by
  have hle := hc.le
  have hcount := pk.count_pos
  rcases hc.head with ⟨rfl, hpos⟩ | ⟨rfl, rfl, -⟩
  · rw [getImgIndex, if_neg (by rw [packHeaderSize] at hpos; omega), h.count]
    exact imgIndexFrom_spec h (by omega) (zero_add _) hcount hpos
  · refine ⟨0, rfl, hcount, (zero_add _).ge, fun hone => ?_⟩
    have hne := List.length_pos_iff.mpr (pk.increasing 0 hone)
    rw [Pack.start_succ, Pack.start_zero, Pack.image]
    omega

/-- The room that is left from the chunk's offset on in the partition of its image. -/
theorem room_eq {pos headsize n idx P : ℕ} (hc : ChunkAt pk pos headsize n)
    (hat : IndexAt pk (pos+headsize) idx) (hlt : pk.bytes.length < 2^31)
    (hfit : (pk.image idx).length ≤ P) (hP : P < 2^31)
    (hend : pos+headsize ≤ pk.start idx+(pk.image idx).length) :
    wordSub P (wordSub pos (pk.start idx)) = P+pk.start idx-pos := by
  have hle := hc.le
  have hstart := hat.start_le
  rcases hc.head with ⟨rfl, hpos⟩ | ⟨rfl, rfl, -⟩
  · rw [wordSub_of_le (x := pos) hstart (by omega), wordSub_of_le (by omega) (by omega)]
    omega
  · have h0 : packHeaderSize ≤ pk.start idx := pk.start_mono (Nat.zero_le idx)
    rw [packHeaderSize] at h0 hstart
    rw [wordSub_neg (x := 0) (by omega) (by omega), wordSub]
    omega

/-- A piece of a chunk is a piece of the stream. -/
theorem chunk_piece (bytes : List UInt8) {pos n : ℕ} (h : a+k ≤ n) :
    ((((bytes.drop pos).take n).drop a).take k) = (bytes.drop (pos+a)).take k := by
  rw [drop_take, take_take, drop_drop, min_eq_left (by omega)]

/-- What the stream offset says after bytes that end in the image they started in. -/
theorem written_inside {real idx : ℕ} (hstart : pk.start idx ≤ q)
    (hend : q+real ≤ pk.start (idx+1)) :
    pk.written (q+real) i = update (pk.written q) idx (pk.written q idx+real) i := by
  rw [pk.start_succ] at hend
  rcases lt_trichotomy i idx with hlt | rfl | hgt
  · have hmono := pk.start_mono (show i+1 ≤ idx from hlt)
    rw [pk.start_succ] at hmono
    rw [update_of_ne hlt.ne, Pack.written, Pack.written]
    omega
  · rw [update_self, Pack.written, Pack.written]
    omega
  · have hmono := pk.start_mono (show idx+1 ≤ i from hgt)
    rw [pk.start_succ] at hmono
    rw [update_of_ne hgt.ne', Pack.written, Pack.written]
    omega

theorem partitionName_ne_nil (header : List UInt8) (nextAb : Slot) (i : ℕ) :
    partitionName header nextAb i ≠ [] := by
  cases nextAb <;> exact append_ne_nil_of_right_ne_nil _ nofun

/-- The end of a call. -/
theorem accepted_progress {pos length : ℕ} (h : Progress mem pk tg parts w io s)
    (hoff : io.offset = pos) (hlt : pos+length < 2^31) :
    (accepted io length s).1 = (length : ℤ) ∧
      (accepted io length s).2.1.offset = pos+length ∧
      Progress mem pk tg parts w (accepted io length s).2.1 (accepted io length s).2.2 := by
  refine ⟨offT_of_lt (by omega), ?_, h.count, h.length, h.entry, h.stored⟩
  rw [accepted, hoff]
  exact Nat.mod_eq_of_lt (by omega)

/-- What a call looks at of a chunk: it starts in an image and ends at the latest
with the next one. -/
structure Cut (pk : Pack) (pos headsize n idx length : ℕ) : Prop where
  /-- The image it starts in. -/
  index : IndexAt pk (pos+headsize) idx
  /-- It does not start behind that image. -/
  start_le : pos+headsize ≤ pk.start (idx+1)
  /-- It has the header, if there is one. -/
  head_le : headsize ≤ length
  /-- It is part of the chunk. -/
  chunk_le : length ≤ n
  /-- And of the stream. -/
  stream_le : pos+length ≤ pk.bytes.length
  /-- It ends at the latest with the next image. -/
  end_le : pos+length ≤ pk.start (idx+2)

theorem Cut.written_eq {pos headsize n idx length : ℕ} (h : Cut pk pos headsize n idx length) :
    pk.written (pos+headsize) idx = pos+headsize-pk.start idx := by
  have hstart := h.start_le
  rw [pk.start_succ] at hstart
  rw [Pack.written]
  omega

/-- The part of a chunk that a call looks at ends with the partition of its image. -/
theorem exists_cut (ht : Targets pk tg parts) (hr : Regular pk tg parts) {pos headsize n idx : ℕ}
    (hc : ChunkAt pk pos headsize n) (hat : IndexAt pk (pos+headsize) idx)
    (hok : ChunkOk pk parts pos n) :
    ∃ length, Cut pk pos headsize n idx length ∧
      (let room := wordSub (parts idx).length (wordSub pos (pk.start idx))
       if room < ((pk.bytes.drop pos).take n).length then room
       else ((pk.bytes.drop pos).take n).length) = length := by
  have hi := hat.lt
  have hstart := hat.start_le
  have hheader := pk.header_le
  have hpos := hc.le
  have hsucc := pk.start_succ idx
  have hq : pos+headsize ≤ pk.start (idx+1) := by
    by_cases hlast : idx+1 < pk.images.length
    · exact (hat.lt_next hlast).le
    · have hlen : idx+1 = pk.images.length := by omega
      rw [hlen, pk.start_length]
      rcases hc.head with ⟨rfl, -⟩ | ⟨rfl, rfl, -⟩
      · exact hpos
      · rwa [zero_add]
  have hfit := ht.fits idx hi
  have hroom := room_eq hc hat hr.bytes_lt hfit (hr.part_lt idx hi) (by omega)
  have hmax : max pos packHeaderSize = pos+headsize := by
    rcases hc.head with ⟨rfl, hge⟩ | ⟨rfl, rfl, -⟩ <;> omega
  have hspan := hok idx hi (by rw [hmax]; exact hstart) (by rw [hmax]; exact hat.lt_next)
  have hhead : headsize ≤ min n (pk.bytes.length-pos) ∧
      headsize ≤ (parts idx).length+pk.start idx-pos := by
    rcases hc.head with ⟨rfl, -⟩ | ⟨rfl, rfl, hn⟩ <;> omega
  refine ⟨_, ?_, rfl⟩
  dsimp only
  rw [length_take, length_drop]
  split_ifs <;> exact ⟨hat, hq, by omega, by omega, by omega, by omega⟩

variable {pos headsize n idx length : ℕ} (hf : Confined f mem) (ht : Targets pk tg parts)
  (hr : Regular pk tg parts)

include hf ht hr

/-- Bytes of a chunk that end in the image they start in. -/
theorem Progress.piece (h : Progress mem pk tg parts (pk.written (pos+a)) io s)
    (hi : i < pk.images.length) (hstart : pk.start i ≤ pos+a) (hend : pos+a+k ≤ pk.start (i+1))
    (hk : a+k ≤ n) {r : ℤ × σ}
    (hcall : fotaFlashWrite f tg s (partitionName pk.header tg.nextAb i) (pk.written (pos+a) i)
      (((pk.bytes.drop pos).take n).drop a) k = r) (hret : ¬r.1 < 0) :
    Progress mem pk tg parts (pk.written (pos+a+k)) (io.written i k) r.2 := by
  have hsucc := pk.start_succ i
  have hbytes := pk.start_mono (show i+1 ≤ pk.images.length from hi)
  rw [pk.start_length] at hbytes
  have hw : pk.written (pos+a) i = pos+a-pk.start i := by
    rw [Pack.written]
    omega
  have hpiece : (((pk.bytes.drop pos).take n).drop a).take k =
      ((pk.image i).drop (pk.written (pos+a) i)).take k := by
    rw [chunk_piece _ hk, ←pk.bytes_piece hi (by omega), hw, Nat.add_sub_cancel' hstart]
  have hlen : k ≤ (((pk.bytes.drop pos).take n).drop a).length := by
    rw [length_drop, length_take, length_drop]
    omega
  exact (h.write hf ht hr hi (by omega) hpiece hlen hcall hret).congr fun _ _ =>
    written_inside hstart hend

/-- A chunk that ends in the next image. -/
theorem writeAcross (h : Progress mem pk tg parts (pk.written (pos+headsize)) io s)
    (hoff : io.offset = pos)
    (hcut : Cut pk pos headsize n idx length) (hleft : pos+headsize+left = pk.start (idx+1))
    (hend : pk.start (idx+1) < pos+length) {q : ℤ × σ} {r : ℤ × Io × σ}
    (hcall : fotaFlashWrite f tg s (partitionName pk.header tg.nextAb idx)
      (pk.written (pos+headsize) idx) (((pk.bytes.drop pos).take n).drop headsize) left = q)
    (hfirst : ¬q.1 < 0)
    (hr' : r = writeRemain f tg (io.written idx left) q.2 (idx+1) length
      (((pk.bytes.drop pos).take n).drop (headsize+left)) (length-headsize-left))
    (hret : ¬r.1 < 0) :
    r.1 = (length : ℤ) ∧ r.2.1.offset = pos+length ∧
      Progress mem pk tg parts (pk.written (pos+length)) r.2.1 r.2.2 := by
  have hchunk := hcut.chunk_le
  have hstream := hcut.stream_le
  have hspan := hcut.end_le
  have hlt := hr.bytes_lt
  have hnext : idx+1 < pk.images.length := by
    by_contra hlast
    have hlen : idx+1 = pk.images.length := by
      have := hcut.index.lt
      omega
    rw [hlen, pk.start_length] at hend
    omega
  have hone := h.piece hf ht hr hcut.index.lt hcut.index.start_le hleft.le (by omega) hcall hfirst
  rw [add_assoc] at hone
  subst hr'
  simp only [writeRemain, hone.entry (idx+1) hnext, Pack.entry,
    if_neg (partitionName_ne_nil _ _ _)] at hret ⊢
  split_ifs at hret ⊢ with hsecond
  · exact absurd neg_one_lt_zero hret
  · have htwo := hone.piece hf ht hr hnext (by omega)
      (show _ ≤ pk.start (idx+2) by omega) (by omega) rfl hsecond
    rw [show pos+(headsize+left)+(length-headsize-left) = pos+length by omega] at htwo
    exact accepted_progress htwo hoff (by omega)

/-- One call behind the header: how many bytes it accepts, and what is written then. -/
theorem writeImages_step (h : Progress mem pk tg parts (pk.written (pos+headsize)) io s)
    (hoff : io.offset = pos) (hc : ChunkAt pk pos headsize n) (hok : ChunkOk pk parts pos n)
    {r : ℤ × Io × σ} (hr' : r = writeImages f tg io s ((pk.bytes.drop pos).take n) headsize)
    (hret : ¬r.1 < 0) :
    ∃ k : ℕ, headsize ≤ k ∧ pos+k ≤ pk.bytes.length ∧ r.1 = (k : ℤ) ∧ r.2.1.offset = pos+k ∧
      Progress mem pk tg parts (pk.written (pos+k)) r.2.1 r.2.2 := by
  have hlt := hr.bytes_lt
  obtain ⟨idx, hidx, hat⟩ := getImgIndex_spec h hc hlt
  obtain ⟨length, hcut, hlength⟩ := exists_cut ht hr hc hat hok
  have hw := hcut.written_eq
  have hle := hat.start_le
  have hstart := hcut.start_le
  have hhead := hcut.head_le
  have hchunk := hcut.chunk_le
  have hstream := hcut.stream_le
  have hsucc := pk.start_succ idx
  refine ⟨length, hhead, hstream, ?_⟩
  simp only [writeImages, hoff, hidx, h.entry idx hat.lt, Pack.entry, hlength,
    wordSub_of_le hhead (by omega)] at hr'
  split_ifs at hr' with hcase hfail hfail
  · rw [hr'] at hret
    exact absurd neg_one_lt_zero hret
  · rw [wordSub_of_le (by omega) (by omega)] at hfail hr'
    rw [wordSub_of_le (by omega) (by omega)] at hr'
    exact writeAcross hf ht hr h hoff hcut (by omega) (by omega) rfl hfail hr' hret
  · rw [hr'] at hret
    exact absurd neg_one_lt_zero hret
  · have hone := h.piece hf ht hr hat.lt hle (by omega) (by omega) rfl hfail
    rw [show pos+headsize+(length-headsize) = pos+length by omega] at hone
    rw [hr']
    exact accepted_progress hone hoff (by omega)

end Chunk

section Header

variable {pk : Pack} {buffer : List UInt8}

variable {i off : ℕ}

section

variable (hb : buffer.take packHeaderSize = pk.header)
include hb

theorem bufferMem_head (hi : i < packHeaderSize) : bufferMem buffer i = bufferMem pk.header i := by
  rw [←hb, bufferMem, bufferMem, getD_eq_getElem?_getD, getD_eq_getElem?_getD,
    getElem?_take_of_lt hi]

theorem le32_head (hoff : off+4 ≤ packHeaderSize) :
    le32 (bufferMem buffer) off = le32 (bufferMem pk.header) off :=
  le32_congr fun _ _ hi => bufferMem_head hb (by omega)

theorem le16_head (hoff : off+2 ≤ packHeaderSize) : le16 buffer off = le16 pk.header off := by
  rw [le16, le16, bufferMem_head hb (by omega), bufferMem_head hb (by omega)]

theorem partitionName_head (hi : i < imgMaxCount) (nextAb : Slot) :
    partitionName buffer nextAb i = partitionName pk.header nextAb i := by
  have hname : (buffer.drop (imageInfoAt i)).take 18 = (pk.header.drop (imageInfoAt i)).take 18 := by
    rw [imgMaxCount] at hi
    rw [←hb, packHeaderSize, drop_take, take_take, imageInfoAt, Nat.min_eq_left (by omega)]
  rw [partitionName, partitionName, imgName, imgName, hname]

end

variable {tg : Target} {parts : ℕ → PartitionInfo}

/-- The images of the header are found, and nothing of them is written. -/
theorem imagesInfoFrom_spec (ht : Targets pk tg parts) (hb : buffer.take packHeaderSize = pk.header)
    {n : ℕ} (hin : i+n = pk.images.length) :
    (imagesInfoFrom tg buffer i n).1 = 0 ∧ (imagesInfoFrom tg buffer i n).2 =
      (List.range' i n).map (pk.entry parts tg.nextAb fun _ => 0) := by
  induction n generalizing i with
  | zero => exact ⟨rfl, rfl⟩
  | succ n ih =>
    have hmax := pk.count_le
    have hi : i < pk.images.length := by omega
    have hat : imageInfoAt i+24 ≤ packHeaderSize := by
      rw [imgMaxCount] at hmax
      rw [imageInfoAt, packHeaderSize]
      omega
    have hoffset : imgOffset buffer i = pk.start i :=
      (le32_head hb (by omega)).trans (pk.offset_eq i hi)
    have hsize : imgSize buffer i = (pk.image i).length :=
      (le32_head hb (by omega)).trans (pk.size_eq i hi)
    obtain ⟨hrest, hlist⟩ := ih (i := i+1) (by omega)
    simp only [imagesInfoFrom, partitionName_head hb (show i < imgMaxCount by omega), ht.opens i hi,
      hoffset, hsize, hrest, hlist, range'_succ, map_cons, Pack.entry, and_self]

end Header

section Feeding

variable {σ : Type} {f : FlashOps σ} {mem : σ → Mem} {pk : Pack} {tg : Target}
  {parts : ℕ → PartitionInfo} {io : Io} {s : σ} {pos n : ℕ}

/-- Where the stream stands after a call. -/
structure Standing (mem : σ → Mem) (pk : Pack) (tg : Target) (parts : ℕ → PartitionInfo)
    (pos : ℕ) (io : Io) (s : σ) : Prop where
  /-- The header was read. -/
  ge : packHeaderSize ≤ pos
  /-- The stream is not past its end. -/
  le : pos ≤ pk.bytes.length
  /-- The netio is at the offset of the stream. -/
  offset : io.offset = pos
  /-- The images are written up to it. -/
  progress : Progress mem pk tg parts (pk.written pos) io s

section

variable (ht : Targets pk tg parts)
include ht

/-- The images as the header lists them, before any byte is written. -/
theorem imagesInfoInit_progress (io : Io) (s : σ) {buffer : List UInt8}
    (hb : buffer.take packHeaderSize = pk.header) :
    (imagesInfoInit tg io buffer).1 = 0 ∧ (imagesInfoInit tg io buffer).2.offset = io.offset ∧
      Progress mem pk tg parts (pk.written packHeaderSize) (imagesInfoInit tg io buffer).2 s := by
  have hmagic : magic buffer = packHeadMagic := (le32_head hb (by decide)).trans pk.magic_eq
  have hcount : imageCount buffer = pk.images.length :=
    (le32_head hb (by decide)).trans pk.count_eq
  obtain ⟨hret, hlist⟩ := imagesInfoFrom_spec ht hb (zero_add pk.images.length)
  simp only [imagesInfoInit, hmagic, ne_eq, not_true_eq_false, if_false, hcount,
    if_neg (Nat.not_lt_of_le pk.count_le), hret, hlist, true_and]
  have hzero : ∀ i, pk.written packHeaderSize i = 0 := fun i => by
    have hstart : pk.start 0 ≤ pk.start i := pk.start_mono (Nat.zero_le i)
    rw [Pack.start_zero] at hstart
    rw [Pack.written]
    omega
  refine ⟨rfl, by rw [length_map, length_range'], fun i hi => ?_, fun i _ => ?_⟩
  · rw [Io.img, getD_eq_getElem?_getD, getElem?_map, getElem?_range' hi,
      map_some, getD_some, one_mul, zero_add, Pack.entry, Pack.entry, hzero]
  · rw [hzero]
    trivial

/-- The first call reads the header. -/
theorem flashWrite_first (hf : Confined f mem) (hr : Regular pk tg parts) (hn : packHeaderSize ≤ n)
    (hok : ChunkOk pk parts 0 n)
    (hret : ¬(flashWrite f tg .opened s ((pk.bytes.drop 0).take n)).1 < 0) :
    ∃ k : ℕ, (flashWrite f tg .opened s ((pk.bytes.drop 0).take n)).1 = (k : ℤ) ∧
      Standing mem pk tg parts k (flashWrite f tg .opened s ((pk.bytes.drop 0).take n)).2.1
        (flashWrite f tg .opened s ((pk.bytes.drop 0).take n)).2.2 := by
  have hb : ((pk.bytes.drop 0).take n).take packHeaderSize = pk.header := by
    rw [drop_zero, take_take, min_eq_left hn, Pack.bytes, ←pk.header_length, take_left]
  have hsize : headSize ((pk.bytes.drop 0).take n) = packHeaderSize :=
    (le16_head hb (by decide)).trans pk.headSize_eq
  have hc : ChunkAt pk 0 packHeaderSize n := ⟨.inr ⟨rfl, rfl, hn⟩, Nat.zero_le _⟩
  generalize hnext : flashWrite f tg .opened s ((pk.bytes.drop 0).take n) = r at hret ⊢
  simp only [flashWrite, writeHeader, hsize, Io.opened] at hnext
  split_ifs at hnext with h1 h2 h3 h4 h5 h6 h7 h8
  case neg =>
    obtain ⟨-, hoff, hprog⟩ := imagesInfoInit_progress ht ⟨0, 0, []⟩
      (storeHeader f tg s ((pk.bytes.drop 0).take n)).2 hb
    obtain ⟨k, hk, hle, hcode, hat, hdone⟩ := writeImages_step hf ht hr hprog hoff hc hok
      hnext.symm hret
    rw [zero_add] at hle hat hdone
    exact ⟨k, hcode, hk, hle, hat, hdone⟩
  all_goals
    rw [←hnext] at hret
    first
      | exact absurd neg_one_lt_zero hret
      | exact absurd (show enomem < 0 by decide) hret
      | exact absurd ‹_› hret

/-- The later calls. -/
theorem flashWrite_next (hf : Confined f mem) (hr : Regular pk tg parts)
    (h : Standing mem pk tg parts pos io s) (hok : ChunkOk pk parts pos n)
    (hret : ¬(flashWrite f tg io s ((pk.bytes.drop pos).take n)).1 < 0) :
    ∃ k : ℕ, (flashWrite f tg io s ((pk.bytes.drop pos).take n)).1 = (k : ℤ) ∧
      Standing mem pk tg parts (pos+k) (flashWrite f tg io s ((pk.bytes.drop pos).take n)).2.1
        (flashWrite f tg io s ((pk.bytes.drop pos).take n)).2.2 := by
  have hge := h.ge
  have hpos : io.offset ≠ 0 := by
    rw [h.offset]
    rw [packHeaderSize] at hge
    omega
  generalize hnext : flashWrite f tg io s ((pk.bytes.drop pos).take n) = r at hret ⊢
  simp only [flashWrite] at hnext
  split_ifs at hnext
  · rw [←hnext] at hret
    exact absurd neg_one_lt_zero hret
  · have hprog : Progress mem pk tg parts (pk.written (pos+0)) io s := h.progress
    obtain ⟨k, -, hle, hcode, hat, hdone⟩ := writeImages_step hf ht hr hprog h.offset
      ⟨.inl ⟨rfl, hge⟩, h.le⟩ hok hnext.symm hret
    exact ⟨k, hcode, by omega, hle, hat, hdone⟩

theorem feed_standing (hf : Confined f mem) (hr : Regular pk tg parts) {lens : List ℕ}
    {st : ℕ × Io × σ} (h : Standing mem pk tg parts pos io s)
    (hfeed : feed f tg pk.bytes lens (pos, io, s) = some st)
    (hok : FeedOk f tg pk parts lens (pos, io, s)) :
    Standing mem pk tg parts st.1 st.2.1 st.2.2 := by
  induction lens generalizing pos io s with
  | nil =>
    cases hfeed
    exact h
  | cons n lens ih =>
    unfold feed at hfeed
    dsimp only at hfeed
    split_ifs at hfeed with hret
    obtain ⟨k, hk, hstand⟩ := flashWrite_next ht hf hr h hok.1 hret
    have hrest := hok.2
    rw [hk] at hfeed
    dsimp only at hrest
    rw [hk] at hrest
    exact ih hstand hfeed hrest

end

/-- When all bytes of a pack are accepted, every image is at the start of its
partition, provided that no chunk reached into a third image. -/
theorem feed_stores_images (hf : Confined f mem) (ht : Targets pk tg parts)
    (hr : Regular pk tg parts) {lens : List ℕ} (hn : packHeaderSize ≤ n) {next : σ}
    (hfeed : feed f tg pk.bytes (n :: lens) (0, .opened, s) = some (pk.bytes.length, io, next))
    (hok : FeedOk f tg pk parts (n :: lens) (0, .opened, s)) :
    ∀ i < pk.images.length,
      readBytes (window (mem next) (parts i).addr) 0 (pk.image i).length = pk.image i := by
  unfold feed at hfeed
  dsimp only at hfeed
  split_ifs at hfeed with hret
  obtain ⟨k, hk, hstand⟩ := flashWrite_first ht hf hr hn hok.1 hret
  have hrest := hok.2
  dsimp only at hrest
  rw [hk, Int.toNat_natCast, zero_add] at hfeed hrest
  have hend := feed_standing ht hf hr hstand hfeed hrest
  intro i hi
  have hall : pk.written pk.bytes.length i = (pk.image i).length := by
    have hle := pk.start_mono (show i+1 ≤ pk.images.length from hi)
    rw [pk.start_succ, pk.start_length] at hle
    rw [Pack.written]
    omega
  have hstored := hend.progress.stored i hi
  rw [hall, take_length] at hstored
  exact hstored.readBytes_eq

end Feeding

section Samples

/-- The entry of an image in a header. -/
def infoBytes (name : UInt8) (offset size : ℕ) : List UInt8 :=
  (name :: List.replicate 15 0) ++ (leBytes offset ++ leBytes size)

/-- A header with a checksum, for three images. -/
def headerBytes (cksum a b c : ℕ) : List UInt8 :=
  leBytes packHeadMagic ++ ([2, 0, 0, 4] ++ (leBytes cksum ++ (leBytes 3 ++
    (List.replicate 648 0 ++ (infoBytes 107 1024 a ++ (infoBytes 108 (1024+a) b ++
      (infoBytes 109 (1024+a+b) c ++ List.replicate 288 0)))))))

/-- Three images of one, one and two bytes. -/
def samplePack : Pack where
  header := headerBytes (headerChecksum (headerBytes 0 1 1 2) packHeaderSize) 1 1 2
  images := [[1], [2], [3, 4]]
  header_length := by decide +kernel
  magic_eq := by decide +kernel
  version_eq := by decide +kernel
  headSize_eq := by decide +kernel
  checksum_eq := by decide +kernel
  count_eq := by decide +kernel
  count_pos := by decide
  count_le := by decide
  offset_eq := by decide +kernel
  size_eq := by decide +kernel
  increasing
    | 0, _ => nofun
    | 1, _ => nofun
    | n+2, h => absurd h (by simp only [List.length_cons, List.length_nil]; omega)

/-- Partitions of four sectors behind the env partition. -/
def samplePart (i : ℕ) : PartitionInfo where
  description := [UInt8.ofNat (107+i % 3), 98]
  baseAddr := 4096
  startAddr := 1024*(i % 3)
  length := 1024
  sectorSize := 256
  sector_pos := shortSector_pos
  sector_le := shortSector_le
  addr_lt := by omega

/-- A device whose other slot is `b`. -/
def sampleTarget : Target where
  env := smallEnv
  table := [samplePart 0, samplePart 1, samplePart 2]
  files := noFiles
  nextAb := .b

theorem sample_names : ∀ i < 3,
    partitionName samplePack.header .b i = [UInt8.ofNat (107+i % 3), 98] := by
  decide +kernel

theorem sample_targets : Targets samplePack sampleTarget samplePart where
  opens := by
    intro i hi
    have hi3 : i < 3 := hi
    rw [show sampleTarget.nextAb = .b from rfl, sample_names i hi3]
    interval_cases i <;> rfl
  fits := by decide +kernel
  disjoint := by decide +kernel

theorem sample_regular : Regular samplePack sampleTarget samplePart where
  sectors := by decide +kernel
  part_lt := by decide +kernel
  bytes_lt := by decide +kernel

/-- Chunks that end in the next image. -/
theorem feed_stores_images_sample : ∃ io next,
    feed norOps sampleTarget samplePack.bytes [1025, 2, 1] (0, .opened, ⟨fun _ => 0x5A, []⟩) =
      some (samplePack.bytes.length, io, next) ∧
    ∀ i < 3, readBytes (window next.mem (samplePart i).addr) 0 (samplePack.image i).length =
      samplePack.image i := by
  obtain ⟨⟨pos, io, next⟩, hfeed, hpos⟩ : ∃ st, feed norOps sampleTarget samplePack.bytes
      [1025, 2, 1] (0, .opened, ⟨fun _ => 0x5A, []⟩) = some st ∧
        st.1 = samplePack.bytes.length := by
    decide +kernel
  rw [show pos = samplePack.bytes.length from hpos] at hfeed
  exact ⟨io, next, hfeed, feed_stores_images confined_norOps sample_targets sample_regular
    (by decide) hfeed (by decide +kernel)⟩

/-- A chunk with the header, the first two images and the start of the third one: the
third partition starts with the second byte of its image. -/
theorem feed_misplaces_image : Targets samplePack sampleTarget samplePart ∧ ∃ io next,
    feed norOps sampleTarget samplePack.bytes [1027, 1] (0, .opened, ⟨fun _ => 0x5A, []⟩) =
      some (samplePack.bytes.length, io, next) ∧
    readBytes (window next.mem (samplePart 2).addr) 0 2 ≠ samplePack.image 2 := by
  obtain ⟨⟨pos, io, next⟩, hfeed, hpos, hread⟩ : ∃ st, feed norOps sampleTarget samplePack.bytes
      [1027, 1] (0, .opened, ⟨fun _ => 0x5A, []⟩) = some st ∧ st.1 = samplePack.bytes.length ∧
        readBytes (window st.2.2.mem (samplePart 2).addr) 0 2 ≠ samplePack.image 2 := by
    decide +kernel
  rw [show pos = samplePack.bytes.length from hpos] at hfeed
  exact ⟨sample_targets, io, next, hfeed, hread⟩

end Samples

end PineVoice.FlashAb
