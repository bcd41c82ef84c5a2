import PineVoice.SliceWrite

/-!
# Whole images, slice by slice

On a working flash a slice is stored if the cells up to the next sector are still blank, and it
leaves the cells behind it blank in the same way. The sectors to erase are counted from the length
of the slice alone, so a slice that starts inside a sector may ask for one sector more than the
partition has.
-/

namespace PineVoice.Bootab

open NorFlash Partitions List

/-- Consecutive slices from an offset on, with the codes of the calls. -/
def writeSlices (flashSector : ℕ) (table : List PartitionInfo) (files : Files)
    (name : List UInt8) : Nor → ℕ → List (List UInt8) → List ℤ × Nor
  | dev, _, [] => ([], dev)
  | dev, offset, d :: ds =>
    let r := bootabUpgradePartitionSlice norOps flashSector table files dev (some name) none
      offset d.length (if ds.isEmpty then 1 else 0) (some (bufferMem d))
    let rest := writeSlices flashSector table files name r.2 (offset+d.length) ds
    (r.1 :: rest.1, rest.2)

/-- A slice the code can write: the sectors it erases, counted from the next
sector start, are in the partition, and all offsets it uses are positive. -/
structure SliceFits (p : PartitionInfo) (offset n : ℕ) : Prop where
  /-- The erase ends inside the partition. -/
  sectors : (offset+p.sectorSize-1)/p.sectorSize+(n+p.sectorSize-1)/p.sectorSize ≤
    p.length/p.sectorSize
  /-- The erase starts at a positive offset. -/
  erase_lt : (offset+p.sectorSize-1)/p.sectorSize*p.sectorSize < 2^31
  /-- The last chunk is read back at a positive offset. -/
  chunk_lt : offset+(n-1)/abWriteCheckBufSize*abWriteCheckBufSize < 2^31

/-- All slices from an offset on fit. -/
def SlicesFit (p : PartitionInfo) : ℕ → List (List UInt8) → Prop
  | _, [] => True
  | offset, d :: ds => SliceFits p offset d.length ∧ SlicesFit p (offset+d.length) ds

section Chunks

variable {σ : Type} {f : FlashOps σ} {node : PartitionInfo} {s : σ}

variable {n offset : ℕ} {data : List UInt8} {dev : Nor}

/-- A chunk is read at a positive offset. -/
theorem chunkIsSame_lt (hlt : offset < 2^32) (hpos : 0 < data.length)
    (h : chunkIsSame f node s offset data = true) : offset < 2^31 := by
  by_contra hge
  have hneg := offT_neg (Nat.le_of_not_lt hge) hlt
  rw [chunkIsSame, Nat.mod_eq_of_lt hlt, partitionRead, if_neg hpos.ne', if_pos hneg,
    Bool.and_eq_true, decide_eq_true_iff] at h
  exact not_einval_nonneg h.1

theorem rdCheckLoop_lt (hlt : offset+data.length < 2^32) (hpos : 0 < data.length)
    (hn : n = data.length/abWriteCheckBufSize) (h : rdCheckLoop f node s n offset data = true) :
    offset+(data.length-1)/abWriteCheckBufSize*abWriteCheckBufSize < 2^31 := by
  induction n generalizing offset data with
  | zero =>
    rw [rdCheckLoop, Bool.or_eq_true, decide_eq_true_iff] at h
    have hoff := chunkIsSame_lt (by omega) hpos (h.resolve_left hpos.ne')
    rw [abWriteCheckBufSize] at hn ⊢
    omega
  | succ n ih =>
    rw [rdCheckLoop, Bool.and_eq_true] at h
    simp only [abWriteCheckBufSize] at ih hn h ⊢
    have htake : (data.take 8192).length = 8192 := length_take_of_le (by omega)
    have hdrop : (data.drop 8192).length = data.length-8192 := length_drop
    have hoff := chunkIsSame_lt (by omega) (by omega) h.1
    by_cases hrest : data.length = 8192
    · omega
    · have hlast := ih (by omega) (by omega) (by omega) h.2
      omega

/-- What is stored reads back. -/
theorem chunkIsSame_of_holds (hpos : 0 < data.length) (hin : offset+data.length ≤ node.length)
    (hlt : offset < 2^31) (h : Holds (window dev.mem node.addr) offset data) :
    chunkIsSame norOps node dev offset data = true := by
  have hread : readBytes dev.mem (node.addr+offset) data.length = data := by
    rw [←readBytes_window]
    exact h.readBytes_eq
  rw [chunkIsSame, Nat.mod_eq_of_lt (by omega), offT_of_lt hlt, partitionRead_inside hpos hin]
  simp only [norOps, hread, le_refl, decide_true, beq_self_eq_true, Bool.and_self]

theorem rdCheckLoop_of_holds (hn : n = data.length/abWriteCheckBufSize)
    (hin : offset+data.length ≤ node.length)
    (hlt : offset+(data.length-1)/abWriteCheckBufSize*abWriteCheckBufSize < 2^31)
    (h : Holds (window dev.mem node.addr) offset data) :
    rdCheckLoop norOps node dev n offset data = true := by
  induction n generalizing offset data with
  | zero =>
    rw [rdCheckLoop, Bool.or_eq_true, decide_eq_true_iff]
    rcases eq_zero_or_pos data.length with hz|hpos
    · exact .inl hz
    · exact .inr (chunkIsSame_of_holds hpos hin (by omega) h)
  | succ n ih =>
    rw [rdCheckLoop, Bool.and_eq_true]
    simp only [abWriteCheckBufSize] at ih hn hlt ⊢
    have htake : (data.take 8192).length = 8192 := length_take_of_le (by omega)
    have hdrop : (data.drop 8192).length = data.length-8192 := length_drop
    rw [←take_append_drop 8192 data, holds_append, htake] at h
    refine ⟨chunkIsSame_of_holds (by omega) (by omega) (by omega) h.1, ?_⟩
    by_cases hrest : data.length = 8192
    · have hnil : data.drop 8192 = [] := drop_eq_nil_of_le (by omega)
      have hzero : n = 0 := by omega
      rw [hnil, hzero]
      rfl
    · exact ih (by omega) (by omega) (by omega) h.2

end Chunks

section Slice

variable {p : PartitionInfo} {dev : Nor} {offset : ℕ} {data : List UInt8}

variable {σ : Type}

/-- The code returns zero only for slices that fit. -/
theorem writeSlice_fits {f : FlashOps σ} {s next : σ} (hlt : offset+data.length < 2^32)
    (hpos : 0 < data.length) (h : writeSlice f p.sectorSize p s offset data = (0, next)) :
    SliceFits p offset data.length := by
  have hg := p.sector_pos
  have hg' := p.sector_le
  obtain ⟨re, mid, rp, herase, hre, -, -, hcheck⟩ := writeSlice_cases h
  have hchunk := rdCheckLoop_lt hlt hpos rfl hcheck
  have hbounds : offset < 2^31 ∧ data.length ≤ 2^31 := by
    rw [abWriteCheckBufSize] at hchunk
    omega
  have hadd : data.length+p.sectorSize-1 < 2^32 := by omega
  have hoff : offset+p.sectorSize-1 < 2^32 := by omega
  have hcount := blockCount_pos hg hadd hpos
  have hcount' := blockCount_le hg hadd hpos
  rw [eraseOffset_eq hoff] at herase
  have hneg : (offset+p.sectorSize-1)/p.sectorSize*p.sectorSize < 2^31 :=
    partitionErase_lt hcount ((roundUp_le offset).trans_lt hoff) (by rw [herase]; exact hre)
  rw [offT_of_lt hneg] at herase
  have hdiv := Nat.mul_div_cancel ((offset+p.sectorSize-1)/p.sectorSize) hg
  have hself := Nat.div_le_self ((offset+p.sectorSize-1)/p.sectorSize*p.sectorSize) p.sectorSize
  have hin : (offset+p.sectorSize-1)/p.sectorSize*p.sectorSize/p.sectorSize+
      blockCount p.sectorSize data.length ≤ p.length/p.sectorSize := by
    refine partitionErase_success hcount (by omega) (?_ : 0 ≤ (partitionErase f p s _ _).1)
    rw [herase]
    exact hre
  rw [hdiv, blockCount_eq hadd] at hin
  exact ⟨hin, hneg, hchunk⟩

/-- The steps of a slice write in a row. -/
theorem writeSlice_of_steps {f : FlashOps σ} {s mid next : σ} {g : ℕ}
    (he : partitionErase f p s (offT (eraseOffset g offset)) (blockCount g data.length) = (0, mid))
    (hw : partitionWrite f p mid (offT offset) data = (0, next))
    (hc : rdCheckLoop f p next (data.length/abWriteCheckBufSize) offset data = true) :
    writeSlice f g p s offset data = (0, next) := by
  have hrd : sliceDataRdCheck f p next offset data = 0 := if_pos hc
  simp only [writeSlice, he, hw, hrd, lt_irrefl, if_false, decide_false, List.any_eq_true,
    Bool.false_eq_true, and_false, exists_false]

/-- The device after a slice was written. -/
def sliceWritten (p : PartitionInfo) (dev : Nor) (offset : ℕ) (data : List UInt8) : Mem :=
  program (erase dev.mem (p.addr+(offset+p.sectorSize-1)/p.sectorSize*p.sectorSize)
    ((data.length+p.sectorSize-1)/p.sectorSize*p.sectorSize)) (p.addr+offset) data

/-- The cells a slice goes to are blank after the erase, and so are those behind
it up to the next sector. -/
theorem sliceWritten_spec (data : List UInt8)
    (hb : Blank (window dev.mem p.addr) offset
      ((offset+p.sectorSize-1)/p.sectorSize*p.sectorSize)) :
    Holds (window (sliceWritten p dev offset data) p.addr) offset data ∧
      Agree (window (sliceWritten p dev offset data) p.addr) (window dev.mem p.addr) 0 offset ∧
      Blank (window (sliceWritten p dev offset data) p.addr) (offset+data.length)
        ((offset+data.length+p.sectorSize-1)/p.sectorSize*p.sectorSize) := by
  have hg := p.sector_pos
  have hoff := le_roundUp hg offset
  have hlen := le_roundUp hg data.length
  have hend := Nat.mul_le_mul_right p.sectorSize (roundUp_add_le hg offset data.length)
  rw [add_mul] at hend
  rw [sliceWritten, window_program]
  set first := (offset+p.sectorSize-1)/p.sectorSize*p.sectorSize
  set count := (data.length+p.sectorSize-1)/p.sectorSize*p.sectorSize
  set m := window (erase dev.mem (p.addr+first) count) p.addr with hm
  have hblank : Blank m offset (first+count) := fun i h1 h2 => by
    rw [hm, window]
    by_cases hi : i < first
    · rw [erase_outside (by omega)]
      exact hb i h1 hi
    · exact erase_inside (by omega) (by omega)
  refine ⟨holds_program (hblank.mono le_rfl (by omega)), fun i _ hi => ?_, fun i h1 h2 => ?_⟩
  · rw [program_outside (by omega), hm, window, window, erase_outside (by omega)]
  · rw [program_outside (by omega)]
    exact hblank i (by omega) (by omega)

/-- A slice that fits is written. -/
theorem writeSlice_works (hpos : 0 < data.length) (hin : offset+data.length ≤ p.length)
    (hfit : SliceFits p offset data.length)
    (hb : Blank (window dev.mem p.addr) offset
      ((offset+p.sectorSize-1)/p.sectorSize*p.sectorSize)) :
    ∃ trace, writeSlice norOps p.sectorSize p dev offset data =
      (0, ⟨sliceWritten p dev offset data, trace⟩) := by
  have hg := p.sector_pos
  have hg' := p.sector_le
  have hlt := p.addr_lt
  have hbounds : offset < 2^31 ∧ data.length ≤ 2^31 := by
    have hchunk := hfit.chunk_lt
    rw [abWriteCheckBufSize] at hchunk
    omega
  have hadd : data.length+p.sectorSize-1 < 2^32 := by omega
  have hoff : offset+p.sectorSize-1 < 2^32 := by omega
  have hcount := blockCount_pos hg hadd hpos
  have hsect := hfit.sectors
  have hle : (data.length+p.sectorSize-1)/p.sectorSize*p.sectorSize ≤ p.length :=
    (Nat.mul_le_mul_right _ ((Nat.le_add_left _ _).trans hsect)).trans
      (Nat.div_mul_le_self p.length p.sectorSize)
  have herase : ∃ trace, partitionErase norOps p dev (offT (eraseOffset p.sectorSize offset))
      (blockCount p.sectorSize data.length) =
      (0, ⟨erase dev.mem (p.addr+(offset+p.sectorSize-1)/p.sectorSize*p.sectorSize)
        ((data.length+p.sectorSize-1)/p.sectorSize*p.sectorSize), trace⟩) := by
    rw [eraseOffset_eq hoff, offT_of_lt hfit.erase_lt, partitionErase_inside hcount,
      blockCount_eq hadd, Nat.mod_eq_of_lt (by omega)]
    · exact ⟨_, rfl⟩
    · rw [Nat.mul_div_cancel _ hg, blockCount_eq hadd]
      exact hsect
  obtain ⟨tr, herase⟩ := herase
  have hwrite : partitionWrite norOps p ⟨erase dev.mem
      (p.addr+(offset+p.sectorSize-1)/p.sectorSize*p.sectorSize)
      ((data.length+p.sectorSize-1)/p.sectorSize*p.sectorSize), tr⟩ (offT offset) data =
      (0, ⟨sliceWritten p dev offset data, tr ++ [.write (p.addr+offset) data]⟩) := by
    rw [offT_of_lt hbounds.1, partitionWrite_inside hpos hin]
    rfl
  exact ⟨_, writeSlice_of_steps herase hwrite
    (rdCheckLoop_of_holds rfl hin hfit.chunk_lt (sliceWritten_spec data hb).1)⟩

end Slice

theorem readBytes_bufferMem (d : List UInt8) : readBytes (bufferMem d) 0 d.length = d :=
  (holds_of_getD 0 fun i _ => by rw [zero_add, bufferMem]).readBytes_eq

section Image

variable {table : List PartitionInfo} {files : Files} {name : List UInt8} {p : PartitionInfo}

variable {dev : Nor} {offset : ℕ} {slices : List (List UInt8)}

/-- A call with a buffer writes the slice. -/
theorem bootabUpgradePartitionSlice_eq
    (hp : partitionInfoGet table (partitionOpen table name) = some p) {k : ℕ} {d : List UInt8}
    (hpos : 0 < d.length) (hin : offset+d.length ≤ p.length) :
    bootabUpgradePartitionSlice norOps p.sectorSize table files dev (some name) none offset
      d.length k (some (bufferMem d)) = writeSlice norOps p.sectorSize p dev offset d := by
  have hbound : ¬p.length < (offset+d.length) % 2^32 :=
    Nat.not_lt_of_le ((Nat.mod_le _ _).trans hin)
  simp only [bootabUpgradePartitionSlice, hpos.ne', if_false, hp, hbound, readBytes_bufferMem]

/-- If all calls return zero then all slices fit. -/
theorem writeSlices_fit (hp : partitionInfoGet table (partitionOpen table name) = some p)
    (hne : ∀ d ∈ slices, d ≠ []) (hlen : offset+slices.flatten.length ≤ p.length)
    (h : ∀ r ∈ (writeSlices p.sectorSize table files name dev offset slices).1, r = 0) :
    SlicesFit p offset slices := by
  induction slices generalizing dev offset with
  | nil => trivial
  | cons d ds ih =>
    rw [flatten_cons, length_append] at hlen
    have hpos : 0 < d.length := List.length_pos_iff.mpr (hne d mem_cons_self)
    have hlt := p.addr_lt
    simp only [writeSlices, forall_mem_cons] at h
    have hcall := h.1
    rw [bootabUpgradePartitionSlice_eq hp hpos (by omega)] at hcall
    refine ⟨writeSlice_fits (by omega) hpos (Prod.ext hcall rfl), ?_⟩
    exact ih (fun x hx => hne x (mem_cons_of_mem d hx)) (by omega) h.2

/-- If all slices fit then they are written one behind the other. -/
theorem writeSlices_work (hp : partitionInfoGet table (partitionOpen table name) = some p)
    (files : Files) (dev : Nor) (hne : ∀ d ∈ slices, d ≠ [])
    (hlen : offset+slices.flatten.length ≤ p.length) (hfit : SlicesFit p offset slices)
    (hb : Blank (window dev.mem p.addr) offset ((offset+p.sectorSize-1)/p.sectorSize*p.sectorSize))
    : (∀ r ∈ (writeSlices p.sectorSize table files name dev offset slices).1, r = 0) ∧
      Holds (window (writeSlices p.sectorSize table files name dev offset slices).2.mem p.addr)
        offset slices.flatten ∧
      Agree (window (writeSlices p.sectorSize table files name dev offset slices).2.mem p.addr)
        (window dev.mem p.addr) 0 offset := by
  induction slices generalizing dev offset with
  | nil => exact ⟨nofun, trivial, Agree.refl _ _ _⟩
  | cons d ds ih =>
    rw [flatten_cons, length_append] at hlen
    have hpos : 0 < d.length := List.length_pos_iff.mpr (hne d mem_cons_self)
    obtain ⟨trace, hcall⟩ := writeSlice_works hpos (by omega) hfit.1 hb
    obtain ⟨hstored, hkept, hblank⟩ := sliceWritten_spec d hb
    have hrest := ih ⟨sliceWritten p dev offset d, trace⟩
      (fun x hx => hne x (mem_cons_of_mem d hx)) (by omega) hfit.2 hblank
    simp only [writeSlices, bootabUpgradePartitionSlice_eq hp hpos (show offset+d.length ≤ p.length
      by omega), hcall, forall_mem_cons, true_and, flatten_cons, holds_append]
    refine ⟨hrest.1, ⟨hstored.congr (hrest.2.2.mono (Nat.zero_le _) le_rfl), hrest.2.1⟩, ?_⟩
    exact (hrest.2.2.mono le_rfl (Nat.le_add_right _ _)).trans hkept

/-- Every slicing of an image is written and stored exactly if all its slices
fit the sectors of the partition. -/
theorem writeSlices_iff (hp : partitionInfoGet table (partitionOpen table name) = some p)
    {slices : List (List UInt8)} (dev : Nor) (hne : ∀ d ∈ slices, d ≠ [])
    (hlen : slices.flatten.length ≤ p.length) :
    ((∀ r ∈ (writeSlices p.sectorSize table files name dev 0 slices).1, r = 0) ∧
      readBytes (window (writeSlices p.sectorSize table files name dev 0 slices).2.mem p.addr) 0
        slices.flatten.length = slices.flatten) ↔ SlicesFit p 0 slices := by
  have hlen0 : 0+slices.flatten.length ≤ p.length := by rwa [zero_add]
  constructor
  · intro h
    exact writeSlices_fit hp hne hlen0 h.1
  · intro hfit
    have hg := p.sector_pos
    have hzero : (0+p.sectorSize-1)/p.sectorSize*p.sectorSize = 0 := by
      rw [Nat.div_eq_of_lt (by omega), zero_mul]
    have hwork := writeSlices_work hp files dev hne hlen0 hfit (fun i _ hi => by omega)
    exact ⟨hwork.1, hwork.2.1.readBytes_eq⟩

end Image

theorem tinySector_pos : 0 < 4 := by decide

theorem tinySector_le : 4 ≤ 2^31 := by decide

theorem tinyPartition_addr_lt : 4096+1024+8 < 2^32 := by decide

/-- A partition of two sectors of four bytes. -/
def tinyPartition : PartitionInfo where
  description := [112, 114, 105, 109]
  baseAddr := 4096
  startAddr := 1024
  length := 8
  sectorSize := 4
  sector_pos := tinySector_pos
  sector_le := tinySector_le
  addr_lt := tinyPartition_addr_lt

/-- Two slices over old contents. -/
theorem writeSlices_small : ∃ codes dev,
    writeSlices 4 [tinyPartition] noFiles [112, 114, 105, 109] ⟨fun _ => 0x5A, []⟩ 0
      [[1, 2, 3], [4, 5]] = (codes, dev) ∧ (∀ r ∈ codes, r = 0) ∧
      readBytes (window dev.mem tinyPartition.addr) 0 5 = [1, 2, 3, 4, 5] := by
  have hopen : partitionInfoGet [tinyPartition]
      (partitionOpen [tinyPartition] [112, 114, 105, 109]) = some tinyPartition := rfl
  have hfit : SlicesFit tinyPartition 0 [[1, 2, 3], [4, 5]] :=
    ⟨⟨by decide, by decide, by decide⟩, ⟨by decide, by decide, by decide⟩, trivial⟩
  obtain ⟨hcodes, hread⟩ := (writeSlices_iff hopen ⟨fun _ => 0x5A, []⟩ (by decide)
    (by decide)).mpr hfit
  exact ⟨_, _, rfl, hcodes, hread⟩

/-- An image of six bytes for a partition of eight: the second slice starts in
the last sector, and its erase is refused. -/
theorem writeSlices_refused :
    tinyPartition.sectorSize ∣ tinyPartition.length ∧
    (∀ d ∈ [[1, 2, 3, 4, 5], [(6 : UInt8)]], d ≠ []) ∧
    ([[1, 2, 3, 4, 5], [(6 : UInt8)]].flatten.length ≤ tinyPartition.length) ∧
    (writeSlices 4 [tinyPartition] noFiles [112, 114, 105, 109] ⟨fun _ => 0x5A, []⟩ 0
      [[1, 2, 3, 4, 5], [6]]).1 = [0, einval] := by
  decide +kernel

end PineVoice.Bootab
