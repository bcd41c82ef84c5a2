import PineVoice.BootCount

/-!
# Writing an image slice by slice

A slice is written behind the ones before it: the sectors that start inside it
are erased, its bytes are programmed and read back in chunks. The driver is a
parameter, so that what the read-back proves can be told from what a working
flash guarantees.
-/

namespace PineVoice.Bootab

open NorFlash Partitions List

/-- `AB_WRITE_CHECK_BUF_SIZE`. -/
def abWriteCheckBufSize : ℕ := 8192

/-- `AB_WRITE_CHECK_COUNT`. -/
def abWriteCheckCount : ℕ := 1

/-- The code for an input or output error. -/
def eio : ℤ := -5

/-- The code for missing memory. -/
def enomem : ℤ := -12

/-- What the calls of the C library see. -/
structure Files where
  /-- Contents of the files that can be opened. -/
  contents : List UInt8 → Option (List UInt8)
  /-- Sizes that can be allocated. -/
  canAlloc : ℕ → Bool

section Model

variable {σ : Type} (f : FlashOps σ)

/-- Reading one chunk back and comparing it. -/
def chunkIsSame (node : PartitionInfo) (s : σ) (offset : ℕ) (data : List UInt8) : Bool :=
  let r := partitionRead f node s (offT (offset % 2^32)) data.length
  0 ≤ r.1 && r.2 == data

/-- The loop over whole chunks of `_slice_data_rd_check`, and the remainder. -/
def rdCheckLoop (node : PartitionInfo) (s : σ) : ℕ → ℕ → List UInt8 → Bool
  | 0, offset, data => data.length = 0 || chunkIsSame f node s offset data
  | n+1, offset, data =>
    chunkIsSame f node s offset (data.take abWriteCheckBufSize) &&
      rdCheckLoop node s n (offset+abWriteCheckBufSize) (data.drop abWriteCheckBufSize)

/-- `_slice_data_rd_check`. -/
def sliceDataRdCheck (node : PartitionInfo) (s : σ) (offset : ℕ) (data : List UInt8) : ℤ :=
  if rdCheckLoop f node s (data.length/abWriteCheckBufSize) offset data then 0 else -1

/-- First offset of the erase of a slice, with sectors of `flashSector` bytes. -/
def eraseOffset (flashSector offset : ℕ) : ℕ :=
  ((offset+flashSector-1) % 2^32/flashSector*flashSector) % 2^32

/-- Number of sectors erased for some bytes. -/
def blockCount (flashSector wsize : ℕ) : ℕ := (wsize+flashSector-1) % 2^32/flashSector

/-- The steps of `bootab_upgrade_partition_slice` on the bytes to write. -/
def writeSlice (flashSector : ℕ) (node : PartitionInfo) (s : σ) (offset : ℕ)
    (data : List UInt8) : ℤ × σ :=
  let e := partitionErase f node s (offT (eraseOffset flashSector offset))
    (blockCount flashSector data.length)
  if e.1 < 0 then e
  else
    let w := partitionWrite f node e.2 (offT offset) data
    if w.1 < 0 then w
    else if (List.range abWriteCheckCount).any fun _ => sliceDataRdCheck f node w.2 offset data < 0
    then (-1, w.2)
    else (0, w.2)

/-- `bootab_upgrade_partition_slice`. -/
def bootabUpgradePartitionSlice (flashSector : ℕ) (table : List PartitionInfo) (files : Files)
    (s : σ) (partitionName fileName : Option (List UInt8)) (offset sliceSize _isLastSlice : ℕ)
    (buffer : Option Mem) : ℤ × σ :=
  if sliceSize = 0 then (0, s)
  else
    match partitionName with
    | none => (einval, s)
    | some name =>
      match partitionInfoGet table (partitionOpen table name) with
      | none => (einval, s)
      | some node =>
        if node.length < (offset+sliceSize) % 2^32 then (einval, s)
        else
          match buffer, fileName with
          | some pbuf, _ => writeSlice f flashSector node s offset (readBytes pbuf 0 sliceSize)
          | none, some file =>
            match files.contents file with
            | none => (eio, s)
            | some data =>
              if files.canAlloc (data.length+1) then writeSlice f flashSector node s offset data
              else (enomem, s)
          | none, none => (einval, s)

end Model

section Rounding

variable {g wsize : ℕ}

theorem le_roundUp (hg : 0 < g) (x : ℕ) : x ≤ (x+g-1)/g*g := by
  have hdiv := Nat.div_add_mod (x+g-1) g
  have hmod := Nat.mod_lt (x+g-1) hg
  rw [mul_comm] at hdiv
  omega

theorem roundUp_le (x : ℕ) : (x+g-1)/g*g ≤ x+g-1 := Nat.div_mul_le_self _ _

theorem eraseOffset_eq {offset : ℕ} (h : offset+g-1 < 2^32) :
    eraseOffset g offset = (offset+g-1)/g*g := by
  rw [eraseOffset, Nat.mod_eq_of_lt h, Nat.mod_eq_of_lt ((roundUp_le offset).trans_lt h)]

theorem blockCount_eq (h : wsize+g-1 < 2^32) : blockCount g wsize = (wsize+g-1)/g := by
  rw [blockCount, Nat.mod_eq_of_lt h]

theorem blockCount_pos (hg : 0 < g) (h : wsize+g-1 < 2^32) (hw : 0 < wsize) :
    0 < blockCount g wsize := by
  exact Nat.div_pos (by omega) hg

theorem blockCount_le (hg : 0 < g) (h : wsize+g-1 < 2^32) (hw : 0 < wsize) :
    blockCount g wsize ≤ wsize := by
  refine Nat.div_le_of_le_mul ?_
  obtain ⟨k, rfl⟩ := Nat.exists_eq_succ_of_ne_zero hg.ne'
  have hle : k*1 ≤ k*wsize := Nat.mul_le_mul_left k hw
  rw [Nat.succ_mul]
  omega

theorem roundUp_add_le (hg : 0 < g) (x y : ℕ) : (x+y+g-1)/g ≤ (x+g-1)/g+(y+g-1)/g := by
  have hx := le_roundUp hg x
  have hy := le_roundUp hg y
  refine Nat.le_of_lt_succ ((Nat.div_lt_iff_lt_mul hg).mpr ?_)
  rw [Nat.succ_mul, add_mul]
  omega

end Rounding

section ReadBack

variable {σ : Type} {f : FlashOps σ} {mem : σ → Mem} {node : PartitionInfo} {s : σ}

variable {g offset : ℕ} {data : List UInt8}

/-- A chunk that reads back is stored. -/
theorem chunkIsSame_holds (hf : Confined f mem) (hlt : offset+data.length < 2^31)
    (hpos : 0 < data.length) (h : chunkIsSame f node s offset data = true) :
    Holds (window (mem s) node.addr) offset data := by
  rw [chunkIsSame, Nat.mod_eq_of_lt (by omega), offT_of_lt (by omega), Bool.and_eq_true,
    decide_eq_true_iff, beq_iff_eq] at h
  have hin := partitionRead_success hpos (by omega) h.1
  rw [partitionRead_inside hpos hin] at h
  rw [hf.read_eq _ _ _ h.1, ←readBytes_window] at h
  simpa only [h.2] using holds_readBytes (window (mem s) node.addr) offset data.length

/-- The chunks of the loop and the remainder make up the data. -/
theorem rdCheckLoop_holds (hf : Confined f mem) {n : ℕ} (hlt : offset+data.length < 2^31)
    (hn : n*abWriteCheckBufSize ≤ data.length) (h : rdCheckLoop f node s n offset data = true) :
    Holds (window (mem s) node.addr) offset data := by
  induction n generalizing offset data with
  | zero =>
    rw [rdCheckLoop, Bool.or_eq_true, decide_eq_true_iff] at h
    rcases eq_zero_or_pos data.length with hz|hpos
    · rw [eq_nil_of_length_eq_zero hz]
      trivial
    · exact chunkIsSame_holds hf hlt hpos (h.resolve_left hpos.ne')
  | succ n ih =>
    rw [Nat.succ_mul] at hn
    have htake : (data.take abWriteCheckBufSize).length = abWriteCheckBufSize :=
      length_take_of_le (by omega)
    have hdrop : (data.drop abWriteCheckBufSize).length = data.length-abWriteCheckBufSize :=
      length_drop
    have hsize : 0 < abWriteCheckBufSize := by decide
    rw [rdCheckLoop, Bool.and_eq_true] at h
    rw [←take_append_drop abWriteCheckBufSize data, holds_append, htake]
    exact ⟨chunkIsSame_holds hf (by omega) (by omega) h.1, ih (by omega) (by omega) h.2⟩

section

variable {next : σ} (h : writeSlice f g node s offset data = (0, next))
include h

/-- A slice write that returns zero went through all its steps. -/
theorem writeSlice_cases : ∃ re mid rw,
      partitionErase f node s (offT (eraseOffset g offset)) (blockCount g data.length) =
        (re, mid) ∧ 0 ≤ re ∧
      partitionWrite f node mid (offT offset) data = (rw, next) ∧ 0 ≤ rw ∧
      rdCheckLoop f node next (data.length/abWriteCheckBufSize) offset data = true := by
  unfold writeSlice at h
  simp only at h
  split_ifs at h with he hw hc
  · rw [h] at he
    exact absurd he (lt_irrefl 0)
  · rw [h] at hw
    exact absurd hw (lt_irrefl 0)
  · cases h
  · cases h
    refine ⟨_, _, _, rfl, not_lt.mp he, rfl, not_lt.mp hw, ?_⟩
    by_contra hbad
    refine hc (List.any_eq_true.mpr ⟨0, by decide, ?_⟩)
    rw [sliceDataRdCheck, if_neg hbad]
    rfl

variable (hg : 0 < g) (hg' : g ≤ 2^31) (hlt : offset+data.length < 2^31) (hpos : 0 < data.length)
include hg hg' hlt hpos

/-- The driver calls of a slice write that returned zero: an erase from the next
sector on and a write, both of which passed the checks of the partition. -/
theorem writeSlice_steps : ∃ first count,
      first = eraseOffset g offset ∧ offset ≤ first ∧
      first/node.sectorSize+count ≤ node.length/node.sectorSize ∧
      offset+data.length ≤ node.length ∧
      next = (f.write (f.erase s (node.addr+first) ((count*node.sectorSize) % 2^32)).2
        (node.addr+offset) data).2 := by
  have hadd : data.length+g-1 < 2^32 := by omega
  have hcount := blockCount_pos hg hadd hpos
  have hcount' := blockCount_le hg hadd hpos
  have hoff : offset ≤ eraseOffset g offset := by
    rw [eraseOffset_eq (by omega)]
    exact le_roundUp hg offset
  obtain ⟨re, mid, rp, herase, hre, hwrite, hrp, -⟩ := writeSlice_cases h
  have hneg : eraseOffset g offset < 2^31 :=
    partitionErase_lt hcount (Nat.mod_lt _ (by decide)) (by rw [herase]; exact hre)
  rw [offT_of_lt hneg] at herase
  rw [offT_of_lt (by omega)] at hwrite
  have hdiv := Nat.div_le_self (eraseOffset g offset) node.sectorSize
  have hein : eraseOffset g offset/node.sectorSize+blockCount g data.length ≤
      node.length/node.sectorSize := by
    refine partitionErase_success hcount (by omega) (?_ : 0 ≤ (partitionErase f node s _ _).1)
    rw [herase]
    exact hre
  have hwin : offset+data.length ≤ node.length := by
    refine partitionWrite_success hpos (by omega) (?_ : 0 ≤ (partitionWrite f node mid _ _).1)
    rw [hwrite]
    exact hrp
  rw [partitionErase_inside hcount hein] at herase
  rw [partitionWrite_inside hpos hwin] at hwrite
  refine ⟨_, _, rfl, hoff, hein, hwin, ?_⟩
  rw [herase, hwrite]

/-- A slice that was written is stored, and nothing before it changed. -/
theorem writeSlice_stores (hf : Confined f mem) :
    Holds (window (mem next) node.addr) offset data ∧
      ∀ i, i < offset → window (mem next) node.addr i = window (mem s) node.addr i := by
  obtain ⟨-, -, -, -, -, -, -, hcheck⟩ := writeSlice_cases h
  obtain ⟨first, count, -, hoff, -, -, hnext⟩ := writeSlice_steps h hg hg' hlt hpos
  refine ⟨rdCheckLoop_holds hf hlt (Nat.div_mul_le_self _ _) hcheck, fun i hi => ?_⟩
  rw [window, window, hnext, hf.write_outside _ _ _ _ (by omega),
    hf.erase_outside _ _ _ _ (by omega)]

/-- A slice write keeps to the partition if the sector size it rounds with is a
multiple of that of the partition. -/
theorem writeSlice_frame (hf : Confined f mem) (hdvd : node.sectorSize ∣ g) {i : ℕ}
    (hi : i < node.addr ∨ node.addr+node.length ≤ i) : mem next i = mem s i := by
  obtain ⟨first, count, hfirst, hoff, hein, hwin, hnext⟩ := writeSlice_steps h hg hg' hlt hpos
  have hmul : node.sectorSize ∣ first := by
    rw [hfirst, eraseOffset_eq (by omega)]
    exact hdvd.trans (Nat.dvd_mul_left _ _)
  have hend : first+(count*node.sectorSize) % 2^32 ≤ node.length := by
    have hle := (Nat.mul_le_mul_right node.sectorSize hein).trans
      (Nat.div_mul_le_self node.length node.sectorSize)
    rw [Nat.add_mul, Nat.div_mul_cancel hmul] at hle
    omega
  rw [hnext, hf.write_outside _ _ _ _ (by omega), hf.erase_outside _ _ _ _ (by omega)]

end

end ReadBack

/-- A slice write from a buffer that reports success has stored the buffer and
spared everything before it, whatever the flash does inside the ranges that are
programmed and erased. -/
theorem bootabUpgradePartitionSlice_stores {σ : Type} {f : FlashOps σ} {mem : σ → Mem}
    (hf : Confined f mem) (env : EnvPartition) {table : List PartitionInfo} {files : Files}
    {s next : σ} {name : List UInt8} {offset n isLastSlice : ℕ} {buffer : Mem}
    {p : PartitionInfo} (hp : partitionInfoGet table (partitionOpen table name) = some p)
    (hn : 0 < n) (hlt : offset+n < 2^31)
    (h : bootabUpgradePartitionSlice f env.sectorSize table files s (some name) none offset n
      isLastSlice (some buffer) = (0, next)) :
    readBytes (window (mem next) p.addr) offset n = readBytes buffer 0 n ∧
      ∀ i, i < offset → window (mem next) p.addr i = window (mem s) p.addr i := by
  have hlen : (readBytes buffer 0 n).length = n := readBytes_length _ _ _
  simp only [bootabUpgradePartitionSlice, if_neg hn.ne', hp] at h
  split_ifs at h with hbound
  · cases h
  · obtain ⟨hstored, hkept⟩ := writeSlice_stores h env.sector_pos env.sector_le
      (by rw [hlen]; exact hlt) (by rw [hlen]; exact hn) hf
    have hread := hstored.readBytes_eq
    rw [hlen] at hread
    exact ⟨hread, hkept⟩

theorem shortSector_pos : 0 < 256 := by decide

theorem shortSector_le : 256 ≤ 2^31 := by decide

theorem smallPartition_addr_lt : 4096+1024+1024 < 2^32 := by decide

/-- A partition of four short sectors. -/
def smallPartition : PartitionInfo where
  description := [112, 114, 105, 109]
  baseAddr := 4096
  startAddr := 1024
  length := 1024
  sectorSize := 256
  sector_pos := shortSector_pos
  sector_le := shortSector_le
  addr_lt := smallPartition_addr_lt

/-- A file system without files. -/
def noFiles : Files := ⟨fun _ => none, fun _ => true⟩

/-- Five bytes behind three others. -/
theorem bootabUpgradePartitionSlice_stores_small : ∃ next,
    bootabUpgradePartitionSlice norOps smallEnv.sectorSize [smallPartition] noFiles
      ⟨fun _ => 0xFF, []⟩ (some [112, 114, 105, 109]) none 3 5 0 (some fun i => UInt8.ofNat i) =
        (0, next) ∧
      readBytes (window next.mem smallPartition.addr) 3 5 = [0, 1, 2, 3, 4] := by
  have hret : (bootabUpgradePartitionSlice norOps smallEnv.sectorSize [smallPartition] noFiles
      ⟨fun _ => 0xFF, []⟩ (some [112, 114, 105, 109]) none 3 5 0
      (some fun i => UInt8.ofNat i)).1 = 0 := by
    decide +kernel
  refine ⟨_, Prod.ext hret rfl, ?_⟩
  exact (bootabUpgradePartitionSlice_stores confined_norOps smallEnv rfl (by decide) (by decide)
    (Prod.ext hret rfl)).1

end PineVoice.Bootab
