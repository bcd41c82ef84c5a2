import PineVoice.NorFlash

/-!
# Flash partitions

A partition is a range of a flash device. Reads, writes and erases check
their range against the partition and go on to the driver at an absolute
address. The driver is a parameter: one that programs and erases faithfully
and records its operations, or one of which only the reads can be trusted.
-/

namespace PineVoice.Partitions

open NorFlash

/-- The code for an invalid argument. -/
def einval : ℤ := -22

theorem not_einval_nonneg : ¬0 ≤ einval := by decide

/-- `partition_info_t` with the fields the accesses use. -/
structure PartitionInfo where
  /-- Name of the partition. -/
  description : List UInt8
  /-- Address of the flash. -/
  baseAddr : ℕ
  /-- Offset of the partition in the flash. -/
  startAddr : ℕ
  /-- Length in bytes. -/
  length : ℕ
  /-- Sector size of the flash. -/
  sectorSize : ℕ
  /-- `partition_init` refuses a flash without a sector size. -/
  sector_pos : 0 < sectorSize
  /-- A flash has two sectors at least. -/
  sector_le : sectorSize ≤ 2^31
  /-- The partition ends below the top of the address space. -/
  addr_lt : baseAddr+startAddr+length < 2^32

/-- Address of the first byte of a partition. -/
def PartitionInfo.addr (node : PartitionInfo) : ℕ := node.baseAddr+node.startAddr

/-- `partition_open`: the handle of the first partition whose name starts with
the one asked for, which is compared up to the size of a name. -/
def partitionOpen (table : List PartitionInfo) (name : List UInt8) : ℤ :=
  match table.findIdx? fun node => name.take 8 == node.description.take (min name.length 8) with
  | some i => i
  | none => einval

/-- `partition_info_get` of an open handle. -/
def partitionInfoGet (table : List PartitionInfo) (partition : ℤ) : Option PartitionInfo :=
  if 0 ≤ partition then table[partition.toNat]? else none

/-- Driver entry points with their return codes. -/
structure FlashOps (σ : Type) where
  /-- Read bytes from an address on. -/
  read : σ → ℕ → ℕ → ℤ × List UInt8
  /-- Program bytes from an address on. -/
  write : σ → ℕ → List UInt8 → ℤ × σ
  /-- Erase a range. -/
  erase : σ → ℕ → ℕ → ℤ × σ

/-- An unsigned offset passed as an `off_t`. -/
def offT (x : ℕ) : ℤ := if x < 2^31 then x else (x : ℤ)-2^32

section Access

variable {σ : Type} (f : FlashOps σ) (node : PartitionInfo) (s : σ)

/-- The address handed to the driver, an `unsigned long`. -/
def PartitionInfo.deviceAddr (off : ℕ) : ℕ := (node.addr+off) % 2^32

/-- `partition_read`. -/
def partitionRead (off : ℤ) (size : ℕ) : ℤ × List UInt8 :=
  if size = 0 then (0, [])
  else if off < 0 then (einval, [])
  else if (off.toNat+size) % 2^32 ≤ node.length then
    f.read s (node.deviceAddr off.toNat) size
  else (einval, [])

/-- `partition_write`. -/
def partitionWrite (off : ℤ) (data : List UInt8) : ℤ × σ :=
  if data.length = 0 then (0, s)
  else if off < 0 then (einval, s)
  else if (off.toNat+data.length) % 2^32 ≤ node.length then
    f.write s (node.deviceAddr off.toNat) data
  else (einval, s)

/-- `partition_erase`. -/
def partitionErase (off : ℤ) (blockCount : ℕ) : ℤ × σ :=
  if blockCount = 0 then (0, s)
  else if off < 0 then (einval, s)
  else if (off.toNat/node.sectorSize+blockCount) % 2^32 ≤ node.length/node.sectorSize then
    f.erase s (node.deviceAddr off.toNat) ((blockCount*node.sectorSize) % 2^32)
  else (einval, s)

variable {f node s}

variable {count off size x : ℕ} {data : List UInt8}

theorem deviceAddr_inside (h : off < node.length) : node.deviceAddr off = node.addr+off := by
  have hlt := node.addr_lt
  rw [PartitionInfo.deviceAddr, Nat.mod_eq_of_lt (by rw [PartitionInfo.addr]; omega)]

theorem partitionRead_inside (hpos : 0 < size) (h : off+size ≤ node.length) :
    partitionRead f node s off size = f.read s (node.addr+off) size := by
  have hmod : (off+size) % 2^32 ≤ node.length := (Nat.mod_le _ _).trans h
  rw [partitionRead, if_neg (by omega), if_neg (by omega), Int.toNat_natCast, if_pos hmod,
    deviceAddr_inside (by omega)]

theorem partitionWrite_inside (hpos : 0 < data.length) (h : off+data.length ≤ node.length) :
    partitionWrite f node s off data = f.write s (node.addr+off) data := by
  have hmod : (off+data.length) % 2^32 ≤ node.length := (Nat.mod_le _ _).trans h
  rw [partitionWrite, if_neg (by omega), if_neg (by omega), Int.toNat_natCast, if_pos hmod,
    deviceAddr_inside (by omega)]

theorem offT_of_lt (h : x < 2^31) : offT x = x := if_pos h

theorem offT_neg (h : 2^31 ≤ x) (h' : x < 2^32) : offT x < 0 := by
  rw [offT]
  omega

/-- A read that succeeds stays inside the partition. -/
theorem partitionRead_success (hpos : 0 < size) (hlt : off+size < 2^32)
    (h : 0 ≤ (partitionRead f node s off size).1) : off+size ≤ node.length := by
  by_contra hout
  rw [partitionRead, if_neg (by omega), Int.toNat_natCast, Nat.mod_eq_of_lt hlt, if_neg hout] at h
  exact not_einval_nonneg h

theorem partitionWrite_success (hpos : 0 < data.length) (hlt : off+data.length < 2^32)
    (h : 0 ≤ (partitionWrite f node s off data).1) : off+data.length ≤ node.length := by
  by_contra hout
  rw [partitionWrite, if_neg (by omega), Int.toNat_natCast, Nat.mod_eq_of_lt hlt, if_neg hout] at h
  exact not_einval_nonneg h

/-- An erase that succeeds counts no more sectors than the partition has. -/
theorem partitionErase_success (hpos : 0 < count) (hlt : off/node.sectorSize+count < 2^32)
    (h : 0 ≤ (partitionErase f node s off count).1) :
    off/node.sectorSize+count ≤ node.length/node.sectorSize := by
  by_contra hout
  rw [partitionErase, if_neg (by omega), Int.toNat_natCast, Nat.mod_eq_of_lt hlt, if_neg hout] at h
  exact not_einval_nonneg h

/-- An erase that succeeds starts at a positive offset. -/
theorem partitionErase_lt (hpos : 0 < count) (hx : x < 2^32)
    (h : 0 ≤ (partitionErase f node s (offT x) count).1) : x < 2^31 := by
  by_contra hge
  have hneg := offT_neg (Nat.le_of_not_lt hge) hx
  rw [partitionErase, if_neg hpos.ne', if_pos hneg] at h
  exact not_einval_nonneg h

theorem partitionErase_inside (hpos : 0 < count)
    (h : off/node.sectorSize+count ≤ node.length/node.sectorSize) :
    partitionErase f node s off count =
      f.erase s (node.addr+off) ((count*node.sectorSize) % 2^32) := by
  have hoff : off < node.length := by
    have hdiv : off/node.sectorSize < node.length/node.sectorSize := by omega
    exact lt_of_not_ge fun hle => absurd (Nat.div_le_div_right hle) (Nat.not_le_of_lt hdiv)
  rw [partitionErase, if_neg (by omega), if_neg (by omega), Int.toNat_natCast,
    if_pos ((Nat.mod_le _ _).trans h), deviceAddr_inside hoff]

/-- Erasing one sector. -/
theorem partitionErase_sector {k : ℕ} (h : (k+1)*node.sectorSize ≤ node.length) :
    partitionErase f node s (k*node.sectorSize : ℕ) 1 =
      f.erase s (node.addr+k*node.sectorSize) node.sectorSize := by
  have hpos := node.sector_pos
  have hsec := node.sector_le
  have hdiv : k*node.sectorSize/node.sectorSize+1 ≤ node.length/node.sectorSize := by
    rw [Nat.mul_div_cancel k hpos]
    exact (Nat.le_div_iff_mul_le hpos).mpr h
  rw [partitionErase_inside Nat.one_pos hdiv, one_mul, Nat.mod_eq_of_lt (by omega)]

end Access

/-- A NOR flash with the operations issued so far. -/
structure Nor where
  /-- Contents. -/
  mem : Mem
  /-- Operations in order. -/
  trace : List Op

/-- A driver whose operations always succeed. -/
def norOps : FlashOps Nor where
  read s addr size := (0, readBytes s.mem addr size)
  write s addr data := (0, ⟨program s.mem addr data, s.trace ++ [.write addr data]⟩)
  erase s addr len := (0, ⟨NorFlash.erase s.mem addr len, s.trace ++ [.erase addr len]⟩)

/-- A driver whose writes and erases keep to their range, whatever they leave
there, and whose successful reads return what is stored. -/
structure Confined {σ : Type} (f : FlashOps σ) (mem : σ → Mem) : Prop where
  /-- Reads are faithful. -/
  read_eq : ∀ s addr size, 0 ≤ (f.read s addr size).1 →
    (f.read s addr size).2 = readBytes (mem s) addr size
  /-- A write keeps to its range. -/
  write_outside : ∀ s addr data i, i < addr ∨ addr+data.length ≤ i →
    mem (f.write s addr data).2 i = mem s i
  /-- An erase keeps to its range. -/
  erase_outside : ∀ s addr len i, i < addr ∨ addr+len ≤ i →
    mem (f.erase s addr len).2 i = mem s i

theorem confined_norOps : Confined norOps Nor.mem where
  read_eq _ _ _ _ := rfl
  write_outside _ _ _ _ h := program_outside h
  erase_outside _ _ _ _ h := erase_outside h

end PineVoice.Partitions
