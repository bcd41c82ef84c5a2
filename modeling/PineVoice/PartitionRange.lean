import PineVoice.SpiFlash

/-!
# The flash that an access to a partition touches

The commands that reach the serial flash for a write or an erase of a partition. A write that
succeeds keeps to the partition. An erase counts its sectors from the sector of its offset but
starts at the offset itself, so from inside a sector it takes one sector more than was checked.
-/

namespace PineVoice.SpiFlash

open NorFlash Partitions List

/-- A partition of whole sectors, as `partition_init` fills it on the serial flash. -/
structure OnFlash (node : PartitionInfo) : Prop where
  /-- The flash starts there. -/
  base : node.baseAddr = xipAddr
  /-- The sectors are those of the flash. -/
  sector : node.sectorSize = flashSectorSize
  /-- The partition starts with a sector. -/
  start : flashSectorSize ∣ node.startAddr
  /-- The partition ends with a sector. -/
  length : flashSectorSize ∣ node.length

/-- A write or an erase of a partition. -/
inductive Call where
  | write (off : ℕ) (data : List UInt8)
  | erase (off blockCount : ℕ)

/-- The arguments fit the types of the functions. -/
def Call.Typed : Call → Prop
  | .write off data => off < 2^31 ∧ data.length < 2^32
  | .erase off blockCount => off < 2^31 ∧ blockCount < 2^32

/-- Carry out a call. -/
def Call.run {σ : Type} (f : FlashOps σ) (node : PartitionInfo) (s : σ) : Call → ℤ × σ
  | .write off data => partitionWrite f node s off data
  | .erase off blockCount => partitionErase f node s off blockCount

/-- The bytes of an operation lie in a partition. -/
def StaysIn (node : PartitionInfo) : Op → Prop
  | .write a data => node.addr ≤ a ∧ a+data.length ≤ node.addr+node.length
  | .erase a len => node.addr ≤ a ∧ a+len ≤ node.addr+node.length

instance (node : PartitionInfo) : DecidablePred (StaysIn node)
  | .write _ _ => inferInstanceAs (Decidable (_ ∧ _))
  | .erase _ _ => inferInstanceAs (Decidable (_ ∧ _))

/-- A device with nothing issued yet. -/
def Device.start (mem emem : Mem) : Device := ⟨⟨mem, []⟩, ⟨emem, []⟩⟩

/-- What was issued to both flashes. -/
def Device.issued (s : Device) : List Op := s.spi.trace ++ s.eflash.trace

/-- An erase starts with a sector, or leaves out the last sector of the partition. -/
def Call.Fits (node : PartitionInfo) : Call → Prop
  | .write _ _ => True
  | .erase off blockCount =>
    blockCount = 0 ∨ off % node.sectorSize ≤ 1 ∨
      off/node.sectorSize+blockCount < node.length/node.sectorSize

theorem OnFlash.addr_dvd {node : PartitionInfo} (h : OnFlash node) : 4096 ∣ node.addr := by
  rw [PartitionInfo.addr, h.base]
  exact (Nat.dvd_add_right (dvd_zero _)).mpr h.start

section Driver

variable {cfg : FlashCfg} {ops : ℕ} {node : PartitionInfo} {s : Device}

variable {addr count len off : ℕ} {data : List UInt8}

theorem partFlashRefuses_all :
    partFlashRefuses .allFlash0 addr len = false ↔
      len ≤ flashSize ∧ (addr+len) % 2^32 ≤ flashSize := by
  show (decide (addr < 0) || (decide (0x1000000 < len) ||
    decide (0x1000000 < (addr+len) % 2^32))) = false ↔ _
  simp only [Bool.or_eq_false_iff, decide_eq_false_iff_not, not_lt, Nat.zero_le, true_and]
  rfl

theorem partFlashWrite_all (hpos : 0 < data.length)
    (hok : partFlashRefuses .allFlash0 addr data.length = false) :
    partFlashWrite cfg ops .allFlash0 s addr data =
      (0, csiSpiflashProgram cfg ops s addr data) := by
  rw [partFlashWrite, if_neg hpos.ne', hok]
  rfl

theorem partFlashErase_all (hpos : 0 < len) (hok : partFlashRefuses .allFlash0 addr len = false) :
    partFlashErase cfg ops .allFlash0 s addr len = (0, csiSpiflashErase cfg ops s addr len) := by
  rw [partFlashErase, if_neg hpos.ne', hok]
  rfl

/-- A write that succeeds lies in the partition and programs it. -/
theorem partitionWrite_driver (hpos : 0 < data.length) (hoff : off < 2^31)
    (hret : 0 ≤ (partitionWrite (defaultFlashOps cfg ops .allFlash0) node s off data).1) :
    off+data.length ≤ node.length ∧ ∀ n,
      partitionWrite (defaultFlashOps cfg n .allFlash0) node s off data =
        (0, csiSpiflashProgram cfg n s (node.addr+off) data) := by
  have hok : partFlashRefuses .allFlash0 (node.deviceAddr off) data.length = false := by
    by_contra hrefuses
    rw [Bool.not_eq_false] at hrefuses
    simp only [partitionWrite, if_neg hpos.ne', defaultFlashOps, partFlashWrite,
      Int.toNat_natCast] at hret
    split_ifs at hret <;> exact not_einval_nonneg hret
  have hsize : data.length ≤ 0x1000000 := (partFlashRefuses_all.mp hok).1
  have hin := partitionWrite_success hpos (by omega) hret
  refine ⟨hin, fun n => ?_⟩
  rw [deviceAddr_inside (by omega)] at hok
  rw [partitionWrite_inside hpos hin]
  exact partFlashWrite_all hpos hok

/-- An erase that succeeds counts sectors of the partition and erases from its offset on. -/
theorem partitionErase_driver (hnode : OnFlash node) (hpos : 0 < count) (hoff : off < 2^31)
    (hcount : count < 2^32)
    (hret : 0 ≤ (partitionErase (defaultFlashOps cfg ops .allFlash0) node s off count).1) :
    off/4096+count ≤ node.length/4096 ∧ node.addr+off+count*4096 ≤ flashSize ∧ ∀ n,
      partitionErase (defaultFlashOps cfg n .allFlash0) node s off count =
        (0, csiSpiflashErase cfg n s (node.addr+off) (count*4096)) := by
  have hsector : node.sectorSize = 4096 := hnode.sector
  have hlt := node.addr_lt
  obtain ⟨k, hk⟩ : 4096 ∣ node.addr := hnode.addr_dvd
  have hsum : (off/4096+count) % 2^32 ≤ node.length/4096 := by
    by_contra hout
    rw [partitionErase, if_neg hpos.ne', Int.toNat_natCast, hsector, if_neg hout] at hret
    exact not_einval_nonneg hret
  have hlen : (count*4096) % 2^32 ≠ 0 := by omega
  have hok : partFlashRefuses .allFlash0 (node.deviceAddr off) ((count*4096) % 2^32) = false := by
    by_contra hrefuses
    rw [partitionErase, if_neg hpos.ne', Int.toNat_natCast, hsector, if_pos hsum] at hret
    simp only [defaultFlashOps, partFlashErase, if_neg hlen, hrefuses] at hret
    exact not_einval_nonneg hret
  obtain ⟨hsize, hend⟩ := partFlashRefuses_all.mp hok
  have hin : off/4096+count ≤ node.length/4096 := by
    have hsize' : (count*4096) % 2^32 ≤ 0x1000000 := hsize
    omega
  have hlen' : (count*4096) % 2^32 = count*4096 := Nat.mod_eq_of_lt (by omega)
  rw [deviceAddr_inside (by omega), hlen'] at hok hend
  have haddr : node.addr+node.length < 2^32 := hlt
  rw [Nat.mod_eq_of_lt (by omega)] at hend
  refine ⟨hin, hend, fun n => ?_⟩
  rw [partitionErase_inside hpos (by rw [hsector]; exact hin), hsector, hlen']
  exact partFlashErase_all (by omega) hok

theorem blFlashErase_eq (hlen : 2 ≤ len) (hend : addr+len < 2^32) :
    blFlashErase cfg ops addr len = sflashErase cfg ops addr (addr+len-2) := by
  have hmod : (addr+(len+2^32-1) % 2^32+2^32-1) % 2^32 = addr+len-2 := by omega
  rw [blFlashErase, hmod]

/-- Both drivers return the same and leave the same bytes. -/
def Alike {α : Type} (r : α × Device) (plain : α × Nor) : Prop :=
  r.1 = plain.1 ∧ r.2.spi.mem = plain.2.mem

variable {t : Nor}

/-- A write inside the partition does what the plain driver does. -/
theorem partitionWrite_refines (hpos : 0 < data.length) (hin : off+data.length ≤ node.length)
    (hflash : node.addr+node.length ≤ flashSize) (hops : data.length ≤ ops)
    (hmem : s.spi.mem = t.mem) :
    Alike (partitionWrite (defaultFlashOps cfg ops .allFlash0) node s off data)
      (partitionWrite norOps node t off data) := by
  have hflash' : node.addr+node.length ≤ 0x1000000 := hflash
  have hok : partFlashRefuses .allFlash0 (node.addr+off) data.length = false :=
    partFlashRefuses_all.mpr ⟨by rw [flashSize]; omega, by rw [flashSize]; omega⟩
  have hwrite : partitionWrite (defaultFlashOps cfg ops .allFlash0) node s off data =
      (0, csiSpiflashProgram cfg ops s (node.addr+off) data) := by
    rw [partitionWrite_inside hpos hin]
    exact partFlashWrite_all hpos hok
  rw [hwrite, partitionWrite_inside hpos hin]
  exact ⟨rfl, (sflashProgram_apply (by omega) hops s.spi.mem).trans (by rw [hmem]; rfl)⟩

/-- An erase of whole sectors of the partition does what the plain driver does. -/
theorem partitionErase_refines (hnode : OnFlash node) {k : ℕ} (hpos : 0 < count)
    (hin : (k+count)*4096 ≤ node.length) (hflash : node.addr+node.length ≤ flashSize)
    (hops : count*4096 ≤ ops) (hmem : s.spi.mem = t.mem) :
    Alike (partitionErase (defaultFlashOps cfg ops .allFlash0) node s (k*4096 : ℕ) count)
      (partitionErase norOps node t (k*4096 : ℕ) count) := by
  have hsector : node.sectorSize = 4096 := hnode.sector
  have hflash' : node.addr+node.length ≤ 0x1000000 := hflash
  obtain ⟨j, hj⟩ : 4096 ∣ node.addr := hnode.addr_dvd
  have hlen : (count*4096) % 2^32 = count*4096 := Nat.mod_eq_of_lt (by omega)
  have hcheck : k*4096/node.sectorSize+count ≤ node.length/node.sectorSize := by
    rw [hsector]
    omega
  have hend : node.addr+k*4096+count*4096 ≤ 0x1000000 := by omega
  have hok : partFlashRefuses .allFlash0 (node.addr+k*4096) (count*4096) = false :=
    partFlashRefuses_all.mpr ⟨(Nat.le_add_left _ _).trans hend, (Nat.mod_le _ _).trans hend⟩
  have herase : partitionErase (defaultFlashOps cfg ops .allFlash0) node s (k*4096 : ℕ) count =
      (0, csiSpiflashErase cfg ops s (node.addr+k*4096) (count*4096)) := by
    rw [partitionErase_inside hpos hcheck, hsector, hlen]
    exact partFlashErase_all (by omega) hok
  rw [herase, partitionErase_inside hpos hcheck, hsector, hlen]
  refine ⟨rfl, ?_⟩
  show applyAll s.spi.mem (blFlashErase cfg ops (node.addr+k*4096) (count*4096)) =
    NorFlash.erase t.mem (node.addr+k*4096) (count*4096)
  have hfirst : (node.addr+k*4096)/4096 = j+k := by omega
  have hlast : (node.addr+k*4096+count*4096-2)/4096 = j+k+count-1 := by omega
  have hstart : (j+k)*4096 = node.addr+k*4096 := by rw [hj]; ring
  have hsectors : j+k+count-1+1-(j+k) = count := by omega
  rw [blFlashErase_eq (by omega) (by omega), sflashErase_apply (by omega) (by omega) (by omega),
    hfirst, hlast, hstart, hsectors, hmem]

/-- A write of the partition, or an erase of whole sectors of it, for which the flash takes enough
commands. -/
def Call.Inside (node : PartitionInfo) (ops : ℕ) : Call → Prop
  | .write off data => off+data.length ≤ node.length ∧ data.length ≤ ops
  | .erase off count => ∃ k, off = k*4096 ∧ (k+count)*4096 ≤ node.length ∧ count*4096 ≤ ops

theorem Call.Inside.alike (cfg : FlashCfg) {c : Call} (h : c.Inside node ops)
    (hnode : OnFlash node) (hflash : node.addr+node.length ≤ flashSize) (hmem : s.spi.mem = t.mem) :
    Alike (c.run (defaultFlashOps cfg ops .allFlash0) node s) (c.run norOps node t) := by
  cases c with
  | write off data =>
    rcases Nat.eq_zero_or_pos data.length with hnil | hpos
    · rw [Call.run, Call.run, partitionWrite, partitionWrite, if_pos hnil, if_pos hnil]
      exact ⟨rfl, hmem⟩
    · exact partitionWrite_refines hpos h.1 hflash h.2 hmem
  | erase off count =>
    obtain ⟨k, rfl, hin, hops⟩ := h
    rcases Nat.eq_zero_or_pos count with rfl | hpos
    · exact ⟨rfl, hmem⟩
    · exact partitionErase_refines hnode hpos hin hflash hops hmem

/-- The results of calls, and the flash behind them. -/
def runCalls {σ : Type} (f : FlashOps σ) (node : PartitionInfo) : σ → List Call → List ℤ × σ
  | s, [] => ([], s)
  | s, c :: calls =>
    let r := runCalls f node (c.run f node s).2 calls
    ((c.run f node s).1 :: r.1, r.2)

/-- Any calls inside a partition give the results and leave the bytes of the plain driver. -/
theorem calls_refine_plain (hnode : OnFlash node) (hflash : node.addr+node.length ≤ flashSize)
    {calls : List Call} (hin : ∀ c ∈ calls, c.Inside node ops) (hmem : s.spi.mem = t.mem) :
    Alike (runCalls (defaultFlashOps cfg ops .allFlash0) node s calls)
      (runCalls norOps node t calls) := by
  induction calls generalizing s t with
  | nil => exact ⟨rfl, hmem⟩
  | cons c calls ih =>
    obtain ⟨hret, hnext⟩ := (hin c mem_cons_self).alike cfg hnode hflash hmem
    obtain ⟨hrets, hend⟩ := ih (fun d hd => hin d (mem_cons_of_mem c hd)) hnext
    exact ⟨congrArg₂ cons hret hrets, hend⟩

end Driver

section Range

variable {cfg : FlashCfg} {node : PartitionInfo} {mem emem : Mem}

variable {addr n off ops : ℕ} {data : List UInt8}

theorem issued_program :
    (csiSpiflashProgram cfg ops (Device.start mem emem) addr data).issued =
      sflashProgram cfg ops addr data := append_nil _

theorem issued_erase {len : ℕ} :
    (csiSpiflashErase cfg ops (Device.start mem emem) addr len).issued =
      blFlashErase cfg ops addr len := append_nil _

/-- A write that succeeds keeps to the partition. -/
theorem partitionWrite_staysIn (hoff : off < 2^31)
    (hret : 0 ≤ (partitionWrite (defaultFlashOps cfg n .allFlash0) node
      (Device.start mem emem) off data).1) (ops : ℕ) :
    ∀ op ∈ (partitionWrite (defaultFlashOps cfg ops .allFlash0) node
      (Device.start mem emem) off data).2.issued, StaysIn node op := by
  intro op hop
  rcases Nat.eq_zero_or_pos data.length with hnil | hpos
  · rw [partitionWrite, if_pos hnil] at hop
    exact absurd hop not_mem_nil
  · obtain ⟨hin, hstate⟩ := partitionWrite_driver hpos hoff hret
    have hlt : node.addr+node.length < 2^32 := node.addr_lt
    rw [hstate, issued_program] at hop
    obtain ⟨a, d, rfl, ha, hd⟩ := sflashProgram_within (by omega) hop
    exact ⟨by omega, by omega⟩

/-- The sectors of an erase that succeeds: one more than were counted if it starts behind
the first two bytes of a sector. -/
theorem partitionErase_staysIn_iff (hnode : OnFlash node) {count : ℕ} (hpos : 0 < count)
    (hoff : off < 2^31) (hcount : count < 2^32)
    (hret : 0 ≤ (partitionErase (defaultFlashOps cfg n .allFlash0) node
      (Device.start mem emem) off count).1) :
    (∀ ops, ∀ op ∈ (partitionErase (defaultFlashOps cfg ops .allFlash0) node
      (Device.start mem emem) off count).2.issued, StaysIn node op) ↔
      off % 4096 ≤ 1 ∨ off/4096+count < node.length/4096 := by
  obtain ⟨hin, hflash, hstate⟩ := partitionErase_driver hnode hpos hoff hcount hret
  have hflash' : node.addr+off+count*4096 ≤ 0x1000000 := hflash
  obtain ⟨k, hk⟩ : 4096 ∣ node.addr := hnode.addr_dvd
  simp only [hstate, issued_erase, blFlashErase_eq (by omega)
    (show node.addr+off+count*4096 < 2^32 by omega)]
  constructor
  · intro hall
    by_contra hnot
    obtain ⟨j, m, hmem, hj, hjm⟩ := sflashErase_covers (k := k+off/4096+count)
      (show node.addr+off+count*4096-2+65536 < 2^32 by omega) (by omega)
      (node.addr+off+count*4096) (node.addr+off) (by omega) (by omega) (by omega)
    have hstays : node.addr ≤ j*4096 ∧ j*4096+m*4096 ≤ node.addr+node.length := hall _ _ hmem
    omega
  · intro hfits ops op hop
    obtain ⟨j, m, rfl, hj, hjm⟩ := sflashErase_within (by omega) hop
    refine ⟨?_, ?_⟩ <;> omega

end Range

/-- A call that succeeds touches only its partition, whatever number of commands the flash
takes, exactly if it is a write, or an erase that starts with a sector or leaves out the
last sector. -/
theorem call_staysIn_iff (cfg : FlashCfg) {node : PartitionInfo} (hnode : OnFlash node)
    (mem emem : Mem) (call : Call) (htyped : call.Typed) {n : ℕ}
    (hret : 0 ≤ (call.run (defaultFlashOps cfg n .allFlash0) node (Device.start mem emem)).1) :
    (∀ ops, ∀ op ∈ (call.run (defaultFlashOps cfg ops .allFlash0) node
      (Device.start mem emem)).2.issued, StaysIn node op) ↔ call.Fits node := by
  cases call with
  | write off data =>
    exact iff_of_true (fun ops => partitionWrite_staysIn htyped.1 hret ops) trivial
  | erase off count =>
    have hsector : node.sectorSize = 4096 := hnode.sector
    rw [Call.Fits, hsector]
    rcases Nat.eq_zero_or_pos count with rfl | hpos
    · refine iff_of_true (fun ops op hop => ?_) (Or.inl rfl)
      exact absurd hop not_mem_nil
    · rw [or_iff_right hpos.ne']
      exact partitionErase_staysIn_iff hnode hpos htyped.1 htyped.2 hret

section Samples

theorem sampleCfg_sector : 4*1024 = 4096 := rfl

theorem sampleCfg_page : 0 < 256 := by decide

/-- A flash with all erase commands. -/
def sampleCfg : FlashCfg := ⟨true, true, 4, 256, sampleCfg_sector, sampleCfg_page⟩

/-- A partition of two sectors. -/
def twoSectors : PartitionInfo := ⟨[], 0, 8192, 8192, 4096, by decide, by decide, by decide⟩

theorem onFlash_twoSectors : OnFlash twoSectors := ⟨rfl, rfl, ⟨2, rfl⟩, ⟨2, rfl⟩⟩

theorem call_staysIn_sample :
    0 ≤ ((Call.erase 2048 1).run (defaultFlashOps sampleCfg 2 .allFlash0) twoSectors
      (Device.start (fun _ => 0) (fun _ => 0))).1 ∧
    ∀ ops, ∀ op ∈ ((Call.erase 2048 1).run (defaultFlashOps sampleCfg ops .allFlash0) twoSectors
      (Device.start (fun _ => 0) (fun _ => 0))).2.issued, StaysIn twoSectors op := by
  have hret : 0 ≤ ((Call.erase 2048 1).run (defaultFlashOps sampleCfg 2 .allFlash0) twoSectors
      (Device.start (fun _ => 0) (fun _ => 0))).1 := by
    decide
  have hstays := call_staysIn_iff sampleCfg onFlash_twoSectors (fun _ => 0) (fun _ => 0)
    (.erase 2048 1) ⟨by decide, by decide⟩ hret
  exact ⟨hret, hstays.mpr (Or.inr (Or.inr (by decide)))⟩

theorem calls_refine_sample :
    let calls := [Call.erase 0 2, .write 4094 [1, 2, 3], .write 4096 [7]]
    let s := Device.start (fun _ => 0) (fun _ => 0)
    Alike (runCalls (defaultFlashOps sampleCfg 8192 .allFlash0) twoSectors s calls)
      (runCalls norOps twoSectors s.spi calls) :=
  calls_refine_plain onFlash_twoSectors (by decide) (by simp [Call.Inside, twoSectors]) rfl

/-- Erasing one sector from the middle of the second sector of a partition succeeds and
erases the sector behind the partition. -/
theorem call_leaves :
    (Call.erase 6144 1).Typed ∧
    ((Call.erase 6144 1).run (defaultFlashOps sampleCfg 2 .allFlash0) twoSectors
      (Device.start (fun _ => 0) (fun _ => 0))).1 = 0 ∧
    ((Call.erase 6144 1).run (defaultFlashOps sampleCfg 2 .allFlash0) twoSectors
      (Device.start (fun _ => 0) (fun _ => 0))).2.issued =
        [.erase 12288 4096, .erase 16384 4096] ∧
    twoSectors.addr+twoSectors.length = 16384 ∧
    ¬StaysIn twoSectors (.erase 16384 4096) := by
  refine ⟨⟨by decide, by decide⟩, by decide +kernel, by decide +kernel, by decide, by decide⟩

end Samples

end PineVoice.SpiFlash
