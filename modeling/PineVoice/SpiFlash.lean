import PineVoice.Partition

/-!
# The flash driver under the partitions

A write or an erase of a partition passes `part_flash_*`, which checks it against the flash, and
`hal_flash_*`, and reaches the serial flash as page programs and erases. The erase loop rounds its
start down to a sector and runs to the sector of its last address, so it may run into the sector
behind the partition.
-/

namespace PineVoice.SpiFlash

open NorFlash Partitions List

/-- `SPI_Flash_Cfg_Type` with the fields the loops use. -/
structure FlashCfg where
  /-- Whether `blk64EraseCmd` is valid. -/
  blk64EraseCmd : Bool
  /-- Whether `blk32EraseCmd` is valid. -/
  blk32EraseCmd : Bool
  /-- Size of a sector in units of 1024 bytes. -/
  sectorSize : ℕ
  /-- Size of a page. -/
  pageSize : ℕ
  /-- The sectors have the size that the driver reports. -/
  sector_eq : sectorSize*1024 = 4096
  /-- A page is not empty. -/
  page_pos : 0 < pageSize

section Sflash

variable (cfg : FlashCfg)

/-- The loop of `SFlash_Erase`, for a flash that takes some number of commands before one
fails. -/
def sflashErase : ℕ → ℕ → ℕ → List Op
  | 0, _, _ => []
  | ops+1, startaddr, endaddr =>
    if startaddr ≤ endaddr then
      let len := endaddr-startaddr+1
      if cfg.blk64EraseCmd ∧ startaddr % 65536 = 0 ∧ 65536-cfg.sectorSize*1024 < len then
        .erase startaddr 65536 :: sflashErase ops ((startaddr+65536) % 2^32) endaddr
      else if cfg.blk32EraseCmd ∧ startaddr % 32768 = 0 ∧ 32768-cfg.sectorSize*1024 < len then
        .erase startaddr 32768 :: sflashErase ops ((startaddr+32768) % 2^32) endaddr
      else
        let sector := startaddr/(cfg.sectorSize*1024)*(cfg.sectorSize*1024)
        .erase sector (cfg.sectorSize*1024) ::
          sflashErase ops ((sector+cfg.sectorSize*1024) % 2^32) endaddr
    else []

/-- The loop of `SFlash_Program`. -/
def sflashProgram : ℕ → ℕ → List UInt8 → List Op
  | 0, _, _ => []
  | ops+1, addr, data =>
    if data.length = 0 then []
    else
      let curLen := min (cfg.pageSize-addr % cfg.pageSize) data.length
      .write addr (data.take curLen) ::
        sflashProgram ops ((addr+curLen) % 2^32) (data.drop curLen)

/-- `bl_flash_erase`: it takes one byte off the length, and `XIP_SFlash_Erase_Need_Lock`
passes the last address on. -/
def blFlashErase (ops startaddr len : ℕ) : List Op :=
  let len' := (len+2^32-1) % 2^32
  sflashErase cfg ops startaddr ((startaddr+len'+2^32-1) % 2^32)

/-- `bl_flash_write`. -/
def blFlashWrite (ops startaddr : ℕ) (data : List UInt8) : List Op :=
  sflashProgram cfg ops startaddr data

end Sflash

/-- `hal_flash_t`. -/
inductive Owner where
  | embedded
  | spi
  | qspi
  | none
deriving DecidableEq

/-- `hal_logic_partition_t`. -/
structure LogicPartition where
  /-- `partition_owner`. -/
  owner : Owner
  /-- `partition_start_addr`. -/
  startAddr : ℕ
  /-- `partition_length`. -/
  length : ℕ

/-- `hal_partition_t`: the whole flash, or an entry of `hal_partitions`. -/
inductive HalPartition where
  | allFlash0
  | logic (p : LogicPartition)

/-- `xip_addr` of `csi_spiflash_get_flash_info`. -/
def xipAddr : ℕ := 0

/-- `flash_size` of `csi_spiflash_get_flash_info`. -/
def flashSize : ℕ := 0x1000000

/-- `sector_size` of `csi_spiflash_get_flash_info`. -/
def flashSectorSize : ℕ := 4096

/-- The serial flash and the embedded flash. -/
structure Device where
  /-- The serial flash. -/
  spi : Nor
  /-- The embedded flash. -/
  eflash : Nor

/-- Carry out operations on a flash. -/
def issue (s : Nor) (ops : List Op) : Nor := ⟨applyAll s.mem ops, s.trace ++ ops⟩

section Hal

variable (cfg : FlashCfg) (ops : ℕ) (inPartition : HalPartition) (s : Device)

/-- `hal_flash_info_get`. -/
def halFlashInfoGet : LogicPartition :=
  match inPartition with
  | .allFlash0 => ⟨.spi, xipAddr, flashSize⟩
  | .logic p => p

/-- The check of the access functions for an entry of `hal_partitions`. -/
def outOfRange (p : LogicPartition) (off size : ℕ) : Bool :=
  p.length < (off+1) % 2^32 || (p.length < size || p.length < (size+off) % 2^32)

/-- The address of an offset of an entry of `hal_partitions`. -/
def LogicPartition.addr (p : LogicPartition) (off : ℕ) : ℕ :=
  (p.startAddr+off+2^32-xipAddr) % 2^32

/-- `csi_spiflash_erase`: the status of the flash is dropped. -/
def csiSpiflashErase (off size : ℕ) : Device :=
  { s with spi := issue s.spi (blFlashErase cfg ops off size) }

/-- `csi_spiflash_program`. -/
def csiSpiflashProgram (off : ℕ) (data : List UInt8) : Device :=
  { s with spi := issue s.spi (blFlashWrite cfg ops off data) }

/-- `hal_flash_erase`. -/
def halFlashErase (off size : ℕ) : ℤ × Device :=
  match inPartition with
  | .allFlash0 => (0, csiSpiflashErase cfg ops s off size)
  | .logic p =>
    if outOfRange p off size then (-1, s)
    else
      match p.owner with
      | .embedded => (0, { s with eflash := issue s.eflash [.erase (p.addr off) size] })
      | .spi | .qspi => (0, csiSpiflashErase cfg ops s (p.addr off) size)
      | .none => (0, s)

/-- `hal_flash_write`. -/
def halFlashWrite (off : ℕ) (data : List UInt8) : ℤ × Device :=
  match inPartition with
  | .allFlash0 => (0, csiSpiflashProgram cfg ops s off data)
  | .logic p =>
    if outOfRange p off data.length then (-1, s)
    else
      match p.owner with
      | .embedded => (0, { s with eflash := issue s.eflash [.write (p.addr off) data] })
      | .spi | .qspi => (0, csiSpiflashProgram cfg ops s (p.addr off) data)
      | .none => (0, s)

/-- `hal_flash_read`. -/
def halFlashRead (off size : ℕ) : ℤ × List UInt8 :=
  match inPartition with
  | .allFlash0 => (0, readBytes s.spi.mem off size)
  | .logic p =>
    if outOfRange p off size then (-1, [])
    else
      match p.owner with
      | .embedded => (0, readBytes s.eflash.mem (p.addr off) size)
      | .spi | .qspi => (0, readBytes s.spi.mem (p.addr off) size)
      | .none => (0, [])

/-- The check of `part_flash_read`, `part_flash_write` and `part_flash_erase`. -/
def partFlashRefuses (addr len : ℕ) : Bool :=
  let p := halFlashInfoGet inPartition
  addr < p.startAddr || (p.length < len ||
    (p.startAddr+p.length) % 2^32 < (addr+len) % 2^32)

/-- The offset that the three functions pass on. -/
def partFlashOffset (addr : ℕ) : ℕ := addr-(halFlashInfoGet inPartition).startAddr

/-- `part_flash_read`. -/
def partFlashRead (addr len : ℕ) : ℤ × List UInt8 :=
  if len = 0 then (0, [])
  else if partFlashRefuses inPartition addr len then (einval, [])
  else halFlashRead inPartition s (partFlashOffset inPartition addr) len

/-- `part_flash_write`. -/
def partFlashWrite (addr : ℕ) (data : List UInt8) : ℤ × Device :=
  if data.length = 0 then (0, s)
  else if partFlashRefuses inPartition addr data.length then (einval, s)
  else halFlashWrite cfg ops inPartition s (partFlashOffset inPartition addr) data

/-- `part_flash_erase`. -/
def partFlashErase (addr len : ℕ) : ℤ × Device :=
  if len = 0 then (0, s)
  else if partFlashRefuses inPartition addr len then (einval, s)
  else halFlashErase cfg ops inPartition s (partFlashOffset inPartition addr) len

end Hal

/-- `default_flash_ops` for a handle. -/
def defaultFlashOps (cfg : FlashCfg) (ops : ℕ) (handle : HalPartition) : FlashOps Device where
  read s addr len := partFlashRead handle s addr len
  write s addr data := partFlashWrite cfg ops handle s addr data
  erase s addr len := partFlashErase cfg ops handle s addr len

section Loops

variable {cfg : FlashCfg}

variable {endaddr ops startaddr : ℕ} {op : Op}

/-- One round of the erase loop: it erases some sectors from that of its start on and goes
on behind them. -/
theorem sflashErase_step (cfg : FlashCfg) (ops : ℕ) (hle : startaddr ≤ endaddr)
    (hend : endaddr+65536 < 2^32) :
    ∃ n, 0 < n ∧ startaddr/4096+n ≤ endaddr/4096+1 ∧
      sflashErase cfg (ops+1) startaddr endaddr = .erase (startaddr/4096*4096) (n*4096) ::
          sflashErase cfg ops ((startaddr/4096+n)*4096) endaddr := by
  have hsector := cfg.sector_eq
  simp only [sflashErase, hsector]
  split_ifs with h64 h32
  · obtain ⟨-, hmod, hlen⟩ := h64
    have hstart : startaddr/4096*4096 = startaddr :=
      Nat.div_mul_cancel (Nat.dvd_trans ⟨16, rfl⟩ (Nat.dvd_of_mod_eq_zero hmod))
    refine ⟨16, by omega, by omega, ?_⟩
    rw [add_mul, hstart, Nat.mod_eq_of_lt (by omega)]
  · obtain ⟨-, hmod, hlen⟩ := h32
    have hstart : startaddr/4096*4096 = startaddr :=
      Nat.div_mul_cancel (Nat.dvd_trans ⟨8, rfl⟩ (Nat.dvd_of_mod_eq_zero hmod))
    refine ⟨8, by omega, by omega, ?_⟩
    rw [add_mul, hstart, Nat.mod_eq_of_lt (by omega)]
  · refine ⟨1, by omega, by omega, ?_⟩
    rw [add_mul, Nat.mod_eq_of_lt (by omega)]

theorem sflashErase_done (h : endaddr < startaddr) :
    sflashErase cfg ops startaddr endaddr = [] := by
  cases ops with
  | zero => rfl
  | succ ops => rw [sflashErase, if_neg (Nat.not_le_of_lt h)]

/-- The loop keeps to the sectors from that of its start to that of its end. -/
theorem sflashErase_within (hend : endaddr+65536 < 2^32) :
    ∀ {ops startaddr : ℕ}, op ∈ sflashErase cfg ops startaddr endaddr →
      ∃ k n, op = .erase (k*4096) (n*4096) ∧ startaddr/4096 ≤ k ∧ k+n ≤ endaddr/4096+1
  | 0, _, h => absurd h List.not_mem_nil
  | ops+1, startaddr, h => by
    by_cases hle : startaddr ≤ endaddr
    · obtain ⟨n, -, hin, heq⟩ := sflashErase_step cfg ops hle hend
      rw [heq] at h
      rcases List.mem_cons.mp h with rfl | hrest
      · exact ⟨_, n, rfl, le_rfl, hin⟩
      · obtain ⟨k, n', hop, hge, hin'⟩ := sflashErase_within hend hrest
        rw [Nat.mul_div_cancel _ (by decide)] at hge
        exact ⟨k, n', hop, by omega, hin'⟩
    · rw [sflashErase_done (by omega)] at h
      exact absurd h not_mem_nil

/-- With enough commands the loop erases all of these sectors. -/
theorem sflashErase_covers {k : ℕ} (hend : endaddr+65536 < 2^32) (hk : k ≤ endaddr/4096) :
    ∀ (ops startaddr : ℕ), endaddr < startaddr+ops → startaddr ≤ endaddr →
      startaddr/4096 ≤ k →
      ∃ j n, .erase (j*4096) (n*4096) ∈ sflashErase cfg ops startaddr endaddr ∧ j ≤ k ∧ k < j+n
  | 0, _, hops, hle, _ => absurd hops (by omega)
  | ops+1, startaddr, hops, hle, hge => by
    obtain ⟨n, hpos, hin, heq⟩ := sflashErase_step cfg ops hle hend
    rw [heq]
    by_cases hlt : k < startaddr/4096+n
    · exact ⟨_, n, mem_cons_self, hge, hlt⟩
    · have hnext : startaddr < (startaddr/4096+n)*4096 := by omega
      obtain ⟨j, n', hmem, hj, hkj⟩ := sflashErase_covers hend hk ops
        ((startaddr/4096+n)*4096) (by omega) (by omega)
        (by rw [Nat.mul_div_cancel _ (by decide)]; omega)
      exact ⟨j, n', mem_cons_of_mem _ hmem, hj, hkj⟩

/-- The effect of the loop: all of these sectors are blank. -/
theorem sflashErase_apply (hend : endaddr+65536 < 2^32) (hle : startaddr ≤ endaddr)
    (hops : endaddr < startaddr+ops) (m : Mem) :
    applyAll m (sflashErase cfg ops startaddr endaddr) = NorFlash.erase m (startaddr/4096*4096)
      ((endaddr/4096+1-startaddr/4096)*4096) := by
  funext i
  have herases : ∀ op ∈ sflashErase cfg ops startaddr endaddr, ∃ a len, op = .erase a len := by
    intro op hop
    obtain ⟨k, n, heq, -⟩ := sflashErase_within hend hop
    exact ⟨_, _, heq⟩
  obtain ⟨hin, hout⟩ := applyAll_erases herases m i
  by_cases hi : startaddr/4096 ≤ i/4096 ∧ i/4096 ≤ endaddr/4096
  · obtain ⟨j, n, hmem, hj, hij⟩ := sflashErase_covers hend hi.2 ops startaddr hops hle hi.1
    rw [hin ⟨_, _, hmem, by omega, by omega⟩, erase_inside (by omega) (by omega)]
  · rw [erase_outside (by omega)]
    refine hout ?_
    rintro ⟨a, len, hmem, ha, hia⟩
    obtain ⟨k, n, heq, hk, hn⟩ := sflashErase_within hend hmem
    cases heq
    omega

/-- One round of the program loop. -/
theorem sflashProgram_step (cfg : FlashCfg) (ops : ℕ) {addr : ℕ} {data : List UInt8}
    (hpos : 0 < data.length) (hlt : addr+data.length < 2^32) :
    ∃ n, 0 < n ∧ n ≤ data.length ∧ sflashProgram cfg (ops+1) addr data =
      .write addr (data.take n) :: sflashProgram cfg ops (addr+n) (data.drop n) := by
  have hpage := Nat.mod_lt addr cfg.page_pos
  refine ⟨min (cfg.pageSize-addr % cfg.pageSize) data.length, by omega, by omega, ?_⟩
  have hnext : addr+min (cfg.pageSize-addr % cfg.pageSize) data.length < 2^32 := by omega
  simp only [sflashProgram, if_neg hpos.ne', Nat.mod_eq_of_lt hnext]

theorem sflashProgram_nil (ops addr : ℕ) : sflashProgram cfg ops addr [] = [] := by
  cases ops <;> rfl

/-- The program loop keeps to the range of its data. -/
theorem sflashProgram_within :
    ∀ {ops addr : ℕ} {data : List UInt8}, addr+data.length < 2^32 →
      op ∈ sflashProgram cfg ops addr data →
      ∃ a d, op = .write a d ∧ addr ≤ a ∧ a+d.length ≤ addr+data.length
  | 0, _, _, _, h => absurd h List.not_mem_nil
  | ops+1, addr, data, hlt, h => by
    rcases Nat.eq_zero_or_pos data.length with hnil | hpos
    · rw [List.length_eq_zero_iff.mp hnil, sflashProgram_nil] at h
      exact absurd h List.not_mem_nil
    · obtain ⟨n, -, hn, heq⟩ := sflashProgram_step cfg ops hpos hlt
      rw [heq] at h
      rcases List.mem_cons.mp h with rfl | hrest
      · refine ⟨addr, _, rfl, le_rfl, ?_⟩
        rw [length_take]
        omega
      · obtain ⟨a, d, hop, ha, hd⟩ := sflashProgram_within
          (by rw [length_drop]; omega) hrest
        rw [length_drop] at hd
        exact ⟨a, d, hop, by omega, by omega⟩

/-- With enough commands the pages make up the data. -/
theorem sflashProgram_apply :
    ∀ {ops addr : ℕ} {data : List UInt8}, addr+data.length < 2^32 → data.length ≤ ops →
      ∀ m : Mem, applyAll m (sflashProgram cfg ops addr data) = program m addr data
  | 0, addr, data, _, hops, m => by
    rw [List.length_eq_zero_iff.mp (Nat.le_zero.mp hops), program_nil]
    rfl
  | ops+1, addr, data, hlt, hops, m => by
    rcases Nat.eq_zero_or_pos data.length with hnil | hpos
    · rw [List.length_eq_zero_iff.mp hnil, sflashProgram_nil, program_nil]
      rfl
    · obtain ⟨n, hn, hle, heq⟩ := sflashProgram_step cfg ops hpos hlt
      have htake : (data.take n).length = n := length_take_of_le hle
      rw [heq]
      show applyAll (program m addr (data.take n))
        (sflashProgram cfg ops (addr+n) (data.drop n)) = _
      rw [sflashProgram_apply (by rw [length_drop]; omega)
        (by rw [length_drop]; omega)]
      have happend := program_append m addr (data.take n) (data.drop n)
      rwa [htake, take_append_drop] at happend

end Loops

end PineVoice.SpiFlash
