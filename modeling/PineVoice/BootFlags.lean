import PineVoice.OtaAb
import PineVoice.SlotMachine

/-!
# The flag sectors

Each slot has a sector of its own, seen here as a memory that starts at zero. A write or an erase
changes one sector, so every function is described by what it does to the words of one slot.
-/

namespace PineVoice.Bootab

open Function NorFlash Partitions List

/-- The sector of a slot. -/
def sector (env : EnvPartition) (m : Mem) (ab : Slot) : Mem :=
  window m (env.addr+getEnvabOffset env ab)

/-- The words in a sector. -/
def words (m : Mem) : Words := ⟨le32 m bcSize, le32 m (bcSize+4), le32 m (bcSize+72)⟩

/-- The words of both slots. -/
def view (env : EnvPartition) (m : Mem) (ab : Slot) : Words := words (sector env m ab)

section Bytes

variable {m : Mem} {i n off : ℕ} {f : Flag}

/-- What was read is in the buffer. -/
theorem bufferMem_readBytes (h : i < n) :
    bufferMem (readBytes m off n) i = m (off+i) :=
  ((holds_readBytes m off n).getD (by rwa [readBytes_length]) 0).symm

/-- So are its words. -/
theorem le32_bufferMem (h : i+4 ≤ n) : le32 (bufferMem (readBytes m off n)) i = le32 m (off+i) := by
  simp [le32, Nat.add_assoc, bufferMem_readBytes (show i < n by omega),
    bufferMem_readBytes (show i+1 < n by omega), bufferMem_readBytes (show i+2 < n by omega),
    bufferMem_readBytes (show i+3 < n by omega)]

@[simp] theorem leBytes_length (v : ℕ) : (leBytes v).length = 4 := rfl

/-- A stored word reads back. -/
theorem le32_leBytes {v : ℕ} (h : Holds m off (leBytes v)) (hv : v < 2^32) : le32 m off = v := by
  obtain ⟨h0, h1, h2, h3, -⟩ := h
  simp only [le32, h0, h1, h2, h3, UInt8.toNat_ofNat']
  omega

/-- The words depend on the flag bytes only. -/
theorem words_congr {m' : Mem} (h : Agree m m' bcSize (bcSize+flagSize)) : words m = words m' := by
  have hat : ∀ i, i+4 ≤ flagSize → le32 m (bcSize+i) = le32 m' (bcSize+i) := fun i hi =>
    le32_congr (h.mono (by omega) (by omega))
  have h0 := hat 0 (by decide)
  rw [Nat.add_zero] at h0
  rw [words, words, h0, hat 4 (by decide), hat 72 (by decide)]

/-- Blank flag bytes are erased words. -/
theorem words_blank (h : Blank m bcSize (bcSize+flagSize)) : words m = .erased := by
  rw [words, le32_blank h le_rfl (by decide), le32_blank h (by decide) (by decide),
    le32_blank h (by decide) (by decide)]
  rfl

/-- A copy keeps the size of the array. -/
theorem strlcpy_length {dst src : List UInt8} {size : ℕ} (h : size ≤ dst.length) (hpos : 0 < size) :
    (strlcpy dst src size).length = dst.length := by
  simp only [strlcpy, length_append, length_take, length_cons, length_drop]
  omega

/-- The record has the size of the flags. -/
theorem encodeFlag_length (h : f.imgVersion.length = 64) : (encodeFlag f).length = flagSize := by
  simp only [encodeFlag, length_append, h]
  rfl

/-- The version text keeps its size. -/
theorem validFlag_img_length {imgVersion : Option (List UInt8)} (h : f.imgVersion.length = 64)
    : (validFlag f imgVersion).imgVersion.length = 64 := by
  cases imgVersion with
  | none => exact length_replicate
  | some v => exact (strlcpy_length (by rw [h]; decide) (by decide)).trans h

/-- A flag on blank cells reads back. -/
theorem words_encodeFlag (h : Holds m bcSize (encodeFlag f)) (himg : f.imgVersion.length = 64)
    (hver : f.activeVer < 2^32) (hrb : f.rbFlag < 2^32) (hfin : f.finish < 2^32)
    : words m = ⟨f.activeVer, f.rbFlag, f.finish⟩ := by
  simp only [encodeFlag, holds_append, himg, leBytes_length] at h
  obtain ⟨h0, h1, -, h2⟩ := h
  rw [words, le32_leBytes h0 hver, le32_leBytes h1 hrb, le32_leBytes h2 hfin]

end Bytes

section Words

variable (m : Mem)

/-- A write to the counter leaves the words. -/
theorem words_program_counter {off : ℕ} {data : List UInt8} (h : off+data.length ≤ bcSize) :
    words (program m off data) = words m :=
  words_congr (agree_program (Or.inr h))

/-- The version word is cleared. -/
theorem words_program_ver : words (program m bcSize (leBytes 0)) = { words m with ver := 0 } := by
  have hv : le32 (program m bcSize (leBytes 0)) bcSize = 0 :=
    le32_eq_zero.mpr (holds_program_zeros m bcSize)
  have hat : ∀ i, 4 ≤ i → le32 (program m bcSize (leBytes 0)) (bcSize+i) = le32 m (bcSize+i) :=
    fun i hi => le32_congr (agree_program (Or.inr (by simp only [leBytes_length]; omega)))
  rw [words, hv]
  rfl

end Words

section Layout

variable (env : EnvPartition) (ab : Slot)

/-- The sector of a slot lies in the partition. -/
theorem getEnvabOffset_le : getEnvabOffset env ab+env.sectorSize ≤ env.length := by
  have hlen := env.length_ge
  cases ab with
  | a => simp only [getEnvabOffset]; omega
  | b => simp only [getEnvabOffset]; omega

/-- The sectors of the slots do not overlap. -/
theorem getEnvabOffset_apart :
    getEnvabOffset env ab+env.sectorSize ≤ getEnvabOffset env ab.other ∨
      getEnvabOffset env ab.other+env.sectorSize ≤ getEnvabOffset env ab := by
  cases ab with
  | a => simp only [getEnvabOffset, Slot.other]; omega
  | b => simp only [getEnvabOffset, Slot.other]; omega

/-- The device after a write to the sector of a slot. -/
def writeSlot (dev : Nor) (off : ℕ) (data : List UInt8) : Nor :=
  ⟨program dev.mem (env.addr+getEnvabOffset env ab+off) data,
    dev.trace ++ [.write (env.addr+getEnvabOffset env ab+off) data]⟩

/-- The device after an erase of the sector of a slot. -/
def eraseSlot (dev : Nor) : Nor :=
  ⟨erase dev.mem (env.addr+getEnvabOffset env ab) env.sectorSize,
    dev.trace ++ [.erase (env.addr+getEnvabOffset env ab) env.sectorSize]⟩

variable {env ab}

/-- A write to a sector. -/
theorem sector_program (m : Mem) (off : ℕ) (data : List UInt8) :
    sector env (program m (env.addr+getEnvabOffset env ab+off) data) ab =
      program (sector env m ab) off data :=
  window_program m _ off data

variable {off : ℕ} {data : List UInt8}

/-- A write to one sector leaves the words of the other. -/
theorem view_program_other (m : Mem) (h : off+data.length ≤ env.sectorSize) :
    view env (program m (env.addr+getEnvabOffset env ab+off) data) ab.other =
      view env m ab.other := by
  have hap := getEnvabOffset_apart env ab
  have hfl := env.flags_le
  exact words_congr fun i _ hi => program_outside (by omega)

/-- A write changes the words of one slot. -/
theorem view_program (m : Mem) (h : off+data.length ≤ env.sectorSize) :
    view env (program m (env.addr+getEnvabOffset env ab+off) data) =
      update (view env m) ab (words (program (sector env m ab) off data)) := by
  funext x
  rcases ab.eq_or_other x with rfl|rfl
  · rw [update_self, view, sector_program]
  · rw [update_of_ne ab.other_ne, view_program_other m h]

/-- An erased sector is blank. -/
theorem blank_sector_erase (m : Mem) :
    Blank (sector env (erase m (env.addr+getEnvabOffset env ab) env.sectorSize) ab) 0
      env.sectorSize :=
  fun i _ hi => erase_inside (by omega) (by omega)

/-- An erase clears the words of one slot. -/
theorem view_erase (m : Mem) :
    view env (erase m (env.addr+getEnvabOffset env ab) env.sectorSize) =
      update (view env m) ab .erased := by
  have hap := getEnvabOffset_apart env ab
  have hfl := env.flags_le
  funext x
  rcases ab.eq_or_other x with rfl|rfl
  · rw [update_self]
    exact words_blank ((blank_sector_erase m).mono (Nat.zero_le _) hfl)
  · rw [update_of_ne ab.other_ne]
    exact words_congr fun i _ hi => erase_outside (by omega)

end Layout

end PineVoice.Bootab
