import PineVoice.Partition

/-!
# A/B boot flags

The env partition has one flag sector for each slot: thirty-two boot counter words, then the
version word, the rollback word, the version text and the finish word. A slot is valid if its
version word is erased, or if it is finished and its version word is not zero. Of two valid slots
the one with the smaller version word is booted.
-/

namespace PineVoice.Bootab

open NorFlash Partitions

/-- The two slots. -/
inductive Slot where
  /-- Slot `a`. -/
  | a
  /-- Slot `b`. -/
  | b
deriving DecidableEq, Repr

/-- The slot that is not this one. -/
def Slot.other : Slot → Slot
  | .a => .b
  | .b => .a

/-- Boot reasons of the chip. -/
inductive BootReason where
  /-- Watchdog reset. -/
  | wdt
  /-- Soft reset. -/
  | soft
  /-- Power on. -/
  | power
  /-- Anything else. -/
  | other
deriving DecidableEq, Repr

/-- Value of an erased word, also the version of an initial image. -/
def eraseFlag : ℕ := 0xFFFFFFFF

/-- `B_ROLLBACK_EN_FLAG`. -/
def rollbackEnFlag : ℕ := 0xFFFF0000

/-- `B_FINISH_FLAG`. -/
def finishFlag : ℕ := 0x38

/-- `BOOT_LIMIT`. -/
def bootLimit : ℕ := 5

/-- `bootab_flag_t`. -/
structure Flag where
  /-- Version word, the smaller one wins. -/
  activeVer : ℕ
  /-- Rollback word. -/
  rbFlag : ℕ
  /-- Version text of the image. -/
  imgVersion : List UInt8
  /-- Finish word. -/
  finish : ℕ
deriving DecidableEq, Repr

/-- Bytes before the flag of a sector: the boot counter words. -/
def bcSize : ℕ := 128

/-- Bytes of a flag. -/
def flagSize : ℕ := 76

/-- A word in memory order. -/
def leBytes (v : ℕ) : List UInt8 :=
  [UInt8.ofNat v, UInt8.ofNat (v/2^8), UInt8.ofNat (v/2^16), UInt8.ofNat (v/2^24)]

/-- A buffer as memory. -/
def bufferMem (bs : List UInt8) : Mem := fun i => bs.getD i 0

/-- The flag in a buffer. -/
def decodeFlag (bs : List UInt8) : Flag where
  activeVer := le32 (bufferMem bs) 0
  rbFlag := le32 (bufferMem bs) 4
  imgVersion := (bs.drop 8).take 64
  finish := le32 (bufferMem bs) 72

/-- The bytes of a flag. -/
def encodeFlag (f : Flag) : List UInt8 :=
  leBytes f.activeVer ++ (leBytes f.rbFlag ++ (f.imgVersion ++ leBytes f.finish))

/-- `strlcpy` of the text before the first zero into a buffer. -/
def strlcpy (dst src : List UInt8) (size : ℕ) : List UInt8 :=
  let text := (src.takeWhile (· != 0)).take (size-1)
  text ++ (0 :: dst.drop (text.length+1))

/-- `check_ab_valid`. -/
def checkAbValid (f : Flag) : Bool :=
  f.activeVer = eraseFlag ∨ (f.activeVer ≠ eraseFlag ∧ f.finish = finishFlag ∧ f.activeVer ≠ 0)

/-- The choice of `bootab_get_current_ab` between two flags. -/
def selectAb (flagA flagB : Flag) : Option Slot :=
  if checkAbValid flagA ∧ checkAbValid flagB then
    if flagA.activeVer ≤ flagB.activeVer then some .a else some .b
  else if checkAbValid flagA then some .a
  else if checkAbValid flagB then some .b
  else none

/-- An env partition: the flags of a slot fit one sector, and the partition has
the room `bootab_init` asks for. -/
structure EnvPartition extends PartitionInfo where
  /-- A sector has room for the boot counter and the flag. -/
  flags_le : bcSize+flagSize ≤ sectorSize
  /-- Two flag sectors and the image header. -/
  length_ge : 2*sectorSize+1024 ≤ length

/-- The flash and the slot cached in RAM. -/
structure BootState where
  /-- The device with the env partition. -/
  dev : Nor
  /-- `g_cur_slot`. -/
  curSlot : Option Slot

section Functions

variable (env : EnvPartition) (st : BootState) (ab : Slot)

/-- Reading from the env partition. -/
def envRead (off : ℤ) (size : ℕ) : ℤ × List UInt8 :=
  partitionRead norOps env.toPartitionInfo st.dev off size

/-- Writing to the env partition. -/
def envWrite (off : ℤ) (data : List UInt8) : ℤ × BootState :=
  let r := partitionWrite norOps env.toPartitionInfo st.dev off data
  (r.1, { st with dev := r.2 })

/-- Erasing sectors of the env partition. -/
def envErase (off : ℤ) (blockCount : ℕ) : ℤ × BootState :=
  let r := partitionErase norOps env.toPartitionInfo st.dev off blockCount
  (r.1, { st with dev := r.2 })

/-- `get_envab_offset`. -/
def getEnvabOffset : Slot → ℕ
  | .a => 0
  | .b => env.sectorSize

/-- Reading the flag of a slot. -/
def readFlag : ℤ × Flag :=
  let r := envRead env st (getEnvabOffset env ab+bcSize : ℕ) flagSize
  (r.1, decodeFlag r.2)

/-- `bootab_get_current_ab`. -/
def bootabGetCurrentAb : Option Slot × BootState :=
  match st.curSlot with
  | some ab => (some ab, st)
  | none =>
    match selectAb (readFlag env st .a).2 (readFlag env st .b).2 with
    | some ab => (some ab, { st with curSlot := some ab })
    | none => (none, st)

/-- The tries of `bootab_init`, with the number of failed ones. -/
def initTries : ℕ → ℕ → BootState → ℕ × BootState
  | 0, retry, st => (retry, st)
  | n+1, retry, st =>
    match bootabGetCurrentAb env st with
    | (some _, st) => (retry, st)
    | (none, st) => if retry < 3 then initTries n (retry+1) st else (retry+1, st)

/-- `bootab_init` on an env partition that was found. The tries have closed its
handle when it is erased, and only a build without a kernel accepts a closed one. -/
def bootabInit (kernelNone : Bool) : ℤ × BootState :=
  if env.length < ((env.sectorSize*2) % 2^32+1024) % 2^32 then (-1, st)
  else
    let r := initTries env 4 0 st
    if 2 < r.1 then
      (-1, if kernelNone then (envErase env r.2 0 (env.length/env.sectorSize)).2 else r.2)
    else (0, r.2)

/-- The count of `bootab_get_bootcount`: words that are not erased among the
first thirty. -/
def countWords (m : Mem) : ℕ → ℕ → ℕ → ℕ
  | 0, _, cnt => cnt
  | n+1, i, cnt =>
    countWords m n (i+1) (if le32 m (4*i) ≠ eraseFlag ∧ i < 30 then cnt+1 else cnt)

/-- `bootab_get_bootcount`. -/
def bootabGetBootcount : ℤ :=
  let r := envRead env st (getEnvabOffset env ab : ℕ) bcSize
  if r.1 < 0 then r.1 else countWords (bufferMem r.2) 32 0 0

/-- `bootab_set_bootcount`. -/
def bootabSetBootcount (reason : BootReason) (oldCnt : ℤ) : ℤ × BootState :=
  if 29 < oldCnt then (einval, st)
  else if reason ≠ .soft ∧ reason ≠ .wdt then (-1, st)
  else
    let r := envWrite env st (getEnvabOffset env ab+4*oldCnt) (leBytes 0)
    if r.1 < 0 then (-1, r.2) else (0, r.2)

/-- `bootab_get_fallback_is_enable`. -/
def bootabGetFallbackIsEnable : Bool := (readFlag env st ab).2.rbFlag = rollbackEnFlag

/-- `bootab_clear_flags`. -/
def bootabClearFlags : ℤ × BootState := envErase env st (getEnvabOffset env ab : ℕ) 1

/-- The flag `bootab_set_valid` writes. -/
def validFlag (f : Flag) (imgVersion : Option (List UInt8)) : Flag where
  activeVer := (f.activeVer+2^32-1) % 2^32
  rbFlag := rollbackEnFlag
  imgVersion := match imgVersion with
    | some v => strlcpy f.imgVersion v 63
    | none => List.replicate 64 0xFF
  finish := finishFlag

/-- `bootab_set_valid`. -/
def bootabSetValid (imgVersion : Option (List UInt8)) : ℤ × BootState :=
  let r := readFlag env st ab.other
  if r.1 < 0 then (r.1, st)
  else
    let new := validFlag r.2 imgVersion
    let w := envWrite env st (getEnvabOffset env ab+bcSize : ℕ) (encodeFlag new)
    if w.1 < 0 then w
    else
      let c := readFlag env w.2 ab
      if c.1 < 0 then (c.1, w.2)
      else if new.activeVer ≠ c.2.activeVer ∨ new.finish ≠ c.2.finish then (-1, w.2)
      else (0, w.2)

/-- `bootab_set_invalid`. -/
def bootabSetInvalid : ℤ × BootState :=
  envWrite env st (getEnvabOffset env ab+bcSize : ℕ) (leBytes 0)

/-- `bootab_set_fallback_enable`. -/
def bootabSetFallbackEnable : ℤ × BootState :=
  let r := readFlag env st ab
  if r.1 < 0 then (r.1, st)
  else if r.2.rbFlag ≠ rollbackEnFlag then
    if r.2.activeVer = eraseFlag then (0, st)
    else
      let w := envWrite env st (getEnvabOffset env ab+bcSize+4 : ℕ) (leBytes rollbackEnFlag)
      if w.1 < 0 then w else (0, w.2)
  else (0, st)

/-- `bootab_set_fallback_disable`. -/
def bootabSetFallbackDisable : ℤ × BootState :=
  let r := readFlag env st ab
  if r.1 < 0 then (r.1, st)
  else if r.2.rbFlag = rollbackEnFlag then
    let w := envWrite env st (getEnvabOffset env ab+bcSize+4 : ℕ) (leBytes 0)
    if w.1 < 0 then w else (0, w.2)
  else (0, st)

/-- `bootab_fallback`: the slot to fall back to, if the limit is reached. -/
def bootabFallback (reason : BootReason) : Option Slot × BootState :=
  if bootabGetFallbackIsEnable env st ab then
    let cnt := bootabGetBootcount env st ab
    if (bootLimit : ℤ) ≤ cnt then (some ab.other, (bootabSetInvalid env st ab).2)
    else (none, (bootabSetBootcount env st ab reason cnt).2)
  else (none, st)

end Functions

end PineVoice.Bootab
