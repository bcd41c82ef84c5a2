import PineVoice.Partition

/-!
# The partition table in flash

The table lists partitions in blocks of 512 bytes. It is searched by name, where a
name is a text of at most eight characters, or read by index.
-/

namespace PineVoice.Mtb

open NorFlash Partitions

/-- `MTB_IMAGE_NAME_SIZE`. -/
def mtbImageNameSize : ℕ := 8

/-- The text at the start of some bytes, as `strncmp` reads it. -/
def text (n : ℕ) (bytes : List UInt8) : List UInt8 := (bytes.take n).takeWhile (· != 0)

/-- `imtb_partition_info_v4_t`. -/
structure ImtbEntry where
  /-- `name`. -/
  name : List UInt8
  /-- `pub_key_name`. -/
  pubKeyName : List UInt8
  /-- `block_count`. -/
  blockCount : ℕ
  /-- `block_offset`. -/
  blockOffset : ℕ

/-- `mtb_partition_info_t`. -/
structure PartInfo where
  /-- `name`. -/
  name : List UInt8
  /-- `pub_key_name`. -/
  pubKeyName : List UInt8
  /-- `start_addr`. -/
  startAddr : ℕ
  /-- `end_addr`. -/
  endAddr : ℕ
deriving DecidableEq

/-- The answer for an entry, on a flash that starts at an address. -/
def ImtbEntry.info (flashStart : ℕ) (e : ImtbEntry) : PartInfo where
  name := e.name
  pubKeyName := e.pubKeyName
  startAddr := (flashStart+e.blockOffset*512) % 2^32
  endAddr := ((flashStart+e.blockOffset*512) % 2^32+e.blockCount*512) % 2^32

/-- `mtbv4_get_partition_info`. -/
def mtbv4GetPartitionInfo (table : List ImtbEntry) (flashStart : ℕ) (name : List UInt8) :
    Option PartInfo :=
  (table.find? fun e => text mtbImageNameSize e.name == text mtbImageNameSize name).map
    (ImtbEntry.info flashStart)

theorem mtbv4GetPartitionInfo_lt {table : List ImtbEntry} {flashStart : ℕ} {name : List UInt8}
    {info : PartInfo} (h : mtbv4GetPartitionInfo table flashStart name = some info) :
    info.startAddr < 2^32 ∧ info.endAddr < 2^32 := by
  obtain ⟨e, -, rfl⟩ := Option.map_eq_some_iff.mp h
  exact ⟨Nat.mod_lt _ (by decide), Nat.mod_lt _ (by decide)⟩

end PineVoice.Mtb
