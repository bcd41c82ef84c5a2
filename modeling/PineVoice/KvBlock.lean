import PineVoice.NorFlash

/-!
# Blocks of the key-value store: `block.c`

The build of this board defines `CONFIG_NON_ADDRESS_FLASH` and leaves `CONFIG_DEBUG` undefined: a
block is scanned in a snapshot, and the assertions are empty. Flash operations succeed. Block `id`
starts at `id*size`; what a scan reads behind the end of a block is whatever the memory holds
there. A loop that may not end takes fuel, and `none` stands for a call that does not return.
-/

namespace PineVoice.Kv

open NorFlash

/-- Conversion of an `int` to the sixteen-bit fields of the store. -/
def u16 (x : ℤ) : ℕ := (x % 65536).toNat

/-- `align4`. -/
def align4 (x : ℕ) : ℕ := if x % 4 ≠ 0 then 4-x % 4+x else x

/-- `kvnode_t`: what the scanner reports about one record. -/
structure KvNode where
  /-- Read-write binary record, as opposed to a read-only text line. -/
  rw : Bool
  /-- Version byte, zero for a text line. -/
  version : UInt8
  /-- Length of the value. -/
  valSize : ℕ
  /-- The word behind the record; zero marks it deleted. -/
  eraseFlag : ℕ
  /-- Offset of the key in its block. -/
  headOffset : ℕ
  /-- Offset of the value. -/
  valueOffset : ℕ
  /-- Offset behind the record, where the scan continues. -/
  nextOffset : ℕ
  /-- Bytes taken by the record. -/
  nodeSize : ℕ
  /-- Identifier of the block. -/
  block : ℕ
deriving DecidableEq, Repr

/-- `NODE_VAILD`: the record is not marked deleted. -/
def KvNode.valid (node : KvNode) : Bool := node.eraseFlag ≠ 0

/-- `kvblock_t`: the counters kept in RAM for one block. -/
structure KvBlock where
  /-- Offset of the next record. -/
  writeOffset : ℕ
  /-- Bytes of live records. -/
  kvSize : ℕ
  /-- Bytes of deleted records. -/
  dirtySize : ℕ
  /-- Number of live records. -/
  count : ℕ
  /-- Number of read-only records. -/
  roCount : ℕ
deriving DecidableEq, Repr

/-- A block as `calloc` leaves it. -/
def KvBlock.zero : KvBlock := ⟨0, 0, 0, 0, 0⟩

/-- `kv_t`: the flash, the geometry, the counters, the current and the
reserve block, and the flash operations issued so far. -/
structure Kvset where
  /-- Flash contents, addressed from the start of the store. -/
  flash : Mem
  /-- Bytes of one block. -/
  size : ℕ
  /-- Number of blocks. -/
  num : ℕ
  /-- Counters of every block. -/
  blocks : ℕ → KvBlock
  /-- Block that receives the next record. -/
  bid : ℕ
  /-- Reserve block of the compaction, `none` for `-1`. -/
  gcBid : Option ℕ
  /-- Flash operations in the order they were issued. -/
  trace : List Op

/-- The bytes of a block and what lies behind it. -/
def Kvset.mem (kv : Kvset) (id : ℕ) : Mem := window kv.flash (id*kv.size)

/-- Replace the counters of one block. -/
def Kvset.setBlock (kv : Kvset) (id : ℕ) (block : KvBlock) : Kvset :=
  { kv with blocks := Function.update kv.blocks id block }

/-- Issue one flash operation. -/
def Kvset.issue (kv : Kvset) (op : Op) : Kvset :=
  { kv with flash := op.apply kv.flash, trace := kv.trace ++ [op] }

/-- `block_erase`. -/
def blockErase (kv : Kvset) (id : ℕ) : Kvset := kv.issue (.erase (id*kv.size) kv.size)

/-- `block_write`. -/
def blockWrite (kv : Kvset) (id offset : ℕ) (data : List UInt8) : Kvset :=
  kv.issue (.write (id*kv.size+offset) data)

/-- A key as the memory its characters and terminator occupy. -/
def cString (key : List UInt8) : Mem := fun i => key.getD i 0

/-- The C string stored at an offset, read for at most `n` characters. -/
def cstrAt (m : Mem) : ℕ → ℕ → List UInt8
  | _, 0 => []
  | off, n+1 => if m off = 0 then [] else m off :: cstrAt m (off+1) n

/-- The loop of `keycmp` from index `i` on, with `n` characters to spare. -/
def keycmpLoop (s d : Mem) : ℕ → ℕ → ℤ
  | 0, i => if s i ≠ 0 ∧ s i = d i then -1 else
      if s i = 0 then 0 else (s i).toNat-(d i).toNat
  | n+1, i => if s i ≠ 0 ∧ s i = d i then keycmpLoop s d n (i+1) else
      (s i).toNat-(d i).toNat

/-- `keycmp`: zero when the C string `s` is the key stored at `d`. -/
def keycmp (s d : Mem) (n : ℤ) : ℤ :=
  if n = 0 then 0
  else if n < 0 then
    if s 0 ≠ 0 ∧ s 0 = d 0 then -1 else (s 0).toNat-(d 0).toNat
  else keycmpLoop s d n.toNat 0

/-- `isprint` in the C locale. -/
def isprint (c : UInt8) : Bool := 0x20 ≤ c ∧ c ≤ 0x7E

/-- Value size decoded behind the terminator at `c`. -/
def valueSizeAt (m : Mem) (c : ℕ) : ℕ :=
  (m (c+1)).toNat ||| (((m (c+2)).toNat <<< 8) &&& 0x3FF)

/-- Key size decoded behind the terminator at `c`. -/
def keySizeAt (m : Mem) (c : ℕ) : ℕ := (m (c+2)).toNat >>> 2

/-- The tests of `kvblock_search` on a zero byte at `c`: the delimiter, both
bounds and the repeated size byte. -/
def rwCheck (size : ℕ) (m : Mem) (c : ℕ) : Bool :=
  m (c+4) = 0x3D ∧ c+valueSizeAt m c < size ∧ keySizeAt m c ≤ c ∧
    m (c+2) = m (c+valueSizeAt m c+5)

/-- The read-write node reported for a zero byte at `c`. -/
def rwNode (m : Mem) (block c : ℕ) : KvNode :=
  let keySize := keySizeAt m c
  let valueSize := valueSizeAt m c
  let nodeSize := align4 (keySize+valueSize+6)+4
  { rw := true
    version := m (c+3)
    valSize := valueSize
    eraseFlag := le32 m (c-keySize+nodeSize-4)
    headOffset := u16 (c-keySize)
    valueOffset := u16 (c+5)
    nextOffset := u16 (u16 (c-keySize)+nodeSize)
    nodeSize := nodeSize
    block := block }

/-- The read-only node reported for a line end at `c` behind `delim`. -/
def roNode (block head delim c : ℕ) : KvNode :=
  let nextOffset := u16 (c+1)
  { rw := false
    version := 0
    valSize := u16 (c-delim-1)
    eraseFlag := 0xFFFF
    headOffset := u16 head
    valueOffset := u16 (delim+1)
    nextOffset := nextOffset
    nodeSize := u16 (nextOffset-u16 head)
    block := block }

/-- Skip zero bytes for at most `n` positions. -/
def skipZeros (m : Mem) : ℕ → ℕ → ℕ
  | 0, c => c
  | n+1, c => if m c = 0 then skipZeros m n (c+1) else c

/-- The main loop of `kvblock_search`, `n` positions before the last byte of
the block. `delim` is the pending `=` of a text line. -/
def searchLoop (size : ℕ) (m : Mem) (block head : ℕ) : ℕ → ℕ → Option ℕ → Option KvNode
  | 0, _, _ => none
  | n+1, c, delim =>
    if m c = 0 then
      if rwCheck size m c then some (rwNode m block c)
      else searchLoop size m block head n (c+1) delim
    else if m c = 0x3D then searchLoop size m block head n (c+1) (some c)
    else if m c = 0x0A then
      match delim with
      | some d => some (roNode block head d c)
      | none => searchLoop size m block head n (c+1) none
    else if m c = 0x0D then searchLoop size m block head n (c+1) delim
    else searchLoop size m block head n (c+1) (if isprint (m c) then delim else none)

/-- `kvblock_search`: the first record from offset `c` on. -/
def kvblockSearch (size : ℕ) (m : Mem) (block c : ℕ) : Option KvNode :=
  let head := skipZeros m (size-c) c
  searchLoop size m block head (size-1-head) head none

/-- Offsets are sixteen bits wide, so a longer chain of records repeats one
and the scan never ends. -/
def iterFuel : ℕ := 65537

/-- `kvblock_iter` over a snapshot: call `fn` on the records, on valid ones
only if asked, until it returns a nonzero value. -/
def kvblockIter {σ : Type} (size : ℕ) (m : Mem) (block : ℕ) (onlyValid : Bool)
    (fn : KvNode → σ → σ × ℤ) : ℕ → ℕ → σ → Option σ
  | 0, _, _ => none
  | n+1, next, s =>
    match kvblockSearch size m block next with
    | none => some s
    | some node =>
      if onlyValid = false ∨ node.valid = true then
        let r := fn node s
        if r.2 ≠ 0 then some r.1
        else kvblockIter size m block onlyValid fn n node.nextOffset r.1
      else kvblockIter size m block onlyValid fn n node.nextOffset s

/-- `__kvblock_gc`: erase a block and reset its counters. -/
def kvblockGc (kv : Kvset) (id : ℕ) : Kvset :=
  let kv := blockErase kv id
  kv.setBlock id { kv.blocks id with writeOffset := 0, kvSize := 0, dirtySize := 0, count := 0 }

/-- `kvnode_rm`: clear the flag word of a valid record, or erase its block
when no other read-write record lives there. -/
def kvnodeRm (kv : Kvset) (node : KvNode) : Kvset :=
  if node.valid = true ∧ node.rw = true then
    let block := kv.blocks node.block
    if 1 < (block.count : ℤ)-block.roCount then
      let kv := blockWrite kv node.block (node.nextOffset-4) [0, 0, 0, 0]
      kv.setBlock node.block { block with
        dirtySize := u16 (block.dirtySize+node.nodeSize)
        kvSize := u16 (block.kvSize-node.nodeSize)
        count := u16 (block.count-1) }
    else kvblockGc kv node.block
  else kv

/-- `kvblock_alloc_node`: reserve room, keeping the last word of the block. -/
def kvblockAllocNode (size : ℕ) (block : KvBlock) (nodeSize : ℕ) : Option (ℕ × KvBlock) :=
  if (block.writeOffset : ℤ)+nodeSize ≤ size-4 then
    some (block.writeOffset, { block with writeOffset := u16 (block.writeOffset+nodeSize) })
  else none

/-- Low byte of a value size. -/
def sizeLo (size : ℕ) : UInt8 := UInt8.ofNat ((size >>> 0) &&& 0xFF)

/-- High bits of a value size together with the key length. -/
def sizeHi (len size : ℕ) : UInt8 := UInt8.ofNat (((size >>> 8) &&& 0xFF) ||| (len <<< 2))

/-- The buffer `kvblock_set` programs: key, terminator, sizes, version,
delimiter, value, repeated size byte and zero padding. -/
def recordBuffer (key value : List UInt8) (version : UInt8) : List UInt8 :=
  let hi := sizeHi key.length value.length
  let used := key.length+value.length+6
  key ++ [0, sizeLo value.length, hi, version, 0x3D] ++ value ++ [hi] ++
    List.replicate (align4 used-used) 0

/-- `kvblock_set`: the offset of the new record, or `-1`. -/
def kvblockSet (kv : Kvset) (id : ℕ) (key value : List UInt8) (version : ℕ) : ℤ × Kvset :=
  if key.length ≤ 0 ∨ 0x3F < key.length ∨ 0x3FFFF < value.length then (-1, kv)
  else
    let mallocSize := align4 (key.length+value.length+6)
    let nodeSize := mallocSize+4
    match kvblockAllocNode kv.size (kv.blocks id) nodeSize with
    | none => (-1, kv)
    | some (offset, block) =>
      let buffer := recordBuffer key value (UInt8.ofNat (version &&& 0xFF))
      let kv := blockWrite (kv.setBlock id block) id offset buffer
      if readBytes (kv.mem id) offset mallocSize = buffer then
        (offset, kv.setBlock id { block with
          kvSize := u16 (block.kvSize+nodeSize)
          count := u16 (block.count+1) })
      else (-1, blockWrite kv id (offset+mallocSize) [0, 0, 0, 0])

/-- `kvnode_cmp_name` against the snapshot of the node's block. -/
def kvnodeCmpName (m : Mem) (node : KvNode) (key : List UInt8) : ℤ :=
  keycmp (cString key) (window m node.headOffset) (node.valueOffset-node.headOffset-1)

/-- `kvblock_check_version` on two snapshots: which of two nodes with one key
is deleted, `false` for the first and `true` for the second. -/
def kvblockCheckVersion (m1 m2 : Mem) (node1 node2 : KvNode) : Option Bool :=
  if keycmp (window m1 node1.headOffset) (window m2 node2.headOffset)
      (node2.valueOffset-node2.headOffset-1) ≠ 0 then none
  else if node1.version = 255 ∧ node2.version = 1 then some false
  else if node1.version = 1 ∧ node2.version = 255 then some true
  else if node1.version < node2.version then some false
  else if node2.version < node1.version then some true
  else none

/-- `_iter_find`: remember a node with the key, stop at a read-write one or
after the last live record. -/
def iterFind (m : Mem) (key : List UInt8) (node : KvNode) (s : ℤ × Option KvNode) :
    (ℤ × Option KvNode) × ℤ :=
  if kvnodeCmpName m node key = 0 ∧ node.rw = true then ((s.1, some node), -1)
  else
    let found := if kvnodeCmpName m node key = 0 then some node else s.2
    ((s.1-1, found), if 0 < s.1-1 then 0 else -1)

/-- `kvblock_find`. -/
def kvblockFind (size : ℕ) (m : Mem) (id : ℕ) (block : KvBlock) (key : List UInt8) :
    Option (Option KvNode) :=
  (kvblockIter size m id true (iterFind m key) iterFuel 0 (block.count, none)).map Prod.snd

/-- The counter part of `_iter_calc`. -/
def iterCalc (node : KvNode) (block : KvBlock) : KvBlock :=
  let len : ℤ := node.nextOffset-node.headOffset
  let block := if node.valid then { block with
      kvSize := u16 (block.kvSize+len)
      count := u16 (block.count+1)
      roCount := if node.rw then block.roCount else u16 (block.roCount+1) }
    else { block with dirtySize := u16 (block.dirtySize+len) }
  { block with writeOffset := u16 (align4 node.nextOffset) }

/-- The tail loop of `kvblock_calc`: the write offset is moved behind the
last of the words before offset 508 that differ from the last word. -/
def calcTail (m : Mem) (magic : ℕ) : ℕ → ℕ → ℕ → ℕ
  | 0, _, writeOffset => writeOffset
  | n+1, v, writeOffset =>
    if v < 512-4 then calcTail m magic n (v+4) (if le32 m v ≠ magic then u16 (v+4) else writeOffset)
    else writeOffset

/-- Whether `kvblock_init` erases a block without live records: its words
differ, or they are all zero. -/
def mustErase (size : ℕ) (m : Mem) : Bool :=
  (List.range (size/4)).any (fun i => 1 ≤ i ∧ le32 m (4*i) ≠ le32 m 0) || le32 m 0 = 0

end PineVoice.Kv
