import PineVoice.AosHash
import PineVoice.KvBlock

/-!
# The key-value store over several blocks: `kvset.c`

The package configuration is `CONFIG_KV_ENABLE_CACHE` off and `CONFIG_KV_START_OPT` on: the hash
map exists only while `kv_init` looks for keys stored twice. A result `none` stands for a call
that does not return a defined result. Keys and values are byte lists, so the size argument is a
length.
-/

namespace PineVoice.Kv

open NorFlash AosHash

/-- `cache_node_t`: sixteen-bit position of a record. -/
structure CacheNode where
  /-- Block of the record. -/
  blockId : ℕ
  /-- Offset of its key. -/
  offset : ℕ
deriving DecidableEq, Repr

/-- An unused cache node, filled with `CACHE_INVALID_VAL`. -/
def CacheNode.unused : CacheNode := ⟨0xFFFF, 0xFFFF⟩

/-- What `kv_init` keeps to find keys stored twice. -/
structure KeyCache where
  /-- Key to index in `nodes`. -/
  map : HashTable ℕ
  /-- Position of the first record of every key. -/
  nodes : List CacheNode
  /-- Later records of keys already seen. -/
  head : List (List UInt8 × CacheNode)

/-- Working state of `kv_init`. -/
structure InitState where
  /-- The store under construction. -/
  kv : Kvset
  /-- Free bytes of the reserve candidate. -/
  gcSize : ℤ
  /-- Keys seen so far. -/
  cache : KeyCache

/-- `kv_cache_node_get`: the first unused index, after growing if needed. -/
def kvCacheNodeGet (nodes : List CacheNode) : ℕ × List CacheNode :=
  match nodes.findIdx? (fun c => c.blockId = 0xFFFF) with
  | some i => (i, nodes)
  | none => (nodes.length, nodes ++ List.replicate 32 .unused)

/-- The cache part of `_iter_calc` on a valid node. -/
def iterCache (size : ℕ) (m : Mem) (node : KvNode) (cache : KeyCache) : KeyCache :=
  let key := cstrAt m node.headOffset size
  let position : CacheNode := ⟨u16 node.block, node.headOffset⟩
  match hashGet2 cache.map key with
  | some _ => { cache with head := cache.head ++ [(key, position)] }
  | none =>
    let r := kvCacheNodeGet cache.nodes
    { cache with nodes := r.2.set r.1 position, map := hashSet cache.map key r.1 }

/-- `_iter_calc` on the counters of the block and the cache. -/
def iterCalcAll (size : ℕ) (m : Mem) (node : KvNode) (s : KvBlock × KeyCache) :
    (KvBlock × KeyCache) × ℤ :=
  ((iterCalc node s.1, if node.valid then iterCache size m node s.2 else s.2), 0)

/-- `kvblock_calc` and the rest of `kvblock_init` for block `i`. -/
def kvblockInit (s : InitState) (i : ℕ) : Option InitState :=
  let m := s.kv.mem i
  let size := s.kv.size
  let start := { s.kv.blocks i with dirtySize := 0, kvSize := 0, count := 0, roCount := 0 }
  (kvblockIter size m i false (iterCalcAll size m) iterFuel 0 (start, s.cache)).map fun r =>
    let writeOffset := r.1.writeOffset
    let tail := calcTail m (le32 m (size-4)) 128 writeOffset writeOffset
    let block := { r.1 with writeOffset := tail }
    let kv := s.kv.setBlock i block
    let kv := if block.count = 0 ∧ mustErase size m = true then kvblockGc kv i else kv
    { s with kv := kv, cache := r.2 }

/-- `kvblock_free_size`. -/
def kvblockFreeSize (size : ℕ) (block : KvBlock) : ℤ := size-block.writeOffset

/-- The rest of the loop body of `kv_init`: the last block with most free
bytes becomes the reserve, the first other one the current block. -/
def elect (s : InitState) (i : ℕ) : InitState :=
  let v := kvblockFreeSize s.kv.size (s.kv.blocks i)
  if s.gcSize ≤ v ∧ 4 < v then { s with kv := { s.kv with gcBid := some i }, gcSize := v }
  else if s.kv.bid = 0 then { s with kv := { s.kv with bid := i } }
  else s

/-- The loop of `kv_init` over the blocks from `i` on. -/
def initLoop : ℕ → ℕ → InitState → Option InitState
  | 0, _, s => some s
  | n+1, i, s => (kvblockInit s i).bind fun s => initLoop n (i+1) (elect s i)

/-- One round of `kv_verify`: of two records with one key the older goes. -/
def verifyOne (s : InitState) (lnode : List UInt8 × CacheNode) : InitState :=
  let kv := s.kv
  let idx := (hashGet2 s.cache.map lnode.1).getD 0
  let cache1 := lnode.2
  let cache2 := s.cache.nodes.getD idx .unused
  let m1 := kv.mem cache1.blockId
  let m2 := kv.mem cache2.blockId
  match kvblockSearch kv.size m1 cache1.blockId cache1.offset,
      kvblockSearch kv.size m2 cache2.blockId cache2.offset with
  | some node1, some node2 =>
    if kvnodeCmpName m1 node1 lnode.1 = 0 ∧ kvnodeCmpName m2 node2 lnode.1 = 0 then
      match kvblockCheckVersion m1 m2 node1 node2 with
      | none => s
      | some false => { s with kv := kvnodeRm kv node1 }
      | some true => { s with
          kv := kvnodeRm kv node2
          cache := { s.cache with nodes := s.cache.nodes.set idx cache1 } }
    else s
  | _, _ => s

/-- `kv_verify`. -/
def kvVerify (s : InitState) : InitState := s.cache.head.foldl verifyOne s

/-- State of `kv_init` before its loop. -/
def initStart (flash : Mem) (num size : ℕ) : InitState :=
  { kv := ⟨flash, size, num, fun _ => .zero, 0, none, []⟩
    gcSize := 0
    cache := ⟨hashInit 16, List.replicate 16 .unused, []⟩ }

/-- `kv_init` on a flash image. -/
def kvInit (flash : Mem) (num size : ℕ) : Option Kvset :=
  (initLoop num 0 (initStart flash num size)).map fun s => (kvVerify s).kv

/-- The loop of `kv_find` over the blocks from `i` on. -/
def findLoop (kv : Kvset) (key : List UInt8) : ℕ → ℕ → Option KvNode → Option (Option KvNode)
  | 0, _, found => some found
  | n+1, i, found =>
    (kvblockFind kv.size (kv.mem i) i (kv.blocks i) key).bind fun r =>
      match r with
      | some node => if node.rw then some (some node) else findLoop kv key n (i+1) (some node)
      | none => findLoop kv key n (i+1) found

/-- `kv_find`. -/
def kvFind (kv : Kvset) (key : List UInt8) : Option (Option KvNode) :=
  findLoop kv key kv.num 0 none

/-- Version written for a record that replaces one of this version. -/
def nextVersion (version : UInt8) : ℕ := if version = 255 then 1 else version.toNat+1

/-- `_kvblock_deep_gc`: copy a record into the reserve block and delete the
original once the copy is verified. -/
def kvblockDeepGc (size : ℕ) (snapshot : Mem) (gc : ℕ) (node : KvNode) (kv : Kvset) :
    Kvset × ℤ :=
  if node.rw then
    let r := kvblockSet kv gc (cstrAt snapshot node.headOffset size)
      (readBytes snapshot node.valueOffset node.valSize) (nextVersion node.version)
    (if 0 ≤ r.1 then kvnodeRm r.2 node else r.2, 0)
  else (kv, 0)

/-- The search for the least used block that fits into the reserve, over
the blocks from `i` on. -/
def minBlock (kv : Kvset) (gc : ℕ) : ℕ → ℕ → Option ℕ → ℤ → Option ℕ
  | 0, _, minId, _ => minId
  | n+1, i, minId, minSize =>
    let block := kv.blocks i
    if block.roCount = 0 ∧ i ≠ gc ∧ 0 < block.kvSize ∧ (block.kvSize : ℤ) < minSize then
      minBlock kv gc n (i+1) (some i) block.kvSize
    else minBlock kv gc n (i+1) minId minSize

/-- Each round of `kv_gc` that changes anything advances the write offset of
the reserve block, which is sixteen bits wide. -/
def gcFuel : ℕ := 65536

/-- The loop of `kv_gc` with the block emptied last. -/
def gcLoop (gc : ℕ) : ℕ → Option ℕ → Kvset → Option (Option ℕ × Kvset)
  | 0, _, _ => none
  | n+1, newGc, kv =>
    match minBlock kv gc kv.num 0 none (kv.size-(kv.blocks gc).writeOffset) with
    | none => some (newGc, kv)
    | some m =>
      (kvblockIter kv.size (kv.mem m) m true (kvblockDeepGc kv.size (kv.mem m) gc)
        iterFuel 0 kv).bind fun kv' =>
        gcLoop gc n (if (kv'.blocks m).count = 0 then some m else newGc) kv'

/-- `kv_gc`. -/
def kvGc (kv : Kvset) : Option (ℤ × Kvset) :=
  kv.gcBid.bind fun gc => (gcLoop gc gcFuel none kv).map fun r =>
    match r.1 with
    | some newGc => (0, { r.2 with gcBid := some newGc })
    | none => (-1, r.2)

/-- The block loop behind label `start2` of `kv_set`: whether the record was
stored in some block. -/
def setLoop (key value : List UInt8) (version startBid : ℕ) : ℕ → Kvset → Option (Bool × Kvset)
  | 0, _ => none
  | n+1, kv =>
    let r := if (kv.blocks kv.bid).roCount = 0 ∧ some kv.bid ≠ kv.gcBid then
      kvblockSet kv kv.bid key value version else (-1, kv)
    if 0 ≤ r.1 then some (true, r.2)
    else
      let kv := { r.2 with bid := (r.2.bid+1) % r.2.num }
      if kv.bid = startBid then some (false, kv) else setLoop key value version startBid n kv

/-- Label `start2` of `kv_set`: store the record and delete the old one. -/
def setStart2 (kv : Kvset) (key value : List UInt8) (version : ℕ) (node : Option KvNode) :
    Option (Bool × Kvset) :=
  (setLoop key value version kv.bid kv.num kv).map fun r =>
    match r.1, node with
    | true, some node => (true, kvnodeRm r.2 node)
    | stored, _ => (stored, r.2)

/-- Label `start1` of `kv_set` with the running version counter: `none` when
the value is stored already, otherwise the new version and the old node. -/
def setStart1 (kv : Kvset) (key value : List UInt8) (version : ℕ) :
    Option (Option (ℕ × Option KvNode)) :=
  (kvFind kv key).map fun found =>
    match found with
    | none => some (version+1, none)
    | some node =>
      if node.valSize = u16 value.length ∧
          readBytes (kv.mem node.block) node.valueOffset value.length = value then none
      else some (nextVersion node.version, some node)

/-- `kv_set`: the value size on success, `-1` otherwise. -/
def kvSet (kv : Kvset) (key value : List UInt8) : Option (ℤ × Kvset) :=
  if value.length ≤ 0 ∨ 498 ≤ key.length+value.length then some (-1, kv)
  else do
    let size : ℤ := value.length
    match ← setStart1 kv key value 0 with
    | none => return (size, kv)
    | some (version, node) =>
      let (stored, kv) ← setStart2 kv key value version node
      if stored then return (size, kv)
      let (ret, kv) ← kvGc kv
      if ret ≠ 0 then return (-1, kv)
      match node with
      | none =>
        let (stored, kv) ← setStart2 kv key value version none
        return (if stored then size else -1, kv)
      | some _ =>
        match ← setStart1 kv key value version with
        | none => return (size, kv)
        | some (version, node) =>
          let (stored, kv) ← setStart2 kv key value version node
          return (if stored then size else -1, kv)

/-- `isspace` in the C locale. -/
def isspace (c : UInt8) : Bool := c = 0x20 ∨ (9 ≤ c ∧ c ≤ 13)

/-- Skip the white space that `atoi` accepts. -/
def skipSpaces (m : Mem) : ℕ → ℕ → ℕ
  | 0, c => c
  | n+1, c => if isspace (m c) then skipSpaces m n (c+1) else c

/-- Decimal digits from an offset on. -/
def digits (m : Mem) : ℕ → ℕ → ℤ → ℤ
  | 0, _, acc => acc
  | n+1, c, acc => if 0x30 ≤ m c ∧ m c ≤ 0x39 then
      digits m n (c+1) (10*acc+((m c).toNat-0x30)) else acc

/-- `atoi` on the text at an offset. -/
def atoi (m : Mem) (c : ℕ) : ℤ :=
  let c := skipSpaces m iterFuel c
  if m c = 0x2D then -digits m iterFuel (c+1) 0
  else if m c = 0x2B then digits m iterFuel (c+1) 0
  else digits m iterFuel c 0

/-- The four bytes of an `int` in memory. -/
def intBytes (x : ℤ) : List UInt8 :=
  let n := (x % 4294967296).toNat
  [UInt8.ofNat n, UInt8.ofNat (n/256), UInt8.ofNat (n/65536), UInt8.ofNat (n/16777216)]

/-- The read-only branch of `kv_get`: a quoted string without its quotes, or
a number. -/
def kvGetRo (m : Mem) (node : KvNode) (size : ℕ) : Option (ℤ × List UInt8) :=
  if 0 < node.valSize then
    if m node.valueOffset = 0x22 then
      let ret := node.valSize
      let ret := if m (node.valueOffset+ret-1) = 0x0D then ret-1 else ret
      let ret : ℤ := if m (node.valueOffset+ret-1) = 0x22 then (ret : ℤ)-2 else (ret : ℤ)-1
      let ret := if ret < size then ret else size
      if ret < 0 then none else some (ret, readBytes m (node.valueOffset+1) ret.toNat)
    else some (4, (intBytes (atoi m node.valueOffset)).take size)
  else some (-1, [])

/-- `kv_get` with a buffer of `size` bytes: the return value and the bytes
stored into the buffer. -/
def kvGet (kv : Kvset) (key : List UInt8) (size : ℕ) : Option (ℤ × List UInt8) :=
  (kvFind kv key).bind fun found =>
    match found with
    | none => some (-1, [])
    | some node =>
      let m := kv.mem node.block
      if node.rw then
        some (node.valSize, readBytes m node.valueOffset (min node.valSize size))
      else kvGetRo m node size

/-- `kv_rm`. -/
def kvRm (kv : Kvset) (key : List UInt8) : Option (ℤ × Kvset) :=
  (kvFind kv key).map fun found =>
    match found with
    | none => (-1, kv)
    | some node => (0, kvnodeRm kv node)

/-- `_iter_rm_all_rw_node`. -/
def iterRmAllRwNode (node : KvNode) (kv : Kvset) : Kvset × ℤ := (kvnodeRm kv node, 0)

/-- `kvblock_reset`. -/
def kvblockReset (kv : Kvset) (id : ℕ) : Option Kvset :=
  kvblockIter kv.size (kv.mem id) id true iterRmAllRwNode iterFuel 0 kv

/-- The loop of `kv_reset` over the blocks from `i` on. -/
def resetLoop : ℕ → ℕ → Kvset → Option Kvset
  | 0, _, kv => some kv
  | n+1, i, kv => (kvblockReset kv i).bind fun kv => resetLoop n (i+1) kv

/-- `kv_reset`. -/
def kvReset (kv : Kvset) : Option (ℤ × Kvset) :=
  (resetLoop kv.num 0 kv).map fun kv => (0, kv)

end PineVoice.Kv
