import PineVoice.KvLog
import PineVoice.KvSet

/-!
# Store operations on logs

A store whose blocks represent logs stays one under the three flash writes of `block.c`: appending
a record, clearing a flag word and erasing a block.
-/

namespace PineVoice.Kv

open Function NorFlash List

/-- Keys and values that `kvblock_set` stores and the scanner finds again. -/
structure Storable (key value : List UInt8) : Prop where
  /-- Keys are not empty. -/
  key_pos : 0 < key.length
  /-- The length of a key has six bits. -/
  key_le : key.length ≤ 63
  /-- A key is a C string. -/
  key_nul : 0 ∉ key
  /-- The scanner reaches the terminator of the key. -/
  key_quiet : textQuiet false key = true
  /-- Values are not empty. -/
  value_pos : 0 < value.length
  /-- The size check of `kv_set`. -/
  size_lt : key.length+value.length < 498

/-- The record `kvblock_set` writes: zero padding and an erased flag. -/
def Rec.fresh {key value : List UInt8} (h : Storable key value) (version : UInt8) : Rec where
  key := key
  value := value
  version := version
  pad := List.replicate
    (align4 (key.length+value.length+6)-(key.length+value.length+6)) 0
  flag := [0xFF, 0xFF, 0xFF, 0xFF]
  key_pos := h.key_pos
  key_le := h.key_le
  key_nul := h.key_nul
  key_quiet := h.key_quiet
  value_pos := h.value_pos
  size_lt := h.size_lt
  pad_length := List.length_replicate
  flag_length := rfl

variable {key value : List UInt8}

@[simp] theorem Rec.fresh_live (h : Storable key value) (version : UInt8)
    : (Rec.fresh h version).live = true := rfl

theorem Rec.fresh_body (h : Storable key value) (version : UInt8) :
    (Rec.fresh h version).body = recordBuffer key value version := by
  simp only [Rec.body, Rec.hi, Rec.fresh, recordBuffer, append_assoc, cons_append, nil_append]

/-- Live records can be copied. -/
theorem Rec.storable (r : Rec) : Storable r.key r.value :=
  ⟨r.key_pos, r.key_le, r.key_nul, r.key_quiet, r.value_pos, r.size_lt⟩

section Memory

variable {size : ℕ} {m m' : Mem} {log pre post : List Rec} {r : Rec}

/-- A record whose flag word was rewritten in place. -/
def Rec.withFlag (r : Rec) (flag : List UInt8) (h : flag.length = 4) : Rec :=
  { r with flag := flag, flag_length := h }

/-- Rewriting one flag word changes one record of the log. -/
theorem LogAt.rewriteFlag (h : LogAt m 0 (pre ++ r :: post)) {flag : List UInt8}
    (hl : flag.length = 4) (hf : Holds m' (total pre+r.nodeSize-4) flag)
    (ho : ∀ i, i < total (pre ++ r :: post) →
      i < total pre+r.nodeSize-4 ∨ total pre+r.nodeSize ≤ i → m' i = m i) :
    LogAt m' 0 (pre ++ r.withFlag flag hl :: post) := by
  have hge := r.nodeSize_ge
  have htot : total (pre ++ r :: post) = total pre+(r.nodeSize+total post) := by
    rw [total_append, total_cons]
  rw [logAt_append] at h ⊢
  obtain ⟨hpre, hr, hpost⟩ := h
  rw [zero_add] at hr hpost ⊢
  have hbody : Holds m (total pre) r.body := ((holds_append _ _ _ _).mp hr).1
  have hlen := r.body_length
  have hsz : (r.withFlag flag hl).nodeSize = r.nodeSize := rfl
  refine ⟨hpre.congr fun i h1 h2 => ho i (by omega) (by omega), ?_, ?_⟩
  · rw [Rec.bytes, holds_append]
    have he : total pre+(r.withFlag flag hl).body.length = total pre+r.nodeSize-4 := by
      rw [Rec.body_length, ←hsz, Rec.nodeSize]
      omega
    refine ⟨hbody.congr fun i h1 h2 => ho i ?_ ?_, by rw [he]; exact hf⟩
    · rw [Rec.nodeSize] at hge htot
      omega
    · rw [Rec.nodeSize]
      omega
  · exact hpost.congr fun i h1 h2 => ho i (by omega) (by omega)

/-- Appending behind the log. -/
theorem LogAt.append (h : LogAt m 0 log) (hr : Holds m' (total log) r.bytes)
    (ho : ∀ i, i < total log → m' i = m i) : LogAt m' 0 (log ++ [r]) := by
  rw [logAt_append, zero_add]
  exact ⟨h.congr fun i _ h2 => ho i (by omega), hr, trivial⟩

/-- Programming a fresh record into erased bytes stores it with its erased
flag word. -/
theorem holds_fresh {key value : List UInt8} (hst : Storable key value) (version : UInt8)
    {off : ℕ} (hb : Blank m off size) (hs : off+(Rec.fresh hst version).nodeSize ≤ size) :
    Holds (program m off (Rec.fresh hst version).body) off (Rec.fresh hst version).bytes := by
  have hlen := (Rec.fresh hst version).body_length
  rw [Rec.nodeSize] at hs
  rw [Rec.bytes, holds_append]
  refine ⟨holds_program (hb.mono le_rfl (by omega)), holds_of_getD 0xFF fun i hi => ?_⟩
  have hi4 : i < 4 := hi
  rw [program_outside (.inr (by omega)), hb _ (by omega) (by omega)]
  interval_cases i <;> rfl

end Memory

section Geometry

variable {id j : ℕ}

/-- Positions of different blocks do not meet. -/
theorem block_disjoint {size i o : ℕ} (hij : j ≠ i) (ho : o < size) :
    j*size+o < i*size ∨ i*size+size ≤ j*size+o := by
  rcases Nat.lt_or_gt_of_ne hij with h|h
  · left
    have hm := Nat.mul_le_mul_right size h
    rw [Nat.succ_mul] at hm
    omega
  · right
    have hm := Nat.mul_le_mul_right size h
    rw [Nat.succ_mul] at hm
    omega

theorem mem_issue_write (kv : Kvset) (id off : ℕ) (data : List UInt8) :
    (kv.issue (.write (id*kv.size+off) data)).mem id = program (kv.mem id) off data :=
  window_program kv.flash (id*kv.size) off data

theorem mem_issue_write_other (kv : Kvset) {off : ℕ} {data : List UInt8} (hj : j ≠ id)
    (hs : off+data.length ≤ kv.size) :
    Agree ((kv.issue (.write (id*kv.size+off) data)).mem j) (kv.mem j) 0 kv.size := by
  intro i _ hi
  have hd := block_disjoint hj hi
  change program kv.flash (id*kv.size+off) data (j*kv.size+i) = kv.flash (j*kv.size+i)
  exact program_outside (by omega)

theorem mem_issue_erase (kv : Kvset) (id : ℕ) :
    (kv.issue (.erase (id*kv.size) kv.size)).mem id = erase (kv.mem id) 0 kv.size :=
  window_erase kv.flash (id*kv.size) kv.size

theorem mem_issue_erase_other (kv : Kvset) (hj : j ≠ id) :
    Agree ((kv.issue (.erase (id*kv.size) kv.size)).mem j) (kv.mem j) 0 kv.size := by
  intro i _ hi
  have hd := block_disjoint hj hi
  change erase kv.flash (id*kv.size) kv.size (j*kv.size+i) = kv.flash (j*kv.size+i)
  exact erase_outside (by omega)

end Geometry

/-- A store with a sane geometry whose blocks represent logs. -/
structure StoreRep (kv : Kvset) (logs : ℕ → List Rec) : Prop where
  /-- A block holds the longest record. -/
  size_ge : 512 ≤ kv.size
  /-- Sizes are sixteen bits wide. -/
  size_lt : kv.size < 65536
  /-- Blocks consist of words. -/
  size_mod : kv.size % 4 = 0
  /-- There is a reserve block. -/
  num_ge : 2 ≤ kv.num
  /-- Every block represents its log. -/
  rep : ∀ i, i < kv.num → BlockRep kv.size (kv.mem i) (kv.blocks i) (logs i)

/-- A store that can be written to: every block can be appended to and a
block without live records is erased. -/
structure StoreReady (kv : Kvset) (logs : ℕ → List Rec) : Prop extends StoreRep kv logs where
  /-- Every block can be appended to. -/
  clean : ∀ i, i < kv.num → BlockClean kv.size (kv.mem i) (kv.blocks i) (logs i)
  /-- No block holds deleted records only. -/
  used : ∀ i, i < kv.num → liveCount (logs i) = 0 → logs i = []
  /-- The current block exists. -/
  bid_lt : kv.bid < kv.num

/-- The store after a record was appended to a block. -/
def appendRec (kv : Kvset) (id : ℕ) (r : Rec) : Kvset :=
  let b := kv.blocks id
  (kv.issue (.write (id*kv.size+b.writeOffset) r.body)).setBlock id
    { b with
      writeOffset := b.writeOffset+r.nodeSize
      kvSize := b.kvSize+r.nodeSize
      count := b.count+1 }

/-- The store after the flag word of a record was cleared. -/
def killRec (kv : Kvset) (id off : ℕ) (r : Rec) : Kvset :=
  let b := kv.blocks id
  (kv.issue (.write (id*kv.size+(off+r.nodeSize-4)) [0, 0, 0, 0])).setBlock id
    { b with
      dirtySize := b.dirtySize+r.nodeSize
      kvSize := b.kvSize-r.nodeSize
      count := b.count-1 }

/-- The store after a block was erased. -/
def clearBlock (kv : Kvset) (id : ℕ) : Kvset :=
  (kv.issue (.erase (id*kv.size) kv.size)).setBlock id { KvBlock.zero with
    roCount := (kv.blocks id).roCount }

section Steps

variable {kv : Kvset} {logs : ℕ → List Rec} {id : ℕ}

variable {op : Op} {b : KvBlock} {log : List Rec}

/-- What holds of every block holds after a step on one block that leaves the
others alone, if it holds of that block. -/
theorem blocks_step {α : Type*} {list : ℕ → α} {x : α} {P : Mem → KvBlock → α → Prop}
    (h : ∀ i, i < kv.num → P (kv.mem i) (kv.blocks i) (list i)) (hb : P ((kv.issue op).mem id) b x)
    (hcongr : ∀ i, i ≠ id → P (kv.mem i) (kv.blocks i) (list i) →
      P ((kv.issue op).mem i) (kv.blocks i) (list i)) (i : ℕ) (hi : i < kv.num) :
    P (((kv.issue op).setBlock id b).mem i) (((kv.issue op).setBlock id b).blocks i)
      (update list id x i) := by
  change P ((kv.issue op).mem i) (update kv.blocks id b i) _
  by_cases he : i = id
  · subst he
    rw [update_self, update_self]
    exact hb
  · rw [update_of_ne he, update_of_ne he]
    exact hcongr i he (h i hi)

/-- What a step on one block has to show: the block represents its new log
and the others are left alone. -/
theorem StoreRep.step (h : StoreRep kv logs) (hb : BlockRep kv.size ((kv.issue op).mem id) b log)
    (ho : ∀ j, j ≠ id → Agree ((kv.issue op).mem j) (kv.mem j) 0 kv.size) :
    StoreRep ((kv.issue op).setBlock id b) (update logs id log) where
  size_ge := h.size_ge
  size_lt := h.size_lt
  size_mod := h.size_mod
  num_ge := h.num_ge
  rep := blocks_step h.rep hb fun i he hrep => hrep.congr (ho i he)

theorem StoreReady.step (h : StoreReady kv logs)
    (hrep : StoreRep ((kv.issue op).setBlock id b) (update logs id log))
    (hc : BlockClean kv.size ((kv.issue op).mem id) b log) (hu : liveCount log = 0 → log = [])
    (ho : ∀ j, j ≠ id → Agree ((kv.issue op).mem j) (kv.mem j) 0 kv.size) :
    StoreReady ((kv.issue op).setBlock id b) (update logs id log) where
  toStoreRep := hrep
  clean := blocks_step h.clean hc fun i he hclean => hclean.congr (ho i he)
  used := (forall_update_iff logs fun i log =>
    i < kv.num → liveCount log = 0 → log = []).mpr ⟨fun _ => hu, fun i _ => h.used i⟩
  bid_lt := h.bid_lt

/-- Appending a fresh record. -/
theorem StoreReady.appendRec (h : StoreReady kv logs) (hid : id < kv.num)
    {key value : List UInt8} (hst : Storable key value) (version : UInt8)
    (hroom : total (logs id)+(Rec.fresh hst version).nodeSize+4 ≤ kv.size) :
    StoreReady (appendRec kv id (Rec.fresh hst version))
      (update logs id (logs id ++ [Rec.fresh hst version])) := by
  have hrep := h.rep id hid
  have hcl := h.clean id hid
  have hlen := (Rec.fresh hst version).body_length
  have hns : (Rec.fresh hst version).nodeSize = (Rec.fresh hst version).body.length+4 := by
    rw [hlen, Rec.nodeSize]
  have hmem := mem_issue_write kv id (total (logs id)) (Rec.fresh hst version).body
  have htot : total (logs id ++ [Rec.fresh hst version]) =
      total (logs id)+(Rec.fresh hst version).nodeSize := by
    rw [total_append, total_cons, total_nil, add_zero]
  have hlog : LogAt (program (kv.mem id) (total (logs id)) (Rec.fresh hst version).body) 0
      (logs id ++ [Rec.fresh hst version]) :=
    hrep.logAt.append (holds_fresh hst version hcl.blank (by omega))
      fun i hi => program_outside (.inl hi)
  have hblank : Blank (program (kv.mem id) (total (logs id)) (Rec.fresh hst version).body)
      (total (logs id ++ [Rec.fresh hst version])) kv.size := by
    intro i h1 h2
    rw [program_outside (.inr (by omega))]
    exact hcl.blank i (by omega) h2
  rw [PineVoice.Kv.appendRec, hcl.writeOffset]
  have hother (j : ℕ) (hj : j ≠ id) : Agree ((kv.issue
      (.write (id*kv.size+total (logs id)) (Rec.fresh hst version).body)).mem j) (kv.mem j) 0
      kv.size := mem_issue_write_other kv hj (by omega)
  refine h.step (h.toStoreRep.step ?_ hother) ?_ ?_ hother
  · rw [hmem]
    refine ⟨hlog, by omega, tailQuiet_of_blank hblank, ?_, ?_, ?_, hrep.roCount⟩
    · simp [hrep.kvSize, liveSize_append, liveSize_cons]
    · simp [hrep.dirtySize, deadSize_append, deadSize_cons]
    · simp [hrep.count, liveCount_append, liveCount_cons]
  · rw [hmem]
    exact ⟨htot.symm, hblank⟩
  · simp [liveCount_append, liveCount_cons]

section Kill

variable {pre post : List Rec} {r : Rec}

theorem killRec_rep (h : BlockRep kv.size (kv.mem id) (kv.blocks id) (pre ++ r :: post))
    (hlive : r.live = true) :
    BlockRep kv.size (program (kv.mem id) (total pre+r.nodeSize-4) [0, 0, 0, 0])
      { kv.blocks id with
        dirtySize := (kv.blocks id).dirtySize+r.nodeSize
        kvSize := (kv.blocks id).kvSize-r.nodeSize
        count := (kv.blocks id).count-1 } (pre ++ r.kill :: post) := by
  have hge := r.nodeSize_ge
  have htot : total (pre ++ r.kill :: post) = total (pre ++ r :: post) := by
    simp [total_append, total_cons]
  have hend : total pre+r.nodeSize ≤ total (pre ++ r :: post) := by
    rw [total_append, total_cons]
    omega
  refine ⟨?_, by rw [htot]; exact h.room, ?_, ?_, ?_, ?_, h.roCount⟩
  · refine h.logAt.rewriteFlag rfl (holds_program_zeros _ _) fun i _ hi => program_outside ?_
    simp only [length_cons, length_nil]
    omega
  · rw [htot]
    refine h.tail.congr (agree_program (.inr ?_))
    simp only [length_cons, length_nil]
    omega
  · simp only [h.kvSize, liveSize_append, liveSize_cons, hlive, Rec.kill_live, if_true]
    simp only [Bool.false_eq_true, if_false]
    omega
  · simp only [h.dirtySize, deadSize_append, deadSize_cons, hlive, Rec.kill_live, if_true,
      Rec.kill_nodeSize]
    simp only [Bool.false_eq_true, if_false]
    omega
  · simp only [h.count, liveCount_append, liveCount_cons, hlive, Rec.kill_live, if_true]
    simp only [Bool.false_eq_true, if_false]
    omega

theorem StoreRep.killRec (h : StoreRep kv logs) (hid : id < kv.num)
    (hlog : logs id = pre ++ r :: post) (hlive : r.live = true) :
    StoreRep (killRec kv id (total pre) r) (update logs id (pre ++ r.kill :: post)) := by
  have hrep := h.rep id hid
  rw [hlog] at hrep
  have hge := r.nodeSize_ge
  have hroom := hrep.room
  rw [total_append, total_cons] at hroom
  refine h.step ?_ fun j hj => mem_issue_write_other kv hj ?_
  · rw [mem_issue_write]
    exact killRec_rep hrep hlive
  · simp only [length_cons, length_nil]
    omega

/-- Deleting a record that is not the last live one of its block. -/
theorem StoreReady.killRec (h : StoreReady kv logs) (hid : id < kv.num)
    (hlog : logs id = pre ++ r :: post) (hlive : r.live = true)
    (hmore : 1 < liveCount (logs id)) :
    StoreReady (killRec kv id (total pre) r) (update logs id (pre ++ r.kill :: post)) := by
  have hroom := (h.rep id hid).room
  have hcl := h.clean id hid
  rw [hlog] at hroom hcl hmore
  have hge := r.nodeSize_ge
  have htot : total (pre ++ r.kill :: post) = total (pre ++ r :: post) := by
    simp [total_append, total_cons]
  rw [total_append, total_cons] at hroom
  refine h.step (h.toStoreRep.killRec hid hlog hlive) ?_ ?_
    fun j hj => mem_issue_write_other kv hj ?_
  · rw [mem_issue_write]
    refine ⟨by rw [htot]; exact hcl.writeOffset, ?_⟩
    rw [htot]
    refine hcl.blank.congr (agree_program (.inr ?_))
    simp only [length_cons, length_nil, total_append, total_cons]
    omega
  · intro hz
    simp only [liveCount_append, liveCount_cons, hlive, if_true, Rec.kill_live,
      Bool.false_eq_true, if_false] at hmore hz
    omega
  · simp only [length_cons, length_nil]
    omega

end Kill

theorem clearBlock_rep (h : StoreRep kv logs) (hid : id < kv.num) :
    BlockRep kv.size (erase (kv.mem id) 0 kv.size)
        { KvBlock.zero with roCount := (kv.blocks id).roCount } [] ∧
      BlockClean kv.size (erase (kv.mem id) 0 kv.size)
        { KvBlock.zero with roCount := (kv.blocks id).roCount } [] := by
  have hb : Blank (erase (kv.mem id) 0 kv.size) 0 kv.size := by
    have hblank := blank_erase (kv.mem id) 0 kv.size
    rwa [zero_add] at hblank
  refine blockRep_nil (by have := h.size_ge; omega) hb ?_
  rw [(h.rep id hid).roCount]
  rfl

theorem StoreRep.clearBlock (h : StoreRep kv logs) (hid : id < kv.num) :
    StoreRep (clearBlock kv id) (update logs id []) := by
  refine h.step ?_ fun j hj => mem_issue_erase_other kv hj
  rw [mem_issue_erase]
  exact (clearBlock_rep h hid).1

/-- Erasing a block. -/
theorem StoreReady.clearBlock (h : StoreReady kv logs) (hid : id < kv.num) :
    StoreReady (clearBlock kv id) (update logs id []) := by
  refine h.step (h.toStoreRep.clearBlock hid) ?_ (fun _ => rfl)
    fun j hj => mem_issue_erase_other kv hj
  rw [mem_issue_erase]
  exact (clearBlock_rep h.toStoreRep hid).2

section Source

variable {pre post : List Rec} {r : Rec}

/-- Version byte of a record that replaces one of this version. -/
def bump (version : UInt8) : UInt8 := UInt8.ofNat (nextVersion version &&& 0xFF)

theorem bump_toNat {w : UInt8} (h : w ≠ 255) : (bump w).toNat = w.toNat+1 := by
  have hlt := w.toNat_lt
  have hne : w.toNat ≠ 255 := fun he => h (UInt8.toNat_inj.mp he)
  have hand : (w.toNat+1) &&& 0xFF = (w.toNat+1) % 2^8 := Nat.and_two_pow_sub_one_eq_mod _ 8
  rw [bump, nextVersion, if_neg h, UInt8.toNat_ofNat']
  omega

/-- The store never writes version zero over an old record. -/
theorem bump_ne_zero (w : UInt8) : bump w ≠ 0 := by
  by_cases h : w = 255
  · subst h
    decide
  · intro hz
    have hb := bump_toNat h
    rw [hz] at hb
    exact absurd hb (by simp)

theorem StoreRep.room_lt (h : StoreRep kv logs) (hid : id < kv.num) :
    total (logs id)+4 ≤ kv.size ∧ kv.size < 65536 :=
  ⟨(h.rep id hid).room, h.size_lt⟩

variable {key value : List UInt8}

theorem recordBuffer_length (key value : List UInt8) (version : UInt8) :
    (recordBuffer key value version).length = align4 (key.length+value.length+6) := by
  have h := align4_spec (key.length+value.length+6)
  simp only [recordBuffer, length_append, length_cons, length_nil, length_replicate]
  omega

/-- The counters of a block after a record of this size. -/
def KvBlock.counted (b : KvBlock) (nodeSize : ℕ) : KvBlock :=
  { b with
    writeOffset := u16 (b.writeOffset+nodeSize)
    kvSize := u16 (b.kvSize+nodeSize)
    count := u16 (b.count+1) }

/-- With room and erased bytes behind the write offset `kvblock_set` programs
the record there and counts it, whatever else the block holds. -/
theorem kvblockSet_blank (hblank : Blank (kv.mem id) (kv.blocks id).writeOffset kv.size)
    (hkey : 0 < key.length) (hkey' : key.length ≤ 63) (hvalue : value.length ≤ 0x3FFFF)
    (hroom : (kv.blocks id).writeOffset+(align4 (key.length+value.length+6)+4)+4 ≤ kv.size)
    (version : ℕ) :
    kvblockSet kv id key value version = (((kv.blocks id).writeOffset : ℤ),
      (kv.issue (.write (id*kv.size+(kv.blocks id).writeOffset)
        (recordBuffer key value (UInt8.ofNat (version &&& 0xFF))))).setBlock id
        ((kv.blocks id).counted (align4 (key.length+value.length+6)+4))) := by
  have hlen := recordBuffer_length key value (UInt8.ofNat (version &&& 0xFF))
  rw [kvblockSet, if_neg (by omega)]
  generalize recordBuffer key value (UInt8.ofNat (version &&& 0xFF)) = buffer at hlen ⊢
  have hstored : Holds (program (kv.mem id) (kv.blocks id).writeOffset buffer)
      (kv.blocks id).writeOffset buffer := holds_program (hblank.mono le_rfl (by omega))
  have hread : ∀ b, readBytes ((blockWrite (kv.setBlock id b) id (kv.blocks id).writeOffset
      buffer).mem id) (kv.blocks id).writeOffset (align4 (key.length+value.length+6)) = buffer := by
    intro b
    rw [←hlen]
    exact (mem_issue_write kv id (kv.blocks id).writeOffset buffer) ▸ hstored.readBytes_eq
  simp only [kvblockAllocNode]
  rw [if_pos (by omega)]
  dsimp only
  rw [if_pos (hread _)]
  simp [Kvset.setBlock, blockWrite, Kvset.issue, KvBlock.counted]

/-- `kvblock_set` appends the record when the block has room for it. -/
theorem kvblockSet_room (h : StoreReady kv logs) (hid : id < kv.num) (hst : Storable key value)
    (version : ℕ) (hroom : total (logs id)+(align4 (key.length+value.length+6)+4)+4 ≤ kv.size) :
    kvblockSet kv id key value version = ((total (logs id) : ℤ),
      appendRec kv id (Rec.fresh hst (UInt8.ofNat (version &&& 0xFF)))) := by
  have hrep := h.rep id hid
  have hcl := h.clean id hid
  have hlt := h.size_lt
  have hsum := liveSize_add_deadSize (logs id)
  have hcount := liveCount_le_length (logs id)
  have hlen := length_mul_le_total (logs id)
  have hsz := hst.size_lt
  have hblank := hcl.blank
  have hwo := hcl.writeOffset
  rw [←hwo] at hblank hroom ⊢
  rw [kvblockSet_blank hblank hst.key_pos hst.key_le (by omega) hroom version, appendRec,
    Rec.fresh_body]
  have hwrite : u16 ((kv.blocks id).writeOffset+((align4 (key.length+value.length+6)+4 : ℕ) : ℤ)) =
      (kv.blocks id).writeOffset+(align4 (key.length+value.length+6)+4) :=
    u16_eq (by push_cast; rfl) (by omega)
  have hkv : u16 ((kv.blocks id).kvSize+((align4 (key.length+value.length+6)+4 : ℕ) : ℤ)) =
      (kv.blocks id).kvSize+(align4 (key.length+value.length+6)+4) :=
    u16_eq (by push_cast; rfl) (by rw [hrep.kvSize]; omega)
  have hone : u16 (((kv.blocks id).count : ℤ)+1) = (kv.blocks id).count+1 :=
    u16_eq (by push_cast; rfl) (by rw [hrep.count]; omega)
  rw [KvBlock.counted, hwrite, hkv, hone]
  rfl

/-- Without room `kvblock_set` changes nothing. -/
theorem kvblockSet_full (h : StoreReady kv logs) (hid : id < kv.num) (version : ℕ)
    (hfull : kv.size < total (logs id)+(align4 (key.length+value.length+6)+4)+4) :
    kvblockSet kv id key value version = (-1, kv) := by
  rw [kvblockSet]
  split
  · rfl
  · simp only [kvblockAllocNode, (h.clean id hid).writeOffset]
    rw [if_neg (by push_cast; omega)]

/-- `kvnode_rm` clears the flag of a live record that is not the last one. -/
theorem kvnodeRm_more (h : StoreRep kv logs) (hid : id < kv.num)
    (hlog : logs id = pre ++ r :: post) (hlive : r.live = true) (hmore : 1 < liveCount (logs id)) :
    kvnodeRm kv (r.node id (total pre)) = killRec kv id (total pre) r := by
  have hrep := h.rep id hid
  have hroom := h.room_lt hid
  have hsum := liveSize_add_deadSize (logs id)
  have hcount := liveCount_le_length (logs id)
  have hlen := length_mul_le_total (logs id)
  have hls : liveSize (logs id) = liveSize pre+(r.nodeSize+liveSize post) := by
    rw [hlog, liveSize_append, liveSize_cons, if_pos hlive]
  have e1 : u16 ((deadSize (logs id) : ℤ)+(r.nodeSize : ℤ)) = deadSize (logs id)+r.nodeSize :=
    u16_eq (by push_cast; rfl) (by omega)
  have e2 : u16 ((liveSize (logs id) : ℤ)-(r.nodeSize : ℤ)) = liveSize (logs id)-r.nodeSize :=
    u16_eq (by omega) (by omega)
  have e3 : u16 ((liveCount (logs id) : ℤ)-1) = liveCount (logs id)-1 :=
    u16_eq (by omega) (by omega)
  rw [kvnodeRm, if_pos ⟨by rw [Rec.node_valid, hlive], rfl⟩]
  simp only [Rec.node, hrep.count, hrep.roCount, hrep.kvSize, hrep.dirtySize, e1, e2, e3]
  rw [if_pos (by omega)]
  simp only [killRec, blockWrite, hrep.count, hrep.kvSize, hrep.dirtySize, hrep.roCount]

/-- `kvnode_rm` erases the block of its last live record. -/
theorem kvnodeRm_last (h : StoreRep kv logs) (hid : id < kv.num) (hlive : r.live = true)
    (hlast : liveCount (logs id) ≤ 1) (off : ℕ) :
    kvnodeRm kv (r.node id off) = clearBlock kv id := by
  have hrep := h.rep id hid
  rw [kvnodeRm, if_pos ⟨by rw [Rec.node_valid, hlive], rfl⟩]
  simp only [Rec.node, hrep.count]
  rw [if_neg (by omega)]
  rfl

end Source

end Steps

end PineVoice.Kv
