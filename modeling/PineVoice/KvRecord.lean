import PineVoice.KvBlock

/-!
# Records and the scanner

A record is the key, its terminator, the header, the value, the repeated size byte, padding and
the flag word. The padding and the flag are kept as they are found, so that records left behind by
a power cut are records too.
-/

namespace PineVoice.Kv

open NorFlash List

variable {c len n off size : ℕ} {bs : List UInt8} {m : Mem} {delim : Option ℕ}

theorem u16_natCast (h : n < 65536) : u16 n = n := by
  rw [u16]
  omega

theorem u16_eq {x : ℤ} (hx : x = n) (h : n < 65536) : u16 x = n := by
  rw [hx, u16_natCast h]

/-- Rounding up to words. -/
theorem align4_spec (x : ℕ) : x ≤ align4 x ∧ align4 x < x+4 ∧ align4 x % 4 = 0 := by
  rw [align4]
  split <;> omega

theorem align4_of_mod {x : ℕ} (h : x % 4 = 0) : align4 x = x := by
  rw [align4, if_neg (by omega)]

/-- The scanner passes these bytes without taking a line end for the end of
a read-only entry; the flag says whether a delimiter is pending. -/
def textQuiet : Bool → List UInt8 → Bool
  | _, [] => true
  | pending, b :: bs =>
    if b = 0 then textQuiet pending bs
    else if b = 0x3D then textQuiet true bs
    else if b = 0x0A then !pending && textQuiet false bs
    else if b = 0x0D then textQuiet pending bs
    else textQuiet (pending && isprint b) bs

/-- Text without a line end is always passed. -/
theorem textQuiet_of_not_mem (h : 0x0A ∉ bs) (pending : Bool) : textQuiet pending bs = true := by
  induction bs generalizing pending with
  | nil => rfl
  | cons b bs ih =>
    rw [mem_cons, not_or] at h
    obtain ⟨hb, hbs⟩ := h
    rw [textQuiet]
    split
    · exact ih hbs pending
    · split
      · exact ih hbs true
      · rw [if_neg fun he => hb he.symm]
        split <;> exact ih hbs _

/-- One binary record of the store. -/
structure Rec where
  /-- Key without its terminator. -/
  key : List UInt8
  /-- Stored value. -/
  value : List UInt8
  /-- Version byte. -/
  version : UInt8
  /-- Bytes between the record and its flag word. -/
  pad : List UInt8
  /-- The flag word. -/
  flag : List UInt8
  /-- Keys are not empty. -/
  key_pos : 0 < key.length
  /-- The length of a key has six bits. -/
  key_le : key.length ≤ 63
  /-- A key is a C string. -/
  key_nul : 0 ∉ key
  /-- The scanner reaches the terminator of the key. -/
  key_quiet : textQuiet false key = true
  /-- Values are not empty. -/
  value_pos : 0 < value.length
  /-- The size check of `kv_set`. -/
  size_lt : key.length+value.length < 498
  /-- The padding fills the last word. -/
  pad_length : pad.length =
    align4 (key.length+value.length+6)-(key.length+value.length+6)
  /-- The flag is one word. -/
  flag_length : flag.length = 4
deriving DecidableEq

namespace Rec

/-- Bytes taken in the block. -/
def nodeSize (r : Rec) : ℕ := align4 (r.key.length+r.value.length+6)+4

/-- The size byte stored twice. -/
def hi (r : Rec) : UInt8 := sizeHi r.key.length r.value.length

/-- A record without its flag word, as `kvblock_set` programs it. -/
def body (r : Rec) : List UInt8 :=
  r.key ++ ([0, sizeLo r.value.length, r.hi, r.version, 0x3D] ++ (r.value ++ (r.hi :: r.pad)))

/-- All bytes of the record. -/
def bytes (r : Rec) : List UInt8 := r.body ++ r.flag

/-- A record whose flag word is not all zero. -/
def live (r : Rec) : Bool := r.flag ≠ [0, 0, 0, 0]

/-- The node the scanner reports for a record at an offset. -/
def node (r : Rec) (block off : ℕ) : KvNode :=
  { rw := true
    version := r.version
    valSize := r.value.length
    eraseFlag := le32 (cString r.flag) 0
    headOffset := off
    valueOffset := off+r.key.length+5
    nextOffset := off+r.nodeSize
    nodeSize := r.nodeSize
    block := block }

/-- The record with its flag word cleared. -/
def kill (r : Rec) : Rec := { r with flag := [0, 0, 0, 0], flag_length := rfl }

@[simp] theorem kill_key (r : Rec) : r.kill.key = r.key := rfl

@[simp] theorem kill_nodeSize (r : Rec) : r.kill.nodeSize = r.nodeSize := rfl

@[simp] theorem kill_live (r : Rec) : r.kill.live = false := rfl

theorem body_length (r : Rec) : r.body.length = align4 (r.key.length+r.value.length+6) := by
  have h := align4_spec (r.key.length+r.value.length+6)
  simp only [body, length_append, length_cons, length_nil, r.pad_length]
  omega

theorem bytes_length (r : Rec) : r.bytes.length = r.nodeSize := by
  rw [bytes, length_append, body_length, r.flag_length, nodeSize]

theorem nodeSize_mod (r : Rec) : r.nodeSize % 4 = 0 := by
  have h := align4_spec (r.key.length+r.value.length+6)
  rw [nodeSize]
  omega

theorem nodeSize_ge (r : Rec) : r.key.length+r.value.length+10 ≤ r.nodeSize := by
  have h := align4_spec (r.key.length+r.value.length+6)
  rw [nodeSize]
  omega

end Rec

theorem sizeLo_toNat (size : ℕ) : (sizeLo size).toNat = size % 256 := by
  rw [sizeLo, Nat.shiftRight_zero, UInt8.toNat_ofNat']
  have h : size &&& 0xFF = size % 2^8 := Nat.and_two_pow_sub_one_eq_mod size 8
  omega

/-- The size byte holds the key length above the two high bits of the size. -/
theorem sizeHi_toNat (hl : len ≤ 63) (hs : size < 1024) :
    (sizeHi len size).toNat = 4*len+size/256 := by
  have hm : (size >>> 8) &&& 0xFF = size/256 := by
    have h : (size >>> 8) &&& 0xFF = (size >>> 8) % 2^8 := Nat.and_two_pow_sub_one_eq_mod _ 8
    omega
  have ho : size/256 ||| len <<< 2 = 4*len+size/256 := by
    have h := Nat.shiftLeft_add_eq_or_of_lt (show size/256 < 2^2 by omega) len
    rw [Nat.or_comm]
    omega
  rw [sizeHi, hm, UInt8.toNat_ofNat']
  omega

/-- Both sizes are decoded from the header they were encoded in. -/
theorem decode_sizes (hl : len ≤ 63) (hs : size < 1024) (h1 : m (c+1) = sizeLo size)
    (h2 : m (c+2) = sizeHi len size) : valueSizeAt m c = size ∧ keySizeAt m c = len := by
  rw [valueSizeAt, keySizeAt, h1, h2, sizeLo_toNat, sizeHi_toNat hl hs]
  constructor
  · have hm : ((4*len+size/256) <<< 8) &&& 0x3FF = (size/256) <<< 8 := by
      have h : ((4*len+size/256) <<< 8) &&& 0x3FF = ((4*len+size/256) <<< 8) % 2^10 :=
        Nat.and_two_pow_sub_one_eq_mod _ 10
      omega
    have ho := Nat.shiftLeft_add_eq_or_of_lt (show size % 256 < 2^8 by omega) (size/256)
    rw [hm, Nat.or_comm]
    omega
  · omega

/-- The main loop passes quiet text whose zero bytes start no record. -/
theorem searchLoop_text (size block head : ℕ) (n : ℕ) (hb : Holds m c bs)
    (hz : ∀ i, i < bs.length → m (c+i) = 0 → rwCheck size m (c+i) = false)
    (hq : textQuiet delim.isSome bs = true) :
    ∃ delim', searchLoop size m block head (bs.length+n) c delim =
      searchLoop size m block head n (c+bs.length) delim' := by
  induction bs generalizing c delim with
  | nil => exact ⟨delim, by rw [length_nil, zero_add, add_zero]⟩
  | cons b bs ih =>
    obtain ⟨hm, hr⟩ := hb
    have hn : (b :: bs).length+n = (bs.length+n)+1 := by rw [length_cons]; omega
    have hc : c+(b :: bs).length = c+1+bs.length := by rw [length_cons]; omega
    have hz0 := hz 0 (by rw [length_cons]; omega)
    have hzs : ∀ i, i < bs.length → m (c+1+i) = 0 → rwCheck size m (c+1+i) = false := by
      intro i hi
      rw [add_assoc, add_comm 1 i]
      exact hz (i+1) (by rw [length_cons]; omega)
    rw [add_zero, hm] at hz0
    rw [hn, hc, searchLoop.eq_def]
    dsimp only
    rw [hm]
    rw [textQuiet] at hq
    split_ifs at hq with h0 he hl hcr
    · rw [if_pos h0, hz0 h0]
      exact ih hr hzs hq
    · rw [if_neg h0, if_pos he]
      exact ih hr hzs hq
    · rw [if_neg h0, if_neg he, if_pos hl]
      cases delim with
      | none => exact ih hr hzs (by simpa using hq)
      | some d => simp at hq
    · rw [if_neg h0, if_neg he, if_neg hl, if_pos hcr]
      exact ih hr hzs hq
    · rw [if_neg h0, if_neg he, if_neg hl, if_neg hcr]
      apply ih hr hzs
      by_cases hp : isprint b = true <;> simpa [hp] using hq

/-- Text without a zero byte starts no record. -/
theorem text_zero (hb : Holds m c bs) (h0 : 0 ∉ bs)
    : ∀ i, i < bs.length → m (c+i) = 0 → rwCheck size m (c+i) = false := by
  intro i hi hz
  rw [hb.getD hi 0, getD_eq_getElem?_getD, getElem?_eq_getElem hi] at hz
  exact absurd (hz ▸ getElem_mem hi) h0

/-- The main loop passes quiet text without a zero byte at its start. -/
theorem searchLoop_past (block head : ℕ) (hb : Holds m c bs) (h0 : 0 ∉ bs)
    (hq : textQuiet false bs = true) (hs : c+bs.length+1 < size) :
    ∃ delim, searchLoop size m block head (size-1-c) c none =
      searchLoop size m block head ((size-2-c-bs.length)+1) (c+bs.length) delim := by
  have hfuel : size-1-c = bs.length+((size-2-c-bs.length)+1) := by omega
  rw [hfuel]
  exact searchLoop_text size block head _ hb (text_zero hb h0) hq

theorem first_ne (hb : Holds m c bs) (h0 : 0 ∉ bs) (hp : 0 < bs.length) : m c ≠ 0 := by
  cases bs with
  | nil => cases hp
  | cons b bs =>
    rw [hb.1]
    exact fun hz => h0 (hz ▸ mem_cons_self)

theorem skipZeros_of_ne (h : m c ≠ 0) : skipZeros m n c = c := by
  cases n with
  | zero => rfl
  | succ n => rw [skipZeros, if_neg h]

theorem le32_flag {flag : List UInt8} (h : Holds m off flag) (hl : flag.length = 4)
    : le32 m off = le32 (cString flag) 0 := by
  have h0 := h.getD (show 0 < flag.length by omega) 0
  have h1 := h.getD (show 1 < flag.length by omega) 0
  have h2 := h.getD (show 2 < flag.length by omega) 0
  have h3 := h.getD (show 3 < flag.length by omega) 0
  rw [add_zero] at h0
  simp only [le32, h0, h1, h2, h3, cString]

theorem Rec.node_valid (r : Rec) (block off : ℕ) : (r.node block off).valid = r.live := by
  have hz : le32 (cString r.flag) 0 = 0 ↔ r.flag = [0, 0, 0, 0] := by
    rw [le32_eq_zero]
    constructor
    · intro h
      have hl := r.flag_length
      match hf : r.flag, hl with
      | [a, b, c, d], _ =>
        rw [hf] at h
        simp only [Holds, cString, getD_cons_zero, getD_cons_succ] at h
        simp only [h]
    · intro h
      rw [h]
      simp [Holds, cString]
  simp only [Rec.node, KvNode.valid, Rec.live, ne_eq, hz]

section Search

variable {size : ℕ} {m : Mem} {off : ℕ}

variable {r : Rec}

section

variable (h : Holds m off r.bytes)
include h

/-- The bytes of a stored record, piece by piece. -/
theorem Rec.holds_bytes :
    Holds m off r.key ∧ m (off+r.key.length) = 0 ∧
      m (off+r.key.length+1) = sizeLo r.value.length ∧ m (off+r.key.length+2) = r.hi ∧
      m (off+r.key.length+3) = r.version ∧ m (off+r.key.length+4) = 0x3D ∧
      Holds m (off+r.key.length+5) r.value ∧
      m (off+r.key.length+r.value.length+5) = r.hi ∧ Holds m (off+r.nodeSize-4) r.flag := by
  rw [Rec.bytes, holds_append, Rec.body_length] at h
  obtain ⟨hb, hf⟩ := h
  rw [Rec.body, holds_append, holds_append, holds_append] at hb
  obtain ⟨hk, ⟨h0, h1, h2, h3, h4, _⟩, hv, hh, _⟩ := hb
  simp only [length_cons, length_nil] at hv hh
  refine ⟨hk, h0, h1, h2, h3, h4, hv, ?_, ?_⟩
  · rw [←hh]
    congr 1
    omega
  · exact hf

/-- At the terminator of a stored record the tests of the scanner pass and
the reported node is the record. -/
theorem Rec.rwNode_eq (block : ℕ) (hs : off+r.nodeSize ≤ size) (hsize : size < 65536) :
    rwCheck size m (off+r.key.length) = true ∧
      rwNode m block (off+r.key.length) = r.node block off := by
  obtain ⟨-, -, h1, h2, h3, h4, -, hh, hf⟩ := Rec.holds_bytes h
  have hsz := r.size_lt
  have hge := r.nodeSize_ge
  obtain ⟨hv, hk⟩ := decode_sizes r.key_le (by omega : r.value.length < 1024) h1 h2
  constructor
  · simp only [rwCheck, hv, h4, h2, hh, decide_eq_true_eq, true_and, and_true]
    omega
  · have hhead : u16 (((off+r.key.length : ℕ) : ℤ)-(r.key.length : ℕ)) = off :=
      u16_eq (by push_cast; ring) (by omega)
    have hval : u16 (((off+r.key.length : ℕ) : ℤ)+5) = off+r.key.length+5 :=
      u16_eq (by push_cast; ring) (by omega)
    have hnext : u16 ((off : ℤ)+((align4 (r.key.length+r.value.length+6)+4 : ℕ) : ℤ)) =
        off+r.nodeSize := u16_eq (by rw [Rec.nodeSize]; push_cast; ring) (by omega)
    have hflag : le32 m (off+(align4 (r.key.length+r.value.length+6)+4)-4) =
        le32 (cString r.flag) 0 := le32_flag hf r.flag_length
    simp only [rwNode, Rec.node, hv, hk, h3, hhead, hval, hnext, Nat.add_sub_cancel, hflag,
      Rec.nodeSize]

/-- The scanner started at a record reports this record. -/
theorem kvblockSearch_rec (block : ℕ) (hs : off+r.nodeSize ≤ size) (hsize : size < 65536) :
    kvblockSearch size m block off = some (r.node block off) := by
  have hge := r.nodeSize_ge
  obtain ⟨hk, h0, -⟩ := Rec.holds_bytes h
  obtain ⟨hc, hn⟩ := Rec.rwNode_eq h block hs hsize
  obtain ⟨delim, he⟩ := searchLoop_past block off hk r.key_nul r.key_quiet (show _ < size by omega)
  rw [kvblockSearch, skipZeros_of_ne (first_ne hk r.key_nul r.key_pos), he, searchLoop.eq_def]
  dsimp only
  rw [if_pos h0, if_pos hc, hn]

end

end Search

/-- Nothing behind an offset of a block is taken for a record, whatever the
memory holds before that offset and behind the block. -/
def TailQuiet (size : ℕ) (m : Mem) (off : ℕ) : Prop :=
  ∀ m', Agree m' m off size → ∀ block, kvblockSearch size m' block off = none

theorem TailQuiet.congr {m' : Mem} (h : TailQuiet size m off) (ha : Agree m' m off size)
    : TailQuiet size m' off :=
  fun m'' h' => h m'' (h'.trans ha)

theorem searchLoop_blank {block head : ℕ} (h : Blank m c (c+n))
    : searchLoop size m block head n c delim = none := by
  induction n generalizing c delim with
  | zero => rfl
  | succ n ih =>
    have hc : m c = 0xFF := h c le_rfl (by omega)
    have hr : Blank m (c+1) (c+1+n) := h.mono (by omega) (by omega)
    rw [searchLoop.eq_def]
    dsimp only
    rw [hc]
    exact ih hr

/-- Erased bytes are never taken for a record. -/
theorem tailQuiet_of_blank (h : Blank m off size) : TailQuiet size m off := by
  intro m' ha block
  have hb := h.congr ha
  rw [kvblockSearch]
  by_cases hs : off < size
  · have h0 : m' off ≠ 0 := by
      rw [hb off le_rfl hs]
      decide
    rw [skipZeros_of_ne h0]
    exact searchLoop_blank (hb.mono le_rfl (by omega))
  · rw [show size-off = 0 by omega, skipZeros, show size-1-off = 0 by omega, searchLoop]

end PineVoice.Kv
