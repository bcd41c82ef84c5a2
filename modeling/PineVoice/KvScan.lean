import PineVoice.KvUpdate

/-!
# Scanning a block at start

`kvblock_init` rebuilds the counters of a block from its records and erases a block without live
records unless it is erased already. The tail loop only matters behind a torn write.
-/

namespace PineVoice.Kv

open Function NorFlash AosHash

/-- A record in the store. -/
structure Place where
  /-- Block of the record. -/
  block : ℕ
  /-- Offset of its key. -/
  off : ℕ
  /-- The record. -/
  record : Rec

/-- What the cache keeps of a record. -/
def Place.entry (p : Place) : List UInt8 × CacheNode := (p.record.key, ⟨u16 p.block, p.off⟩)

/-- The live records of a log. -/
def liveAt (block : ℕ) : ℕ → List Rec → List Place
  | _, [] => []
  | off, r :: log =>
    if r.live then ⟨block, off, r⟩ :: liveAt block (off+r.nodeSize) log
    else liveAt block (off+r.nodeSize) log

/-- One live record entered into the cache. -/
def note (cache : KeyCache) (x : List UInt8 × CacheNode) : KeyCache :=
  match hashGet2 cache.map x.1 with
  | some _ => { cache with head := cache.head ++ [x] }
  | none =>
    let r := kvCacheNodeGet cache.nodes
    { cache with nodes := r.2.set r.1 x.2, map := hashSet cache.map x.1 r.1 }

/-- Live records entered into the cache one after the other. -/
def noteAll (cache : KeyCache) (places : List Place) : KeyCache :=
  (places.map Place.entry).foldl note cache

section Records

variable {size : ℕ} {m : Mem} {log : List Rec}

variable {off : ℕ} {r : Rec} {b : KvBlock}

theorem iterCache_rec (block : ℕ) (h : Holds m off r.bytes) (hs : 63 < size) (cache : KeyCache) :
    iterCache size m (r.node block off) cache = note cache (Place.entry ⟨block, off, r⟩) := by
  have hk : cstrAt m (r.node block off).headOffset size = r.key := Rec.cstrAt_key h hs
  simp only [iterCache, hk]
  rfl

/-- The counters behind one more record. -/
def KvBlock.count1 (b : KvBlock) (off : ℕ) (r : Rec) : KvBlock :=
  { b with
    writeOffset := off+r.nodeSize
    kvSize := b.kvSize+(if r.live then r.nodeSize else 0)
    dirtySize := b.dirtySize+(if r.live then 0 else r.nodeSize)
    count := b.count+(if r.live then 1 else 0) }

theorem iterCalc_rec (block : ℕ) (hoff : off % 4 = 0) (hend : off+r.nodeSize < 65536)
    (hkv : b.kvSize ≤ off) (hd : b.dirtySize ≤ off) (hc : b.count ≤ off)
    : iterCalc (r.node block off) b = b.count1 off r := by
  have hmod := r.nodeSize_mod
  have hlen : ((r.node block off).nextOffset : ℤ)-(r.node block off).headOffset = r.nodeSize := by
    simp only [Rec.node]
    push_cast
    ring
  have hwo : u16 ((align4 (r.node block off).nextOffset : ℕ) : ℤ) = off+r.nodeSize := by
    rw [show (r.node block off).nextOffset = off+r.nodeSize from rfl,
      align4_of_mod (by omega), u16_natCast hend]
  have e1 : u16 ((b.kvSize : ℤ)+(r.nodeSize : ℤ)) = b.kvSize+r.nodeSize :=
    u16_eq (by push_cast; rfl) (by omega)
  have e2 : u16 ((b.dirtySize : ℤ)+(r.nodeSize : ℤ)) = b.dirtySize+r.nodeSize :=
    u16_eq (by push_cast; rfl) (by omega)
  have e3 : u16 ((b.count : ℤ)+1) = b.count+1 := u16_eq (by push_cast; rfl) (by omega)
  simp only [iterCalc, hlen, hwo, Rec.node_valid, e1, e2, e3, KvBlock.count1]
  cases r.live with
  | false => simp
  | true => simp [Rec.node]

/-- Scanning a log counts its records and enters the live ones. -/
theorem iterCalcAll_log (block : ℕ) (hl : LogAt m off log) (hs : 63 < size) (hoff : off % 4 = 0)
    (hend : off+total log < 65536) (hwo : b.writeOffset = off) (hkv : b.kvSize ≤ off)
    (hd : b.dirtySize ≤ off) (hc : b.count ≤ off) (cache : KeyCache) :
    iterNodes false (iterCalcAll size m) (logNodes block off log) (b, cache) = ({ b with
          writeOffset := off+total log
          kvSize := b.kvSize+liveSize log
          dirtySize := b.dirtySize+deadSize log
          count := b.count+liveCount log }, noteAll cache (liveAt block off log)) := by
  induction log generalizing off b cache with
  | nil =>
    simp only [←hwo]
    rfl
  | cons r log ih =>
    have hmod := r.nodeSize_mod
    have hge := r.nodeSize_ge
    rw [total_cons, ←Nat.add_assoc] at hend
    have hcache : (if (r.node block off).valid = true then
        iterCache size m (r.node block off) cache else cache) =
        if r.live then note cache (Place.entry ⟨block, off, r⟩) else cache := by
      rw [Rec.node_valid, iterCache_rec block hl.1 hs]
    have hbound : (b.count1 off r).kvSize ≤ off+r.nodeSize ∧
        (b.count1 off r).dirtySize ≤ off+r.nodeSize ∧ (b.count1 off r).count ≤ off+r.nodeSize := by
      simp only [KvBlock.count1]
      split <;> omega
    rw [logNodes, iterNodes]
    simp only [iterCalcAll]
    rw [iterCalc_rec block hoff (by omega) hkv hd hc, hcache,
      ih hl.2 (by omega) hend rfl hbound.1 hbound.2.1 hbound.2.2]
    refine Prod.ext ?_ ?_
    · simp [KvBlock.count1, total_cons, liveSize_cons, deadSize_cons, liveCount_cons, Nat.add_assoc]
    · rw [liveAt]
      cases r.live with
      | false => rfl
      | true => rfl

end Records

section Tail

variable {size : ℕ} {m : Mem} {log : List Rec}

/-- Behind the log the block is erased: the tail loop finds nothing. -/
theorem calcTail_blank {lo : ℕ} (hb : Blank m lo size) (hs : 512 ≤ size) (n v wo : ℕ)
    (hv : lo ≤ v) : calcTail m 0xFFFFFFFF n v wo = wo := by
  induction n generalizing v with
  | zero => rfl
  | succ n ih =>
    rw [calcTail]
    split
    · rw [if_neg (not_not.mpr (le32_blank hb hv (by omega)))]
      exact ih (v+4) (by omega)
    · rfl

/-- A block that is not erased although it has no live records is erased
already, as its last word is. -/
theorem blank_of_mustErase (hs : 512 ≤ size) (hmod : size % 4 = 0) (hl : Blank m (size-4) size)
    (h : mustErase size m = false) : Blank m 0 size := by
  rw [mustErase, Bool.or_eq_false_iff, List.any_eq_false] at h
  have hw : ∀ i, i < size/4 → le32 m (4*i) = le32 m 0 := by
    intro i hi
    have hi' := h.1 i (List.mem_range.mpr hi)
    rcases Nat.eq_zero_or_pos i with rfl|hpos
    · rfl
    · have himp : 1 ≤ i → le32 m (4*i) = le32 m 0 := by simpa using hi'
      exact himp hpos
  have h0 : le32 m 0 = 0xFFFFFFFF := by
    rw [←hw (size/4-1) (by omega), show 4*(size/4-1) = size-4 by omega]
    exact le32_blank hl le_rfl (by omega)
  intro i _ hi
  exact blank_of_le32 ((hw (i/4) (by omega)).trans h0) i (by omega) (by omega)

/-- What a block holds before the scan. -/
structure BlockImage (size : ℕ) (m : Mem) (log : List Rec) : Prop where
  /-- The records are stored from offset zero on. -/
  logAt : LogAt m 0 log
  /-- The last word of the block is never used. -/
  room : total log+4 ≤ size
  /-- No record behind the log. -/
  tail : TailQuiet size m (total log)
  /-- The last word is erased. -/
  last : Blank m (size-4) size

theorem BlockImage.congr {m' : Mem} (h : BlockImage size m log) (ha : Agree m' m 0 size) :
    BlockImage size m' log :=
  { h with
    logAt := h.logAt.congr (ha.mono le_rfl (by have := h.room; omega))
    tail := h.tail.congr (ha.mono (Nat.zero_le _) le_rfl)
    last := h.last.congr (ha.mono (Nat.zero_le _) le_rfl) }

/-- An erased block holds no record. -/
theorem BlockImage.eq_nil (h : BlockImage size m log) (hb : Blank m 0 size)
    (hz : liveCount log = 0) : log = [] := by
  cases log with
  | nil => rfl
  | cons r log =>
    have hroom := h.room
    have hlen := r.body_length
    rw [total_cons] at hroom
    rw [liveCount_cons] at hz
    have hflag : r.flag = [0, 0, 0, 0] := by
      by_contra hne
      rw [if_pos (by simpa [Rec.live] using hne)] at hz
      omega
    have hh := h.logAt.1
    rw [Rec.bytes, holds_append, hflag] at hh
    have h0 : m (0+r.body.length) = 0 := hh.2.1
    rw [hb _ (Nat.zero_le _) (by rw [hlen]; rw [Rec.nodeSize] at hroom; omega)] at h0
    exact absurd h0 (by decide)

/-- What the scan leaves of a log. -/
def settle (log : List Rec) : List Rec := if liveCount log = 0 then [] else log

end Tail

section Init

variable {s : InitState} {i : ℕ} {log : List Rec}

/-- The counters `kvblock_calc` finds for a log. -/
def scanned (size : ℕ) (m : Mem) (log : List Rec) : KvBlock where
  writeOffset := calcTail m (le32 m (size-4)) 128 (total log) (total log)
  kvSize := liveSize log
  dirtySize := deadSize log
  count := liveCount log
  roCount := 0

/-- A call of `kvblock_init`, with what it enters into the cache: the other blocks stay. -/
structure BlockInit (s : InitState) (i : ℕ) (xs : List (List UInt8 × CacheNode)) (kv : Kvset) :
    Prop extends SameFrame s.kv kv where
  /-- The result. -/
  init : kvblockInit s i = some { s with kv := kv, cache := xs.foldl note s.cache }
  /-- The other blocks stay. -/
  other : ∀ j, j ≠ i → kv.blocks j = s.kv.blocks j ∧ Agree (kv.mem j) (s.kv.mem j) 0 s.kv.size

/-- `kvblock_init` behind its scan: the block is erased or stays. -/
theorem kvblockInit_scan {b : KvBlock} {xs : List (List UInt8 × CacheNode)} {w : ℕ}
    (hzero : s.kv.blocks i = .zero)
    (hscan : kvblockIter s.kv.size (s.kv.mem i) i false (iterCalcAll s.kv.size (s.kv.mem i))
      iterFuel 0 (.zero, s.cache) = some (b, xs.foldl note s.cache))
    (htail : calcTail (s.kv.mem i) (le32 (s.kv.mem i) (s.kv.size-4)) 128 b.writeOffset
      b.writeOffset = w) :
    ∃ kv, BlockInit s i xs kv ∧ if b.count = 0 ∧ mustErase s.kv.size (s.kv.mem i) = true then
        Blank (kv.mem i) 0 s.kv.size ∧
          kv.blocks i = { b with writeOffset := 0, kvSize := 0, dirtySize := 0, count := 0 }
      else kv.mem i = s.kv.mem i ∧ kv.blocks i = { b with writeOffset := w } := by
  have hstart : ({ s.kv.blocks i with dirtySize := 0, kvSize := 0, count := 0, roCount := 0 } :
      KvBlock) = .zero := by
    rw [hzero]
    rfl
  split_ifs with herase
  · have hmem : (kvblockGc (s.kv.setBlock i { b with writeOffset := w }) i).mem i =
        erase (s.kv.mem i) 0 s.kv.size := mem_issue_erase s.kv i
    have hblank := blank_erase (s.kv.mem i) 0 s.kv.size
    rw [Nat.zero_add, ←hmem] at hblank
    refine ⟨kvblockGc (s.kv.setBlock i { b with writeOffset := w }) i, ⟨⟨rfl, rfl, rfl, rfl⟩, ?_,
      fun j hj => ⟨?_, mem_issue_erase_other s.kv hj⟩⟩, hblank, ?_⟩
    · simp only [kvblockInit, hstart, hscan, Option.map_some, htail, if_pos herase]
    · simp only [kvblockGc, blockErase, Kvset.issue, Kvset.setBlock, update_of_ne hj]
    · simp only [kvblockGc, blockErase, Kvset.issue, Kvset.setBlock, update_self]
  · refine ⟨s.kv.setBlock i { b with writeOffset := w }, ⟨⟨rfl, rfl, rfl, rfl⟩, ?_, fun j hj =>
      ⟨update_of_ne hj _ _, Agree.refl _ _ _⟩⟩, rfl, update_self _ _ _⟩
    simp only [kvblockInit, hstart, hscan, Option.map_some, htail, if_neg herase]

/-- `kvblock_init` represents the log of its block, without deleted records
if there are no others. -/
theorem kvblockInit_spec (hs : 512 ≤ s.kv.size) (hlt : s.kv.size < 65536)
    (hmod : s.kv.size % 4 = 0) (himg : BlockImage s.kv.size (s.kv.mem i) log)
    (hzero : s.kv.blocks i = .zero) :
    ∃ kv, BlockInit s i ((liveAt i 0 log).map Place.entry) kv ∧
      BlockRep s.kv.size (kv.mem i) (kv.blocks i) (settle log) ∧
      (Blank (s.kv.mem i) (total log) s.kv.size ∨ liveCount log = 0 →
        BlockClean s.kv.size (kv.mem i) (kv.blocks i) (settle log)) := by
  have hroom := himg.room
  have hmagic : le32 (s.kv.mem i) (s.kv.size-4) = 0xFFFFFFFF :=
    le32_blank himg.last le_rfl (by omega)
  have hscan := iterCalcAll_log (b := .zero) i himg.logAt (show 63 < s.kv.size by omega) rfl
    (by omega) rfl le_rfl le_rfl le_rfl s.cache
  have hiter := kvblockIter_log i false (iterCalcAll s.kv.size (s.kv.mem i))
    (KvBlock.zero, s.cache) himg.logAt hroom hlt himg.tail
  rw [hscan] at hiter
  simp only [KvBlock.zero, Nat.zero_add] at hiter
  obtain ⟨kv, hinit, hkv⟩ := kvblockInit_scan hzero hiter rfl
  refine ⟨kv, hinit, ?_⟩
  by_cases hz : liveCount log = 0
  · rw [settle, if_pos hz]
    suffices hnil : Blank (kv.mem i) 0 s.kv.size ∧ kv.blocks i = .zero by
      obtain ⟨hrep, hcl⟩ := blockRep_nil (by omega) hnil.1 hnil.2
      exact ⟨hrep, fun _ => hcl⟩
    by_cases hme : mustErase s.kv.size (s.kv.mem i) = true
    · rwa [if_pos ⟨hz, hme⟩] at hkv
    · rw [if_neg fun hc => hme hc.2] at hkv
      have hb := blank_of_mustErase hs hmod himg.last (Bool.not_eq_true _ ▸ hme)
      obtain rfl := himg.eq_nil hb hz
      rw [hkv.1, hkv.2, hmagic, calcTail_blank hb hs 128 (total []) _ (Nat.zero_le _)]
      exact ⟨hb, rfl⟩
  · rw [if_neg fun hc => hz hc.1] at hkv
    have hself : kv.blocks i = scanned s.kv.size (s.kv.mem i) log := hkv.2
    rw [settle, if_neg hz, hkv.1, hself]
    refine ⟨⟨himg.logAt, himg.room, himg.tail, rfl, rfl, rfl, rfl⟩, fun hb => ?_⟩
    have hblank := hb.resolve_right hz
    refine ⟨?_, hblank⟩
    rw [scanned, hmagic, calcTail_blank hblank hs 128 _ _ le_rfl]

end Init

end PineVoice.Kv
