import PineVoice.KvRecord

/-!
# A block as a log of records

The faithful counters and bytes of a block represent a list of records
followed by bytes that hold no record. Scanning, searching, appending and
deleting are then operations on that list.
-/

namespace PineVoice.Kv

open NorFlash List

/-- Bytes taken by a log. -/
def total (log : List Rec) : ℕ := (log.map Rec.nodeSize).sum

/-- Bytes taken by its live records. -/
def liveSize (log : List Rec) : ℕ := ((log.filter Rec.live).map Rec.nodeSize).sum

/-- Bytes taken by its deleted records. -/
def deadSize (log : List Rec) : ℕ := ((log.filter fun r => !r.live).map Rec.nodeSize).sum

/-- Number of its live records. -/
def liveCount (log : List Rec) : ℕ := (log.filter Rec.live).length

@[simp] theorem total_nil : total [] = 0 := rfl

@[simp] theorem liveSize_nil : liveSize [] = 0 := rfl

@[simp] theorem deadSize_nil : deadSize [] = 0 := rfl

@[simp] theorem liveCount_nil : liveCount [] = 0 := rfl

theorem total_cons (r : Rec) (log : List Rec) : total (r :: log) = r.nodeSize+total log := by
  simp only [total, map_cons, sum_cons]

theorem total_append (xs ys : List Rec) : total (xs ++ ys) = total xs+total ys := by
  simp only [total, map_append, sum_append]

theorem liveSize_cons (r : Rec) (log : List Rec) :
    liveSize (r :: log) = (if r.live then r.nodeSize else 0)+liveSize log := by
  cases hr : r.live <;> simp [liveSize, hr]

theorem liveSize_append (xs ys : List Rec) : liveSize (xs ++ ys) = liveSize xs+liveSize ys := by
  simp only [liveSize, filter_append, map_append, sum_append]

theorem deadSize_cons (r : Rec) (log : List Rec) :
    deadSize (r :: log) = (if r.live then 0 else r.nodeSize)+deadSize log := by
  cases hr : r.live <;> simp [deadSize, hr]

theorem deadSize_append (xs ys : List Rec) : deadSize (xs ++ ys) = deadSize xs+deadSize ys := by
  simp only [deadSize, filter_append, map_append, sum_append]

theorem liveCount_cons (r : Rec) (log : List Rec) :
    liveCount (r :: log) = (if r.live then 1 else 0)+liveCount log := by
  cases hr : r.live <;> simp [liveCount, hr, add_comm]

theorem liveCount_cons_eq_zero {r : Rec} {log : List Rec} :
    liveCount (r :: log) = 0 ↔ r.live = false ∧ liveCount log = 0 := by
  cases hr : r.live <;> simp [liveCount, hr]

theorem liveCount_append (xs ys : List Rec) : liveCount (xs ++ ys) = liveCount xs+liveCount ys := by
  simp only [liveCount, filter_append, length_append]

/-- Every record is either live or deleted. -/
theorem liveSize_add_deadSize (log : List Rec) : liveSize log+deadSize log = total log := by
  induction log with
  | nil => rfl
  | cons r log ih =>
    rw [liveSize_cons, deadSize_cons, total_cons]
    split <;> omega

/-- Records are aligned. -/
theorem total_mod (log : List Rec) : total log % 4 = 0 := by
  induction log with
  | nil => rfl
  | cons r log ih =>
    have h := r.nodeSize_mod
    rw [total_cons]
    omega

theorem liveSize_mod (log : List Rec) : liveSize log % 4 = 0 := total_mod (log.filter Rec.live)

variable {log : List Rec} {m m' : Mem} {off size : ℕ} {b : KvBlock}

/-- A live record takes space. -/
theorem liveSize_pos : 0 < liveSize log ↔ 0 < liveCount log := by
  induction log with
  | nil => exact Iff.rfl
  | cons r log ih =>
    have h := r.nodeSize_ge
    rw [liveSize_cons, liveCount_cons]
    split <;> omega

/-- Records are at least twelve bytes long. -/
theorem length_mul_le_total (log : List Rec) : 12*log.length ≤ total log := by
  induction log with
  | nil => exact le_rfl
  | cons r log ih =>
    have h := r.nodeSize_ge
    have hk := r.key_pos
    have hv := r.value_pos
    rw [total_cons, length_cons]
    omega

theorem liveCount_le_length (log : List Rec) : liveCount log ≤ log.length :=
  length_filter_le _ _

/-- The records of a log are stored one behind the other. -/
def LogAt (m : Mem) : ℕ → List Rec → Prop
  | _, [] => True
  | off, r :: log => Holds m off r.bytes ∧ LogAt m (off+r.nodeSize) log

/-- The nodes the scanner reports for a log. -/
def logNodes (block : ℕ) : ℕ → List Rec → List KvNode
  | _, [] => []
  | off, r :: log => r.node block off :: logNodes block (off+r.nodeSize) log

theorem logAt_append (m : Mem) (off : ℕ) (xs ys : List Rec) :
    LogAt m off (xs ++ ys) ↔ LogAt m off xs ∧ LogAt m (off+total xs) ys := by
  induction xs generalizing off with
  | nil => simp [LogAt]
  | cons x xs ih =>
    simp only [cons_append, LogAt, ih, total_cons, add_assoc, and_assoc]

/-- The log depends on its bytes only. -/
theorem LogAt.congr (h : LogAt m off log) (ha : Agree m' m off (off+total log))
    : LogAt m' off log := by
  induction log generalizing off with
  | nil => trivial
  | cons r log ih =>
    rw [total_cons] at ha
    refine ⟨h.1.congr (ha.mono le_rfl ?_), ih h.2 (ha.mono (by omega) (by omega))⟩
    rw [r.bytes_length]
    omega

/-- Fold over nodes as `kvblock_iter` does, up to the first nonzero return. -/
def iterNodes {σ : Type} (onlyValid : Bool) (fn : KvNode → σ → σ × ℤ) : List KvNode → σ → σ
  | [], s => s
  | node :: nodes, s =>
    if onlyValid = false ∨ node.valid = true then
      let r := fn node s
      if r.2 ≠ 0 then r.1 else iterNodes onlyValid fn nodes r.1
    else iterNodes onlyValid fn nodes s

/-- The scanner reports these nodes one behind the other, and nothing behind them. -/
def Reports (size : ℕ) (m : Mem) (block : ℕ) : ℕ → List KvNode → Prop
  | off, [] => kvblockSearch size m block off = none
  | off, node :: nodes =>
    kvblockSearch size m block off = some node ∧ Reports size m block node.nextOffset nodes

/-- Iterating over bytes is iterating over the nodes that are reported. -/
theorem Reports.iter {σ : Type} {block : ℕ} {nodes : List KvNode} {n : ℕ}
    (h : Reports size m block off nodes) (hn : nodes.length < n) (onlyValid : Bool)
    (fn : KvNode → σ → σ × ℤ) (s : σ) :
    kvblockIter size m block onlyValid fn n off s = some (iterNodes onlyValid fn nodes s) := by
  obtain ⟨n, rfl⟩ : ∃ n', n = n'+1 := ⟨n-1, by omega⟩
  induction nodes generalizing off n s with
  | nil =>
    rw [kvblockIter, show kvblockSearch size m block off = none from h]
    rfl
  | cons node nodes ih =>
    rw [length_cons] at hn
    obtain ⟨n, rfl⟩ : ∃ n', n = n'+1 := ⟨n-1, by omega⟩
    rw [kvblockIter, h.1]
    simp only [iterNodes]
    split
    · split
      · rfl
      · exact ih h.2 _ n (by omega)
    · exact ih h.2 _ n (by omega)

theorem logNodes_length (block off : ℕ) (log : List Rec) :
    (logNodes block off log).length = log.length := by
  induction log generalizing off <;> simp [logNodes, *]

/-- The scanner reports the log. -/
theorem LogAt.reports (block : ℕ) (hl : LogAt m off log) (hs : off+total log ≤ size)
    (hsize : size < 65536) (ht : TailQuiet size m (off+total log)) :
    Reports size m block off (logNodes block off log) := by
  induction log generalizing off with
  | nil => exact ht m (Agree.refl m off size) block
  | cons r log ih =>
    rw [total_cons, ←add_assoc] at hs ht
    exact ⟨kvblockSearch_rec hl.1 block (by omega) hsize, ih hl.2 hs ht⟩

/-- Iterating over the bytes of a log is iterating over its records. -/
theorem kvblockIter_log {σ : Type} (block : ℕ) (onlyValid : Bool) (fn : KvNode → σ → σ × ℤ) (s : σ)
    (hl : LogAt m 0 log) (hs : total log+4 ≤ size) (hsize : size < 65536)
    (ht : TailQuiet size m (total log)) :
    kvblockIter size m block onlyValid fn iterFuel 0 s =
      some (iterNodes onlyValid fn (logNodes block 0 log) s) := by
  have hlen := length_mul_le_total log
  refine (hl.reports block (by omega) hsize (by rwa [zero_add])).iter ?_ onlyValid fn s
  rw [logNodes_length, iterFuel]
  omega

/-- What a block represents: a log, nothing behind it that the scanner takes
for a record, and counters that agree with the log. -/
structure BlockRep (size : ℕ) (m : Mem) (b : KvBlock) (log : List Rec) : Prop where
  /-- The records are stored from offset zero on. -/
  logAt : LogAt m 0 log
  /-- The last word of the block is never used. -/
  room : total log+4 ≤ size
  /-- No record behind the log. -/
  tail : TailQuiet size m (total log)
  /-- Live bytes. -/
  kvSize : b.kvSize = liveSize log
  /-- Deleted bytes. -/
  dirtySize : b.dirtySize = deadSize log
  /-- Live records. -/
  count : b.count = liveCount log
  /-- No read-only records. -/
  roCount : b.roCount = 0

/-- A block that can be appended to: erased behind the log, and the write
offset stands there. -/
structure BlockClean (size : ℕ) (m : Mem) (b : KvBlock) (log : List Rec) : Prop where
  /-- The write offset is the end of the log. -/
  writeOffset : b.writeOffset = total log
  /-- Everything behind the log is erased. -/
  blank : Blank m (total log) size

theorem BlockRep.congr (h : BlockRep size m b log) (ha : Agree m' m 0 size)
    : BlockRep size m' b log :=
  { h with
    logAt := h.logAt.congr (ha.mono le_rfl (by have := h.room; omega))
    tail := h.tail.congr (ha.mono (Nat.zero_le _) le_rfl) }

theorem BlockClean.congr (h : BlockClean size m b log) (ha : Agree m' m 0 size)
    : BlockClean size m' b log :=
  ⟨h.writeOffset, h.blank.congr (ha.mono (Nat.zero_le _) le_rfl)⟩

/-- An erased block with zero counters represents the empty log. -/
theorem blockRep_nil (hs : 4 ≤ size) (hb : Blank m 0 size) (h : b = .zero)
    : BlockRep size m b [] ∧ BlockClean size m b [] := by
  subst h
  exact ⟨⟨trivial, by rw [total_nil]; omega, tailQuiet_of_blank hb, rfl, rfl, rfl, rfl⟩, rfl, hb⟩

section Find

theorem keycmpLoop_succ (s d : Mem) (n i : ℕ) : keycmpLoop s d (n+1) i = 0 ↔
    if s i ≠ 0 ∧ s i = d i then keycmpLoop s d n (i+1) = 0 else s i = d i := by
  rw [keycmpLoop]
  split
  · rfl
  · rw [Int.sub_eq_zero, Nat.cast_inj, UInt8.toNat_inj]

/-- The comparison loop finds two stored strings equal exactly when they
are. -/
theorem keycmpLoop_eq_zero {s d : Mem} {ks ds : List UInt8} {n i : ℕ}
    (hs : Holds s i (ks ++ [0])) (hd : Holds d i (ds ++ [0])) (hk : 0 ∉ ks) (h0 : 0 ∉ ds)
    (hn : ds.length < n) : keycmpLoop s d n i = 0 ↔ ks = ds := by
  obtain ⟨n, rfl⟩ : ∃ n', n = n'+1 := ⟨n-1, by omega⟩
  induction ds generalizing ks n i with
  | nil =>
    rw [keycmpLoop_succ, show d i = 0 from hd.1]
    cases ks with
    | nil => simp [show s i = 0 from hs.1]
    | cons k ks =>
      rw [mem_cons, not_or] at hk
      simp [show s i = k from hs.1, Ne.symm hk.1]
  | cons x ds ih =>
    rw [mem_cons, not_or] at h0
    rw [length_cons] at hn
    obtain ⟨n, rfl⟩ : ∃ n', n = n'+1 := ⟨n-1, by omega⟩
    rw [keycmpLoop_succ, show d i = x from hd.1]
    cases ks with
    | nil => simp [show s i = 0 from hs.1, h0.1]
    | cons k ks =>
      rw [mem_cons, not_or] at hk
      rw [show s i = k from hs.1, ih hs.2 hd.2 hk.2 h0.2 n (by omega)]
      by_cases he : k = x <;> simp [he, Ne.symm h0.1]

/-- A key handed to the store is a C string. -/
theorem holds_cString (key : List UInt8) : Holds (cString key) 0 (key ++ [0]) := by
  refine holds_of_getD 0 fun i hi => ?_
  rw [cString]
  rcases lt_or_ge i key.length with hlt|hge
  · simp [getElem?_append_left hlt]
  · rw [length_append, length_singleton] at hi
    rw [show i = key.length by omega]
    simp

variable {m : Mem} {off : ℕ} {r : Rec} {key : List UInt8} {log : List Rec} {node : KvNode}

theorem Rec.holds_key (h : Holds m off r.bytes) : Holds (window m off) 0 (r.key ++ [0]) := by
  obtain ⟨hk, h0, -⟩ := Rec.holds_bytes h
  rw [holds_append]
  refine ⟨holds_of_getD 0 fun i hi => ?_, ?_, trivial⟩
  · rw [window, zero_add, hk.getD hi 0]
  · rw [window, zero_add, h0]

/-- Names compare equal exactly on the key of the record. -/
theorem kvnodeCmpName_rec (block : ℕ) (h : Holds m off r.bytes) (hk : 0 ∉ key) :
    kvnodeCmpName m (r.node block off) key = 0 ↔ key = r.key := by
  have hn : (((r.node block off).valueOffset : ℤ)-((r.node block off).headOffset : ℤ)-1) =
      ((r.key.length+4 : ℕ) : ℤ) := by
    simp only [Rec.node]
    push_cast
    ring
  rw [kvnodeCmpName, hn]
  exact keycmpLoop_eq_zero (holds_cString key) (Rec.holds_key h) hk r.key_nul (by omega)

/-- First live record with a key, with its offset. -/
def findRec (key : List UInt8) : ℕ → List Rec → Option (ℕ × Rec)
  | _, [] => none
  | off, r :: log =>
    if r.live = true ∧ r.key = key then some (off, r) else findRec key (off+r.nodeSize) log

/-- Without live records nothing is found. -/
theorem findRec_of_liveCount (h : liveCount log = 0) : findRec key off log = none := by
  induction log generalizing off with
  | nil => rfl
  | cons r log ih =>
    obtain ⟨hr, h⟩ := liveCount_cons_eq_zero.mp h
    simp [findRec, hr, ih h]

/-- The record with the key ends the scan. -/
theorem iterFind_hit {s : ℤ × Option KvNode} (h : kvnodeCmpName m node key = 0)
    (hrw : node.rw = true) : iterFind m key node s = ((s.1, some node), -1) := by
  rw [iterFind, if_pos ⟨h, hrw⟩]

theorem iterFind_miss {s : ℤ × Option KvNode} (h : kvnodeCmpName m node key ≠ 0) :
    iterFind m key node s = ((s.1-1, s.2), if 0 < s.1-1 then 0 else -1) := by
  rw [iterFind, if_neg fun hc => h hc.1, if_neg h]

/-- The live counter stops the iteration no earlier than behind the last
live record, so the first match is found. -/
theorem iterFind_log (block : ℕ) (hk : 0 ∉ key) (hl : LogAt m off log) :
    (iterNodes true (iterFind m key) (logNodes block off log) ((liveCount log : ℤ), none)).2 =
      (findRec key off log).map fun p => p.2.node block p.1 := by
  induction log generalizing off with
  | nil => rfl
  | cons r log ih =>
    have hc := kvnodeCmpName_rec block hl.1 hk
    rw [logNodes, iterNodes, findRec, Rec.node_valid, liveCount_cons]
    cases hr : r.live with
    | false => simpa using ih hl.2
    | true =>
      by_cases he : r.key = key
      · rw [iterFind_hit (hc.mpr he.symm) rfl]
        simp [he]
      · rw [iterFind_miss fun h => he (hc.mp h).symm]
        by_cases hpos : 0 < liveCount log
        · simpa [he, hpos] using ih hl.2
        · simp [he, findRec_of_liveCount (show liveCount log = 0 by omega),
            show liveCount log = 0 by omega]

/-- `kvblock_find` reports the first live record with the key. -/
theorem kvblockFind_rep {size : ℕ} {b : KvBlock} (id : ℕ) (h : BlockRep size m b log)
    (hsize : size < 65536) (hk : 0 ∉ key) :
    kvblockFind size m id b key = some ((findRec key 0 log).map fun p => p.2.node id p.1) := by
  rw [kvblockFind, h.count, kvblockIter_log id true _ _ h.logAt h.room hsize h.tail,
    Option.map_some, iterFind_log id hk h.logAt]

/-- What is found is live and has the key. -/
theorem findRec_some {o : ℕ} (h : findRec key off log = some (o, r)) :
    ∃ pre post, log = pre ++ r :: post ∧ o = off+total pre ∧ r.live = true ∧ r.key = key := by
  induction log generalizing off with
  | nil => simp [findRec] at h
  | cons x log ih =>
    rw [findRec] at h
    split at h
    · next hx =>
      obtain ⟨rfl, rfl⟩ := Prod.mk.inj (Option.some.inj h)
      exact ⟨[], log, rfl, by rw [total_nil, add_zero], hx.1, hx.2⟩
    · obtain ⟨pre, post, hlog, ho, hlive, hkey⟩ := ih h
      refine ⟨x :: pre, post, by rw [hlog, cons_append], ?_, hlive, hkey⟩
      rw [ho, total_cons, add_assoc]

/-- If nothing is found, no live record has the key. -/
theorem findRec_none (h : findRec key off log = none) (hr : r ∈ log) (hl : r.live = true) :
    r.key ≠ key := by
  induction log generalizing off with
  | nil => simp at hr
  | cons x log ih =>
    rw [findRec] at h
    split at h
    · simp at h
    · next hx =>
      rcases List.mem_cons.mp hr with rfl|hr
      · exact fun he => hx ⟨hl, he⟩
      · exact ih h hr

end Find

end PineVoice.Kv
