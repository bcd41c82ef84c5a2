import PineVoice.KvEntries
import PineVoice.KvRestart

/-!
# A store with entries of both formats

The blocks of a store hold entries and are erased behind them, and the counters in RAM agree with
the entries. The store stays like that when a record is appended, and when one is deleted that is
not the last one of its block or whose block has no text lines.
-/

namespace PineVoice.Kv

open NorFlash List

namespace Entry

/-- A read-only entry. -/
def isLine : Entry → Bool
  | line _ => true
  | slot _ => false

/-- A live record. -/
def stored : Entry → Bool
  | line _ => false
  | slot s => s.record.live

/-- A live record with this key. -/
def hasKey (key : List UInt8) : Entry → Bool
  | line _ => false
  | slot s => s.record.live && s.record.key == key

@[simp] theorem isLine_line (l : Line) : (line l).isLine = true := rfl

@[simp] theorem isLine_slot (s : Slot) : (slot s).isLine = false := rfl

@[simp] theorem stored_line (l : Line) : (line l).stored = false := rfl

@[simp] theorem stored_slot (s : Slot) : (slot s).stored = s.record.live := rfl

@[simp] theorem hasKey_line (key : List UInt8) (l : Line) : hasKey key (line l) = false := rfl

@[simp] theorem live_line (l : Line) : (line l).live = true := rfl

@[simp] theorem live_slot (s : Slot) : (slot s).live = s.record.live := rfl

end Entry

/-- The text lines of entries with their offsets. -/
def linesAt : ℕ → List Entry → List (ℕ × Line)
  | _, [] => []
  | off, .line l :: es => (off, l) :: linesAt (off+(Entry.line l).bytes.length) es
  | off, .slot s :: es => linesAt (off+(Entry.slot s).bytes.length) es

/-- The lines of two lists. -/
theorem linesAt_append (off : ℕ) (xs ys : List Entry) :
    linesAt off (xs ++ ys) = linesAt off xs ++ linesAt (off+span xs) ys := by
  induction xs generalizing off with
  | nil => rfl
  | cons x xs ih =>
    cases x with
    | line l => simp [linesAt, ih, add_assoc]
    | slot s => simp [linesAt, ih, add_assoc]

/-- As many places as lines. -/
theorem linesAt_length (off : ℕ) (es : List Entry) :
    (linesAt off es).length = es.countP Entry.isLine := by
  induction es generalizing off with
  | nil => rfl
  | cons e es ih =>
    cases e with
    | line l => simp [linesAt, ih, countP_cons]
    | slot s => simp [linesAt, ih]

variable {es : List Entry} {size : ℕ} {m m' : Mem}

/-- Without lines there are no places. -/
theorem linesAt_of_isLine (h : es.countP Entry.isLine = 0) : linesAt 0 es = [] := by
  rw [←linesAt_length 0] at h
  exact List.length_eq_zero_iff.mp h

/-- Live are the lines and the stored records. -/
theorem countP_live (es : List Entry) :
    es.countP Entry.live = es.countP Entry.isLine+es.countP Entry.stored := by
  induction es with
  | nil => rfl
  | cons e es ih =>
    cases e with
    | line l =>
      simp only [countP_cons, Entry.live_line, Entry.isLine_line, Entry.stored_line]
      simp only [Bool.false_eq_true, if_false]
      omega
    | slot s =>
      cases hl : s.record.live with
      | true =>
        simp only [countP_cons, Entry.live_slot, Entry.isLine_slot, Entry.stored_slot, hl]
        simp only [Bool.false_eq_true, if_false]
        omega
      | false =>
        simp only [countP_cons, Entry.live_slot, Entry.isLine_slot, Entry.stored_slot, hl]
        simp only [Bool.false_eq_true, if_false]
        omega

/-- Live bytes of an entry as the scanner counts them. -/
def Entry.weight : Entry → ℕ
  | line l => l.key.length+l.value.length+2
  | slot s => if s.record.live then s.record.nodeSize else 0

/-- Live bytes of entries. -/
def weight (es : List Entry) : ℕ := (es.map Entry.weight).sum

@[simp] theorem weight_nil : weight [] = 0 := rfl

@[simp] theorem weight_cons (e : Entry) (es : List Entry) :
    weight (e :: es) = e.weight+weight es := rfl

/-- The weight of two lists. -/
theorem weight_append (xs ys : List Entry) : weight (xs ++ ys) = weight xs+weight ys := by
  rw [weight, map_append, sum_append, weight, weight]

/-- An entry weighs no more than its bytes. -/
theorem Entry.weight_le (e : Entry) : e.weight ≤ e.bytes.length := by
  cases e with
  | line l =>
    rw [Entry.weight, Entry.bytes, Line.bytes_length]
    omega
  | slot s =>
    rw [Entry.weight, Entry.bytes, Slot.bytes_length]
    split
    · omega
    · exact Nat.zero_le _

/-- Nor do all of them. -/
theorem weight_le_span (es : List Entry) : weight es ≤ span es := by
  induction es with
  | nil => exact le_rfl
  | cons e es ih =>
    have hle := e.weight_le
    rw [weight_cons, span_cons]
    omega

/-- A block that holds entries and is erased behind them. -/
structure EntryImage (size : ℕ) (m : Mem) (es : List Entry) : Prop where
  /-- The entries are stored from offset zero on. -/
  stored : EntriesAt m 0 es
  /-- The last byte is never part of an entry. -/
  room : span es < size
  /-- Everything behind the entries is erased. -/
  blank : Blank m (span es) size

/-- The counters of a block that belong to its entries. -/
structure Counted (b : KvBlock) (es : List Entry) : Prop where
  /-- The next record is aligned. -/
  writeOffset : b.writeOffset = align4 (span es)
  /-- Live bytes. -/
  kvSize : b.kvSize = weight es
  /-- Live entries. -/
  count : b.count = es.countP Entry.live
  /-- Text lines. -/
  roCount : b.roCount = es.countP Entry.isLine

/-- A block with entries and their counters. -/
structure MixedBlock (size : ℕ) (m : Mem) (b : KvBlock) (es : List Entry) : Prop
    extends EntryImage size m es, Counted b es

/-- The image depends on the bytes of the block only. -/
theorem EntryImage.congr (h : EntryImage size m es) (ha : Agree m' m 0 size)
    : EntryImage size m' es :=
  { h with
    stored := h.stored.congr (ha.mono le_rfl (by have := h.room; omega))
    blank := h.blank.congr (ha.mono (Nat.zero_le _) le_rfl) }

/-- So does the block. -/
theorem MixedBlock.congr {b : KvBlock} (h : MixedBlock size m b es) (ha : Agree m' m 0 size)
    : MixedBlock size m' b es :=
  ⟨h.toEntryImage.congr ha, h.toCounted⟩

/-- A store whose blocks hold entries of both formats. -/
structure Mixed (kv : Kvset) (es : ℕ → List Entry) : Prop where
  /-- A block holds the longest record. -/
  size_ge : 512 ≤ kv.size
  /-- Sizes are sixteen bits wide. -/
  size_lt : kv.size < 65536
  /-- Blocks consist of words. -/
  size_mod : kv.size % 4 = 0
  /-- The current block is one of them. -/
  bid_lt : kv.bid < kv.num
  /-- So is the reserve block. -/
  gc_lt : ∀ g, kv.gcBid = some g → g < kv.num
  /-- Every block holds its entries. -/
  block : ∀ i, i < kv.num → MixedBlock kv.size (kv.mem i) (kv.blocks i) (es i)

section Append

variable {key value : List UInt8}

/-- Erased bytes are quiet text. -/
theorem textQuiet_blank (n : ℕ) (bs : List UInt8) :
    textQuiet false (List.replicate n 0xFF ++ bs) = textQuiet false bs := by
  induction n with
  | zero => rfl
  | succ n ih =>
    rw [replicate_succ, cons_append, textQuiet, if_neg (by decide), if_neg (by decide),
      if_neg (by decide), if_neg (by decide), Bool.false_and, ih]

/-- A new record behind erased bytes that align it. -/
def Slot.fresh (gap : ℕ) (h : Storable key value) (version : UInt8) : Slot where
  zeros := 0
  junk := List.replicate gap 0xFF
  record := Rec.fresh h version
  junk_nul hz := absurd (List.eq_of_mem_replicate hz) (by decide)
  quiet := (textQuiet_blank gap key).trans h.key_quiet

/-- A new record has its key. -/
theorem hasKey_fresh (gap : ℕ) (h : Storable key value) (version : UInt8) (k : List UInt8) :
    Entry.hasKey k (.slot (.fresh gap h version)) = (key == k) := rfl

/-- The entries of a block with a new record behind them. -/
def appended (es : List Entry) (h : Storable key value) (version : UInt8) : List Entry :=
  es ++ [.slot (.fresh (align4 (span es)-span es) h version)]

/-- The bytes behind an appended record. -/
theorem appended_bytes_length (es : List Entry) (h : Storable key value) (version : UInt8) :
    span (appended es h version) = align4 (span es)+(align4 (key.length+value.length+6)+4) := by
  have hal := align4_spec (span es)
  rw [appended, span_append, span_cons, span_nil, Entry.bytes, Slot.bytes_length]
  simp only [Slot.fresh, length_replicate, Rec.nodeSize, Rec.fresh]
  omega

/-- The lines stay where they are. -/
theorem appended_lines (es : List Entry) (h : Storable key value) (version : UInt8) :
    linesAt 0 (appended es h version) = linesAt 0 es := by
  rw [appended, linesAt_append]
  exact append_nil _

/-- The record adds its weight. -/
theorem appended_weight (es : List Entry) (h : Storable key value) (version : UInt8) :
    weight (appended es h version) = weight es+(align4 (key.length+value.length+6)+4) := by
  rw [appended, weight_append]
  rfl

/-- It counts for its key. -/
theorem appended_hasKey (es : List Entry) (h : Storable key value) (version : UInt8)
    (k : List UInt8) :
    (appended es h version).countP (Entry.hasKey k) =
      es.countP (Entry.hasKey k)+(if key = k then 1 else 0) := by
  rw [appended]
  simp [hasKey_fresh]

/-- Programming a record behind erased bytes appends it to the entries. -/
theorem MixedBlock.append {size : ℕ} {m : Mem} {b : KvBlock} {es : List Entry}
    (h : MixedBlock size m b es) (hsize : size < 65536) (hst : Storable key value) (version : UInt8)
    (hroom : align4 (span es)+(align4 (key.length+value.length+6)+4)+4 ≤ size) :
    MixedBlock size (program m b.writeOffset (recordBuffer key value version))
      (b.counted (align4 (key.length+value.length+6)+4)) (appended es hst version) := by
  have hal := align4_spec (span es)
  have hspan := appended_bytes_length es hst version
  have hlen := recordBuffer_length key value version
  have hn := align4_spec (key.length+value.length+6)
  have hlive := length_le_span es
  have hle : es.countP Entry.live ≤ es.length := countP_le_length
  rw [KvBlock.counted, h.writeOffset, h.kvSize, h.count]
  have hrec := holds_fresh hst version (h.blank.mono hal.1 le_rfl)
    (by
      simp only [Rec.nodeSize, Rec.fresh]; omega)
  rw [Rec.fresh_body] at hrec
  refine ⟨⟨?_, ?_, ?_⟩, ⟨?_, ?_, ?_, ?_⟩⟩
  · rw [appended, entriesAt_append, zero_add]
    refine ⟨h.stored.congr (agree_program (.inl (by omega))), ?_, trivial⟩
    rw [Entry.bytes, Slot.bytes, holds_append, holds_append]
    refine ⟨trivial, ?_, ?_⟩
    · refine holds_of_getD 0xFF fun i hi => ?_
      have hi' : i < align4 (span es)-span es := by
        simpa only [Slot.fresh, length_replicate] using hi
      have hz : (Slot.fresh (align4 (span es)-span es) hst version).zeros = 0 := rfl
      rw [hz, replicate_zero, length_nil, program_outside (by omega),
        h.blank _ (by omega) (by omega)]
      simp [Slot.fresh, hi']
    · have hoff : span es+(List.replicate (Slot.fresh (align4 (span es)-span es) hst
          version).zeros (0 : UInt8)).length+
          (Slot.fresh (align4 (span es)-span es) hst version).junk.length = align4 (span es) := by
        simp only [Slot.fresh, length_replicate]
        omega
      rw [hoff]
      exact hrec
  · omega
  · intro i hi hlt
    rw [program_outside (by omega)]
    exact h.blank i (by omega) hlt
  · rw [hspan, align4_of_mod
      (show (align4 (span es)+(align4 (key.length+value.length+6)+4)) % 4 = 0 by omega)]
    dsimp only
    exact u16_eq (by push_cast; rfl) (by omega)
  · have hle := weight_le_span es
    rw [appended_weight]
    dsimp only
    exact u16_eq (by push_cast; rfl) (by omega)
  · have hone : [Entry.slot (Slot.fresh (align4 (span es)-span es) hst version)].countP
        Entry.live = 1 := rfl
    rw [appended, countP_append]
    dsimp only
    exact u16_eq (by push_cast; rfl) (by omega)
  · rw [appended, countP_append]
    exact h.roCount

end Append

section Remove

/-- A record with its flag word cleared. -/
def Slot.kill (s : Slot) : Slot := { s with record := s.record.kill, quiet := s.quiet }

/-- The bytes of a record and those before it, without the flag word. -/
def Slot.front (s : Slot) : List UInt8 :=
  List.replicate s.zeros 0 ++ (s.junk ++ s.record.body)

/-- The flag word comes last. -/
theorem Slot.bytes_eq (s : Slot) : s.bytes = s.front ++ s.record.flag := by
  simp only [Slot.bytes, Slot.front, Rec.bytes, append_assoc]

/-- Deleting clears the flag word. -/
theorem Slot.kill_bytes (s : Slot) : s.kill.bytes = s.front ++ [0, 0, 0, 0] := s.kill.bytes_eq

theorem Slot.front_length (s : Slot) : s.front.length+4 = s.bytes.length := by
  rw [s.bytes_eq, length_append, s.record.flag_length]

/-- The length stays. -/
theorem Slot.kill_length (s : Slot) : s.kill.bytes.length = s.bytes.length := by
  rw [s.kill_bytes, length_append, ←s.front_length]
  rfl

/-- The entries of a block after one of its records was deleted. -/
def survivors (pre : List Entry) (s : Slot) (post : List Entry) : List Entry :=
  if 1 < (pre ++ .slot s :: post).countP Entry.stored then pre ++ .slot s.kill :: post else []

variable {pre post : List Entry} {s : Slot}

/-- A deletion leaves the bytes in use. -/
theorem span_kill : span (pre ++ .slot s.kill :: post) = span (pre ++ .slot s :: post) := by
  simp [span_append, Entry.bytes, s.kill_length]

/-- It leaves the lines. -/
theorem linesAt_kill :
    linesAt 0 (pre ++ .slot s.kill :: post) = linesAt 0 (pre ++ .slot s :: post) := by
  simp only [linesAt_append, linesAt, Entry.bytes, s.kill_length]

/-- A deleted record no longer counts. -/
theorem weight_kill (pre post : List Entry) (hlive : s.record.live = true) :
    weight (pre ++ .slot s.kill :: post)+s.record.nodeSize = weight (pre ++ .slot s :: post) := by
  have hkill : (Entry.slot s.kill).weight = 0 := rfl
  have hweight : (Entry.slot s).weight = s.record.nodeSize := if_pos hlive
  simp only [weight_append, weight_cons]
  omega

/-- Counting entries around one record. -/
theorem countP_around (pre : List Entry) (s : Slot) (post : List Entry) (p : Entry → Bool) :
    (pre ++ .slot s :: post).countP p =
      pre.countP p+post.countP p+(if p (.slot s) = true then 1 else 0) := by
  rw [countP_append, countP_cons]
  omega

variable {m : Mem}

/-- Clearing the flag word deletes the record. -/
theorem EntriesAt.kill (h : EntriesAt m 0 (pre ++ .slot s :: post)) :
    EntriesAt (program m (span pre+s.bytes.length-4) [0, 0, 0, 0]) 0
      (pre ++ .slot s.kill :: post) := by
  have hfront := s.front_length
  rw [entriesAt_append, zero_add] at h ⊢
  obtain ⟨hpre, hs, hpost⟩ := h
  rw [Entry.bytes, Slot.bytes_eq, holds_append] at hs
  refine ⟨hpre.congr (agree_program (.inl (by omega))), ?_, ?_⟩
  · rw [Entry.bytes, s.kill_bytes, holds_append]
    refine ⟨hs.1.congr (agree_program (.inl (by omega))), ?_⟩
    rw [show span pre+s.front.length = span pre+s.bytes.length-4 by omega]
    exact holds_program_zeros _ _
  · change EntriesAt m (span pre+s.bytes.length) post at hpost
    change EntriesAt _ (span pre+s.kill.bytes.length) post
    rw [s.kill_length]
    refine hpost.congr (agree_program (.inr ?_))
    simp only [length_cons, length_nil]
    omega

/-- The lines are among what is left. -/
theorem survivors_lines (h : (pre ++ .slot s :: post).countP Entry.isLine = 0 ∨
    1 < (pre ++ .slot s :: post).countP Entry.stored) :
    linesAt 0 (survivors pre s post) = linesAt 0 (pre ++ .slot s :: post) := by
  rw [survivors]
  split
  · exact linesAt_kill
  · next hle =>
    rw [linesAt_of_isLine (h.resolve_right hle)]
    rfl

/-- A deleted record does not count. -/
theorem kill_hasKey (k : List UInt8) : (pre ++ .slot s.kill :: post).countP (Entry.hasKey k) =
    pre.countP (Entry.hasKey k)+post.countP (Entry.hasKey k) := by
  rw [countP_around]
  exact add_zero _

/-- A key has at most the stored records. -/
theorem hasKey_le_stored (es : List Entry) (k : List UInt8) :
    es.countP (Entry.hasKey k) ≤ es.countP Entry.stored := by
  refine countP_mono_left fun e _ he => ?_
  cases e with
  | line l => cases he
  | slot s => exact (Bool.and_eq_true_iff.mp he).1

/-- A deletion takes one copy of its key. -/
theorem survivors_hasKey (pre post : List Entry) (hlive : s.record.live = true) (k : List UInt8) :
    (survivors pre s post).countP (Entry.hasKey k)+(if s.record.key = k then 1 else 0) =
      (pre ++ .slot s :: post).countP (Entry.hasKey k) := by
  have hall := countP_around pre s post (Entry.hasKey k)
  have hself : (if Entry.hasKey k (.slot s) = true then 1 else 0) =
      if s.record.key = k then 1 else 0 := by
    simp [Entry.hasKey, hlive]
  rw [hself] at hall
  rw [survivors]
  split
  · rw [kill_hasKey, hall]
  · next hle =>
    have hst := countP_around pre s post Entry.stored
    rw [Entry.stored_slot, if_pos hlive] at hst
    have hpre := hasKey_le_stored pre k
    have hpost := hasKey_le_stored post k
    rw [countP_nil]
    omega

/-- Clearing the flag word of a block with other live records. -/
theorem MixedBlock.kill {size : ℕ} {b b' : KvBlock}
    (h : MixedBlock size m b (pre ++ .slot s :: post)) (hsize : size < 65536)
    (hlive : s.record.live = true) (hkv : b'.kvSize = u16 ((b.kvSize : ℤ)-(s.record.nodeSize : ℤ)))
    (hcount : b'.count = u16 ((b.count : ℤ)-1)) (hro : b'.roCount = b.roCount)
    (hwrite : b'.writeOffset = b.writeOffset) :
    MixedBlock size (program m (span pre+s.bytes.length-4) [0, 0, 0, 0]) b'
      (pre ++ .slot s.kill :: post) := by
  have hroom := h.room
  have hspan : span (pre ++ .slot s :: post) = span pre+(s.bytes.length+span post) := by
    rw [span_append, span_cons, Entry.bytes]
  have hlen := length_le_span (pre ++ .slot s :: post)
  have hle : (pre ++ .slot s :: post).countP Entry.live ≤ _ := countP_le_length
  have hcnt := countP_around pre s post Entry.live
  rw [Entry.live_slot, if_pos hlive] at hcnt
  have hkill : (pre ++ .slot s.kill :: post).countP Entry.live =
      pre.countP Entry.live+post.countP Entry.live := by
    rw [countP_around]
    exact add_zero _
  have hfront := s.front_length
  refine ⟨⟨?_, ?_, ?_⟩, ⟨?_, ?_, ?_, ?_⟩⟩
  · exact h.stored.kill
  · rw [span_kill]
    exact hroom
  · rw [span_kill]
    refine h.blank.congr (agree_program (.inr ?_))
    simp only [length_cons, length_nil]
    omega
  · rw [hwrite, h.writeOffset, span_kill]
  · have hweight := weight_kill pre post hlive
    have hle := weight_le_span (pre ++ .slot s :: post)
    rw [hkv, h.kvSize, ←hweight]
    exact u16_eq (by push_cast; ring) (by omega)
  · rw [hcount, h.count, hkill, hcnt]
    exact u16_eq (by push_cast; ring) (by omega)
  · rw [hro, h.roCount, countP_around, countP_around]
    rfl

end Remove

section Store

variable {kv : Kvset} {es : ℕ → List Entry} {id : ℕ}

/-- An operation on one block with new counters for it. -/
theorem Mixed.step (h : Mixed kv es) {op : Op} {b : KvBlock}
    {list : List Entry}
    (hother : ∀ j, j ≠ id → Agree ((kv.issue op).mem j) (kv.mem j) 0 kv.size)
    (hblock : MixedBlock kv.size ((kv.issue op).mem id) b list) :
    Mixed ((kv.issue op).setBlock id b) (Function.update es id list) :=
  ⟨h.size_ge, h.size_lt, h.size_mod, h.bid_lt, h.gc_lt,
    blocks_step h.block hblock fun j he hj => hj.congr (hother j he)⟩

/-- `kvblock_set` appends a record with a quiet key, or changes nothing if it
does not fit. -/
theorem kvblockSet_mixed (h : Mixed kv es) (hid : id < kv.num) {key value : List UInt8}
    (h0 : 0 ∉ key) (hq : textQuiet false key = true) (hv : 0 < value.length)
    (hsum : key.length+value.length < 498) (version : ℕ) :
    (kvblockSet kv id key value version = (-1, kv) ∧ (0 < key.length → key.length ≤ 63 →
        kv.size < align4 (span (es id))+(align4 (key.length+value.length+6)+4)+4)) ∨
      ∃ (hst : Storable key value) (kv' : Kvset),
        kvblockSet kv id key value version = (((align4 (span (es id)) : ℕ) : ℤ), kv') ∧
        Mixed kv' (Function.update es id
          (appended (es id) hst (UInt8.ofNat (version &&& 0xFF)))) ∧ SameFrame kv kv' := by
  have hb := h.block id hid
  have hal := align4_spec (span (es id))
  by_cases hlen : key.length ≤ 0 ∨ 0x3F < key.length ∨ 0x3FFFF < value.length
  · rw [kvblockSet, if_pos hlen]
    exact .inl ⟨rfl, fun hpos hle => absurd hlen (by omega)⟩
  by_cases hroom : align4 (span (es id))+(align4 (key.length+value.length+6)+4)+4 ≤ kv.size
  · right
    have hst : Storable key value := ⟨by omega, by omega, h0, hq, hv, hsum⟩
    have hblank : Blank (kv.mem id) (kv.blocks id).writeOffset kv.size := by
      rw [hb.writeOffset]
      exact hb.blank.mono hal.1 le_rfl
    have hroom' : (kv.blocks id).writeOffset+(align4 (key.length+value.length+6)+4)+4 ≤
        kv.size := by
      rw [hb.writeOffset]
      exact hroom
    have hset := kvblockSet_blank hblank hst.key_pos hst.key_le (by omega) hroom' version
    rw [hb.writeOffset] at hset
    refine ⟨hst, _, hset, h.step (fun j hj => mem_issue_write_other kv hj ?_) ?_,
      ⟨rfl, rfl, rfl, rfl⟩⟩
    · rw [recordBuffer_length]
      omega
    · rw [mem_issue_write, ←hb.writeOffset]
      exact hb.append h.size_lt hst _ hroom
  · left
    refine ⟨?_, fun _ _ => not_le.mp hroom⟩
    rw [kvblockSet, if_neg hlen]
    simp only [kvblockAllocNode, hb.writeOffset]
    rw [if_neg (by push_cast; omega)]

/-- `kvnode_rm` on a text line does nothing. -/
theorem kvnodeRm_line (kv : Kvset) {node : KvNode} (hro : node.rw = false) :
    kvnodeRm kv node = kv := by
  rw [kvnodeRm, if_neg fun hc => by rw [hro] at hc; exact absurd hc.2 (by decide)]

/-- `kvnode_rm` on a live record deletes it, and if it is the last one of a
block without text lines, it empties the block. -/
theorem kvnodeRm_mixed (h : Mixed kv es) (hid : id < kv.num) {pre post : List Entry} {s : Slot}
    (hes : es id = pre ++ .slot s :: post) (hlive : s.record.live = true)
    (hspare : (es id).countP Entry.isLine = 0 ∨ 1 < (es id).countP Entry.stored) :
    Mixed (kvnodeRm kv (s.node id (span pre))) (Function.update es id (survivors pre s post)) := by
  have hb := h.block id hid
  have hsplit := countP_live (es id)
  have hvalid : (s.node id (span pre)).valid = true :=
    (s.record.node_valid id _).trans hlive
  have hblk : (s.node id (span pre)).block = id := rfl
  rw [kvnodeRm, if_pos ⟨hvalid, rfl⟩, survivors, ←hes]
  change Mixed (if 1 < ((kv.blocks id).count : ℤ)-(kv.blocks id).roCount then _ else _) _
  rw [hb.count, hb.roCount]
  by_cases hmore : 1 < (es id).countP Entry.stored
  · have hnext : (s.node id (span pre)).nextOffset-4 = span pre+s.bytes.length-4 := by
      rw [s.bytes_length]
      change span pre+s.zeros+s.junk.length+s.record.nodeSize-4 = _
      omega
    have hroom := hb.room
    rw [hes, span_append, span_cons, Entry.bytes] at hroom
    have hfront := s.front_length
    rw [if_pos (by omega), if_pos hmore, hnext]
    refine h.step (fun j hj => mem_issue_write_other kv hj ?_) ?_
    · simp only [length_cons, length_nil]
      omega
    · rw [hblk, mem_issue_write]
      rw [hes] at hb
      exact hb.kill h.size_lt hlive rfl (by rw [hb.count]) rfl rfl
  · have hempty : Blank (erase (kv.mem id) 0 kv.size) 0 kv.size := by
      have hblank := blank_erase (kv.mem id) 0 kv.size
      rwa [zero_add] at hblank
    have hge := h.size_ge
    rw [if_neg (by omega), if_neg hmore]
    refine h.step (fun j hj => mem_issue_erase_other kv hj) ?_
    rw [mem_issue_erase]
    refine ⟨⟨trivial, by rw [span_nil]; omega, hempty⟩, ⟨rfl, rfl, rfl, ?_⟩⟩
    exact hb.roCount.trans (hspare.resolve_right hmore)

end Store

end PineVoice.Kv
