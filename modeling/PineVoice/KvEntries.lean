import PineVoice.KvCodec

/-!
# Blocks with entries of both formats

A block may hold read-only text lines and binary records one behind the
other. Before an entry the scanner skips zero bytes, and before a record it
also passes over other bytes, such as the erased ones that align it. The
scanner reports exactly the entries, in order.
-/

namespace PineVoice.Kv

open NorFlash List

/-- A text line with the zero bytes before it. -/
structure Line where
  /-- Number of zero bytes before the line. -/
  zeros : ℕ
  /-- Text before the delimiter. -/
  key : List UInt8
  /-- Text behind it. -/
  value : List UInt8
  /-- A zero byte would end a key. -/
  key_nul : 0 ∉ key
  /-- No line ends before the delimiter. -/
  key_quiet : textQuiet false key = true
  /-- The delimiter stays pending up to the line end. -/
  value_plain : ∀ b ∈ value, b ≠ 0x3D ∧ (isprint b = true ∨ b = 0x0D)

/-- A record with the bytes before it. -/
structure Slot where
  /-- Number of zero bytes before the record. -/
  zeros : ℕ
  /-- Other bytes before the record. -/
  junk : List UInt8
  /-- The record. -/
  record : Rec
  /-- A zero byte would end a key. -/
  junk_nul : 0 ∉ junk
  /-- The scanner reaches the terminator of the key. -/
  quiet : textQuiet false (junk ++ record.key) = true

/-- One entry of a block. -/
inductive Entry where
  /-- A read-only entry. -/
  | line (l : Line)
  /-- A read-write entry. -/
  | slot (s : Slot)

/-- The bytes of a line. -/
def Line.bytes (l : Line) : List UInt8 :=
  List.replicate l.zeros 0 ++ (l.key ++ 0x3D :: (l.value ++ [0x0A]))

/-- The bytes of a record and those before it. -/
def Slot.bytes (s : Slot) : List UInt8 :=
  List.replicate s.zeros 0 ++ (s.junk ++ s.record.bytes)

/-- The node the scanner reports for a line. -/
def Line.node (l : Line) (block off : ℕ) : KvNode :=
  roNode block (off+l.zeros) (off+l.zeros+l.key.length)
    (off+l.zeros+l.key.length+1+l.value.length)

/-- The node the scanner reports for a record. -/
def Slot.node (s : Slot) (block off : ℕ) : KvNode :=
  s.record.node block (off+s.zeros+s.junk.length)

namespace Entry

/-- The bytes of an entry. -/
def bytes : Entry → List UInt8
  | line l => l.bytes
  | slot s => s.bytes

/-- The node the scanner reports for an entry. -/
def node (block off : ℕ) : Entry → KvNode
  | line l => l.node block off
  | slot s => s.node block off

/-- Lines are always live, records until they are deleted. -/
def live : Entry → Bool
  | line _ => true
  | slot s => s.record.live

/-- Bytes before the text or the key. -/
def lead : Entry → ℕ
  | line l => l.zeros
  | slot s => s.zeros+s.junk.length

end Entry

theorem Line.bytes_length (l : Line) : l.bytes.length = l.zeros+l.key.length+l.value.length+2 := by
  simp only [Line.bytes, length_append, length_replicate, length_cons, length_nil]
  omega

theorem Slot.bytes_length (s : Slot) :
    s.bytes.length = s.zeros+s.junk.length+s.record.nodeSize := by
  simp only [Slot.bytes, length_append, length_replicate, Rec.bytes_length]
  omega

theorem Entry.bytes_length_ge (e : Entry) : e.lead+2 ≤ e.bytes.length := by
  cases e with
  | line l => rw [Entry.bytes, Line.bytes_length, Entry.lead]; omega
  | slot s =>
    have hge := s.record.nodeSize_ge
    rw [Entry.bytes, Slot.bytes_length, Entry.lead]
    omega

section Search

variable {size : ℕ} {m : Mem} {off : ℕ}

/-- Zero bytes before other ones are skipped. -/
theorem skipZeros_replicate {k n : ℕ} (hk : k ≤ n) (h : Holds m off (List.replicate k 0))
    (hne : m (off+k) ≠ 0) : skipZeros m n off = off+k := by
  induction k generalizing off n with
  | zero => exact skipZeros_of_ne hne
  | succ k ih =>
    cases n with
    | zero => omega
    | succ n =>
      have hne' : m (off+1+k) ≠ 0 := by
        rw [add_right_comm]
        exact hne
      rw [skipZeros, if_pos h.1, ih (by omega) h.2 hne']
      omega

/-- A delimiter stays pending over plain text, and the line end reports the
line. -/
theorem searchLoop_value (block head d : ℕ) {value : List UInt8} {c : ℕ} (n : ℕ)
    (hv : ∀ b ∈ value, b ≠ 0x3D ∧ (isprint b = true ∨ b = 0x0D))
    (h : Holds m c (value ++ [0x0A])) :
    searchLoop size m block head (value.length+1+n) c (some d) =
      some (roNode block head d (c+value.length)) := by
  induction value generalizing c with
  | nil =>
    have hc : m c = 0x0A := h.1
    rw [length_nil, Nat.add_comm, searchLoop.eq_def]
    dsimp only
    rw [hc]
    rfl
  | cons b value ih =>
    have hc : m c = b := h.1
    obtain ⟨heq, hplain⟩ := hv b mem_cons_self
    have hrest := ih (fun x hx => hv x (mem_cons_of_mem b hx)) h.2
    have hn : (b :: value).length+1+n = (value.length+1+n)+1 := by rw [length_cons]; omega
    have hend : c+(b :: value).length = c+1+value.length := by rw [length_cons]; omega
    have hne : b ≠ 0 ∧ b ≠ 0x0A := by
      constructor <;> rintro rfl <;> revert hplain <;> decide
    rw [hn, hend, searchLoop.eq_def]
    dsimp only
    rw [hc, if_neg hne.1, if_neg heq, if_neg hne.2]
    by_cases hr : b = 0x0D
    · rw [if_pos hr, hrest]
    · rw [if_neg hr, if_pos (hplain.resolve_right hr), hrest]

/-- The scanner reports a line that starts where it starts. -/
theorem kvblockSearch_line {l : Line} (block : ℕ) (h : Holds m off l.bytes)
    (hs : off+l.bytes.length < size) :
    kvblockSearch size m block off = some (l.node block off) := by
  rw [l.bytes_length] at hs
  rw [Line.bytes, holds_append, holds_append, length_replicate] at h
  obtain ⟨hz, hk, heq, hv⟩ := h
  have hfirst : m (off+l.zeros) ≠ 0 :=
    first_ne ((holds_append m _ l.key [0x3D]).mpr ⟨hk, heq, trivial⟩) (by simp [l.key_nul]) (by simp)
  obtain ⟨delim, he⟩ := searchLoop_past block (off+l.zeros) hk l.key_nul l.key_quiet
    (show _ < size by omega)
  rw [kvblockSearch, skipZeros_replicate (by omega) hz hfirst, he, searchLoop.eq_def]
  dsimp only
  rw [heq,
    if_neg (by decide), if_pos rfl, show size-2-(off+l.zeros)-l.key.length = l.value.length+1+
      (size-1-(off+l.zeros)-l.key.length-l.value.length-2) by omega,
    searchLoop_value block (off+l.zeros) _ _ l.value_plain hv, Line.node]

/-- The scanner reports a record that starts where it starts or behind bytes
it passes over. -/
theorem kvblockSearch_slot {s : Slot} (block : ℕ) (h : Holds m off s.bytes)
    (hs : off+s.bytes.length < size) (hsize : size < 65536) :
    kvblockSearch size m block off = some (s.node block off) := by
  rw [s.bytes_length] at hs
  rw [Slot.bytes, holds_append, length_replicate, holds_append] at h
  obtain ⟨hz, hj, hr⟩ := h
  have hge := s.record.nodeSize_ge
  obtain ⟨hk, h0, -⟩ := Rec.holds_bytes hr
  obtain ⟨hc, hn⟩ := Rec.rwNode_eq hr block (by omega) hsize
  have hnul : 0 ∉ s.junk ++ s.record.key := by
    rw [mem_append, not_or]
    exact ⟨s.junk_nul, s.record.key_nul⟩
  have htext : Holds m (off+s.zeros) (s.junk ++ s.record.key) := (holds_append _ _ _ _).mpr ⟨hj, hk⟩
  have hlen : (s.junk ++ s.record.key).length = s.junk.length+s.record.key.length :=
    length_append
  have hpos := s.record.key_pos
  obtain ⟨delim, he⟩ := searchLoop_past block (off+s.zeros) htext hnul s.quiet
    (show _ < size by omega)
  rw [kvblockSearch, skipZeros_replicate (by omega) hz (first_ne htext hnul (by omega)), he, hlen,
    ←add_assoc, searchLoop.eq_def]
  dsimp only
  rw [if_pos h0, if_pos hc, hn, Slot.node]

/-- The scanner started at an entry reports this entry. -/
theorem kvblockSearch_entry {e : Entry} (block : ℕ) (h : Holds m off e.bytes)
    (hs : off+e.bytes.length < size) (hsize : size < 65536) :
    kvblockSearch size m block off = some (e.node block off) := by
  cases e with
  | line l => exact kvblockSearch_line block h hs
  | slot s => exact kvblockSearch_slot block h hs hsize

/-- Started behind the bytes before an entry the scanner reports it, too. -/
theorem kvblockSearch_lead {e : Entry} (block : ℕ) (h : Holds m off e.bytes)
    (hs : off+e.bytes.length < size) (hsize : size < 65536) :
    kvblockSearch size m block (off+e.lead) = some (e.node block off) := by
  cases e with
  | line l =>
    rw [Entry.bytes] at h hs
    rw [Line.bytes_length] at hs
    have htrim : Holds m (off+l.zeros) ({ l with zeros := 0 } : Line).bytes := by
      rw [Line.bytes, holds_append, length_replicate] at h
      exact h.2
    have hsearch := kvblockSearch_line block htrim
      (show off+l.zeros+({ l with zeros := 0 } : Line).bytes.length < size by
        rw [Line.bytes_length]
        dsimp only
        omega)
    exact hsearch
  | slot s =>
    rw [Entry.bytes] at h hs
    rw [Slot.bytes_length] at hs
    have htrim : Holds m (off+s.zeros+s.junk.length) s.record.bytes := by
      rw [Slot.bytes, holds_append, length_replicate, holds_append] at h
      exact h.2.2
    rw [Entry.lead, ←add_assoc]
    exact kvblockSearch_rec htrim block (by omega) hsize

end Search

section Nodes

variable {block off : ℕ}

theorem Entry.node_valid (e : Entry) : (e.node block off).valid = e.live := by
  cases e with
  | line l => rfl
  | slot s => exact s.record.node_valid block _

theorem Entry.node_next {e : Entry} (h : off+e.bytes.length < 65536) :
    (e.node block off).nextOffset = off+e.bytes.length := by
  cases e with
  | line l =>
    rw [Entry.bytes, Line.bytes_length] at h ⊢
    simp only [Entry.node, Line.node, roNode]
    exact u16_eq (by push_cast; ring) h
  | slot s =>
    rw [Entry.bytes, Slot.bytes_length]
    change off+s.zeros+s.junk.length+s.record.nodeSize = _
    omega

theorem Entry.node_head {e : Entry} (h : off+e.bytes.length < 65536) :
    (e.node block off).headOffset = off+e.lead := by
  have hge := e.bytes_length_ge
  cases e with
  | line l =>
    have hlt : off+l.zeros < 65536 := by rw [Entry.lead] at hge; omega
    exact u16_natCast hlt
  | slot s => exact add_assoc _ _ _

end Nodes

/-- Entries stored one behind the other. -/
def EntriesAt (m : Mem) : ℕ → List Entry → Prop
  | _, [] => True
  | off, e :: es => Holds m off e.bytes ∧ EntriesAt m (off+e.bytes.length) es

/-- The nodes the scanner reports for entries. -/
def entryNodes (block : ℕ) : ℕ → List Entry → List KvNode
  | _, [] => []
  | off, e :: es => e.node block off :: entryNodes block (off+e.bytes.length) es

/-- Bytes taken by entries. -/
def span (es : List Entry) : ℕ := (es.map fun e => e.bytes.length).sum

@[simp] theorem span_nil : span [] = 0 := rfl

@[simp] theorem span_cons (e : Entry) (es : List Entry) :
    span (e :: es) = e.bytes.length+span es := rfl

theorem span_append (xs ys : List Entry) : span (xs ++ ys) = span xs+span ys := by
  rw [span, map_append, sum_append, span, span]

theorem length_le_span (es : List Entry) : es.length ≤ span es := by
  induction es with
  | nil => exact le_rfl
  | cons e es ih =>
    have hge := e.bytes_length_ge
    rw [length_cons, span_cons]
    omega

theorem entriesAt_append (m : Mem) (off : ℕ) (xs ys : List Entry) :
    EntriesAt m off (xs ++ ys) ↔ EntriesAt m off xs ∧ EntriesAt m (off+span xs) ys := by
  induction xs generalizing off with
  | nil => simp [EntriesAt]
  | cons x xs ih =>
    simp [EntriesAt, ih, add_assoc, and_assoc]

theorem EntriesAt.congr {m m' : Mem} {off : ℕ} {es : List Entry} (h : EntriesAt m off es)
    (ha : Agree m' m off (off+span es)) : EntriesAt m' off es := by
  induction es generalizing off with
  | nil => trivial
  | cons e es ih =>
    rw [span_cons] at ha
    exact ⟨h.1.congr (ha.mono le_rfl (by omega)), ih h.2 (ha.mono (by omega) (by omega))⟩

theorem entryNodes_length (block off : ℕ) (es : List Entry) :
    (entryNodes block off es).length = es.length := by
  induction es generalizing off <;> simp [entryNodes, *]

theorem EntriesAt.reports {size : ℕ} {m : Mem} (block : ℕ) {off : ℕ} {es : List Entry}
    (he : EntriesAt m off es) (hs : off+span es < size) (hsize : size < 65536)
    (hb : Blank m (off+span es) size) : Reports size m block off (entryNodes block off es) := by
  induction es generalizing off with
  | nil => exact tailQuiet_of_blank hb m (Agree.refl m off size) block
  | cons e es ih =>
    rw [span_cons, ←add_assoc] at hs hb
    refine ⟨kvblockSearch_entry block he.1 (by omega) hsize, ?_⟩
    rw [Entry.node_next (by omega)]
    exact ih he.2 hs hb

/-- Iterating over the bytes of entries with nothing behind them is iterating
over the entries. -/
theorem kvblockIter_entries {σ : Type} {size : ℕ} {m : Mem} (block : ℕ) (onlyValid : Bool)
    (fn : KvNode → σ → σ × ℤ) (s : σ) {es : List Entry} (he : EntriesAt m 0 es)
    (hs : span es < size) (hsize : size < 65536) (hb : Blank m (span es) size) :
    kvblockIter size m block onlyValid fn iterFuel 0 s =
      some (iterNodes onlyValid fn (entryNodes block 0 es) s) := by
  have hlen := length_le_span es
  refine (he.reports block (by omega) hsize (by rwa [zero_add])).iter ?_ onlyValid fn s
  rw [entryNodes_length, iterFuel]
  omega

end PineVoice.Kv
