import PineVoice.KvMixedFind

/-!
# Start of a store with entries of both formats

`kv_init` counts the entries of every block and enters the live ones into the cache under the C
string at their start. For a text line that string goes on over the line end, so it is never the
key of a record.
-/

namespace PineVoice.Kv

open Function NorFlash AosHash List Option

section Text

variable {m : Mem}

/-- A scan that stops at a line whatever came before. -/
theorem textQuiet_append_loud (xs : List UInt8) {tail : List UInt8}
    (h : ∀ pending, textQuiet pending tail = false) (pending : Bool) :
    textQuiet pending (xs ++ tail) = false := by
  induction xs generalizing pending with
  | nil => exact h pending
  | cons b xs ih =>
    rw [cons_append, textQuiet, ih pending, ih true, ih false, ih (pending && isprint b),
      Bool.and_false]
    simp only [ite_self]

/-- A pending delimiter and plain text up to a line end make a line. -/
theorem textQuiet_value {value : List UInt8} (rest : List UInt8)
    (hv : ∀ b ∈ value, b ≠ 0x3D ∧ (isprint b = true ∨ b = 0x0D)) :
    textQuiet true (value ++ 0x0A :: rest) = false := by
  induction value with
  | nil => rfl
  | cons b value ih =>
    obtain ⟨heq, hplain⟩ := hv b mem_cons_self
    have hrest := ih fun c hc => hv c (mem_cons_of_mem b hc)
    have hzero : b ≠ 0 := by
      rintro rfl
      exact absurd hplain (by decide)
    have hnl : b ≠ 0x0A := by
      rintro rfl
      exact absurd hplain (by decide)
    rw [cons_append, textQuiet, if_neg hzero, if_neg heq, if_neg hnl]
    split
    · exact hrest
    · next hcr =>
      rw [hplain.resolve_right hcr]
      exact hrest

/-- A C string starts with the bytes stored there. -/
theorem cstrAt_append {off n : ℕ} {bs : List UInt8} (h : Holds m off bs) (h0 : 0 ∉ bs)
    (hn : bs.length ≤ n) : cstrAt m off n = bs ++ cstrAt m (off+bs.length) (n-bs.length) := by
  induction bs generalizing off n with
  | nil => rfl
  | cons b bs ih =>
    rw [length_cons] at hn
    rw [mem_cons, not_or] at h0
    cases n with
    | zero => omega
    | succ n =>
      have hb : m off = b := h.1
      rw [cstrAt, hb, if_neg fun he => h0.1 he.symm, ih h.2 h0.2 (by omega), length_cons,
        cons_append, show off+1+bs.length = off+(bs.length+1) by omega,
        show n+1-(bs.length+1) = n-bs.length by omega]

/-- The C string at a line is not the key of any record. -/
theorem Line.cstrAt_loud {l : Line} {off size : ℕ} (h : Holds m off l.bytes)
    (hs : off+l.bytes.length < size) : textQuiet false (cstrAt m (off+l.zeros) size) = false := by
  rw [l.bytes_length] at hs
  rw [Line.bytes, holds_append, length_replicate] at h
  have hvalue : 0 ∉ l.value := fun hz => absurd (l.value_plain 0 hz) (by decide)
  have hnul : 0 ∉ l.key ++ 0x3D :: (l.value ++ [0x0A]) := by
    simp only [mem_append, mem_cons, not_or]
    exact ⟨l.key_nul, by decide, hvalue, by decide⟩
  have hlen : (l.key ++ 0x3D :: (l.value ++ [0x0A])).length ≤ size := by
    simp only [length_append, length_cons, length_nil]
    omega
  rw [cstrAt_append h.2 hnul hlen]
  simp only [append_assoc, cons_append]
  refine textQuiet_append_loud l.key (fun pending => ?_) false
  exact textQuiet_value _ l.value_plain

end Text

section Notes

variable {m : Mem} {size block : ℕ}

/-- What the scan of a block enters into the cache. -/
def entryNotes (size : ℕ) (m : Mem) (block : ℕ) : ℕ → List Entry → List (List UInt8 × CacheNode)
  | _, [] => []
  | off, e :: es =>
    if e.live then
      (cstrAt m (off+e.lead) size, ⟨u16 block, off+e.lead⟩) ::
        entryNotes size m block (off+e.bytes.length) es
    else entryNotes size m block (off+e.bytes.length) es

/-- A cache entry that stands for a live entry of a block: it has the key of a
record, or what is no key of a record. -/
def NoteIn (block : ℕ) (list : List Entry) (x : List UInt8 × CacheNode) : Prop :=
  ∃ pre e post, list = pre ++ e :: post ∧ e.live = true ∧ x.2 = ⟨u16 block, span pre+e.lead⟩ ∧
    ((∃ s, e = .slot s ∧ x.1 = s.record.key) ∨ ∃ l, e = .line l ∧ textQuiet false x.1 = false)

theorem Slot.cstrAt_key {s : Slot} {off : ℕ} (h : Holds m off s.bytes) (hs : 63 < size) :
    cstrAt m (off+(Entry.slot s).lead) size = s.record.key := by
  rw [Entry.lead, ←add_assoc]
  exact Rec.cstrAt_key (Slot.holds_record h) hs

theorem entryNotes_in {pre list : List Entry} (h : EntriesAt m (span pre) list)
    (hs : span pre+span list < size) (hge : 63 < size) :
    ∀ x ∈ entryNotes size m block (span pre) list, NoteIn block (pre ++ list) x := by
  induction list generalizing pre with
  | nil => exact fun x hx => absurd hx not_mem_nil
  | cons e list ih =>
    intro x hx
    have hpre : span (pre ++ [e]) = span pre+e.bytes.length := by
      rw [span_append, span_cons, span_nil, add_zero]
    rw [span_cons] at hs
    have hrest : x ∈ entryNotes size m block (span pre+e.bytes.length) list →
        NoteIn block (pre ++ e :: list) x := by
      intro hx
      rw [←hpre] at hx
      have hin := ih (by rw [hpre]; exact h.2) (by omega) x hx
      rwa [append_assoc] at hin
    rw [entryNotes] at hx
    split at hx
    · next hlive =>
      rcases List.mem_cons.mp hx with rfl | hx
      · refine ⟨pre, e, list, rfl, hlive, rfl, ?_⟩
        cases e with
        | line l => exact .inr ⟨l, rfl, Line.cstrAt_loud h.1 (by rw [Entry.bytes] at hs; omega)⟩
        | slot s => exact .inl ⟨s, rfl, Slot.cstrAt_key h.1 hge⟩
      · exact hrest hx
    · exact hrest hx

/-- A key that a record may have is entered once for each live record with it. -/
theorem entryNotes_count {off : ℕ} {list : List Entry} (h : EntriesAt m off list)
    (hs : off+span list < size) (hge : 63 < size) {key : List UInt8}
    (hq : textQuiet false key = true) :
    (entryNotes size m block off list).countP (fun x => x.1 == key) =
      list.countP (Entry.hasKey key) := by
  induction list generalizing off with
  | nil => rfl
  | cons e list ih =>
    rw [span_cons] at hs
    have hrest := ih h.2 (by omega)
    rw [entryNotes, countP_cons, ←hrest]
    cases e with
    | line l =>
      have hne : cstrAt m (off+(Entry.line l).lead) size ≠ key := by
        intro he
        have hloud : textQuiet false (cstrAt m (off+l.zeros) size) = false :=
          Line.cstrAt_loud h.1 (by rw [Entry.bytes] at hs; omega)
        rw [Entry.lead] at he
        rw [he, hq] at hloud
        cases hloud
      rw [Entry.live_line, if_pos rfl, countP_cons]
      simp only [beq_iff_eq, hne, Entry.hasKey, Bool.false_eq_true]
    | slot s =>
      rw [Entry.live_slot]
      cases hlive : s.record.live with
      | false =>
        simp only [Entry.hasKey, hlive, Bool.false_and, Bool.false_eq_true, if_false, add_zero]
      | true =>
        rw [if_pos rfl, countP_cons, Slot.cstrAt_key h.1 hge]
        simp only [Entry.hasKey, hlive, Bool.true_and]

end Notes

section Scan

variable {m : Mem} {size block : ℕ}

theorem Entry.node_rw (e : Entry) (block off : ℕ) : (e.node block off).rw = !e.isLine := by
  cases e <;> rfl

/-- Live bytes lie between the start of an entry and its end. -/
theorem Entry.weight_eq (e : Entry) :
    e.weight+e.lead = if e.live then e.bytes.length else e.lead := by
  cases e with
  | line l =>
    rw [Entry.live_line, if_pos rfl, Entry.weight, Entry.lead, Entry.bytes, Line.bytes_length]
    omega
  | slot s =>
    rw [Entry.live_slot, Entry.weight, Entry.lead, Entry.bytes, Slot.bytes_length]
    cases s.record.live with
    | false => simp
    | true =>
      simp only [if_true]
      omega

/-- `_iter_calc` counts one more entry. -/
theorem Counted.next {b : KvBlock} {pre : List Entry} (h : Counted b pre) (block : ℕ) (e : Entry)
    (hs : span pre+e.bytes.length < size) (hsize : size < 65536) (hmod : size % 4 = 0) :
    Counted (iterCalc (e.node block (span pre)) b) (pre ++ [e]) := by
  have hnext : (e.node block (span pre)).nextOffset = span pre+e.bytes.length :=
    Entry.node_next (by omega)
  have hhead : (e.node block (span pre)).headOffset = span pre+e.lead :=
    Entry.node_head (by omega)
  have hvalid : (e.node block (span pre)).valid = e.live := e.node_valid
  have hrw := e.node_rw block (span pre)
  have hal := align4_spec (span pre+e.bytes.length)
  have hle := weight_le_span pre
  have hlen := length_le_span pre
  have hcount : pre.countP Entry.live ≤ pre.length := countP_le_length
  have hlines : pre.countP Entry.isLine ≤ pre.length := countP_le_length
  have hweight := e.weight_eq
  have hone : [e].countP Entry.live = if e.live then 1 else 0 := by
    rw [countP_singleton]
  have hro : [e].countP Entry.isLine = if e.isLine then 1 else 0 := by
    rw [countP_singleton]
  refine ⟨?_, ?_, ?_, ?_⟩
  · rw [span_append]
    simp only [iterCalc, hnext]
    exact u16_natCast (by omega)
  · rw [weight_append, weight_cons, weight_nil, ←h.kvSize]
    cases hl : e.live with
    | false =>
      rw [hl, if_neg (by decide)] at hweight
      simp only [iterCalc, hvalid, hl, Bool.false_eq_true, if_false]
      omega
    | true =>
      rw [hl, if_pos rfl] at hweight
      rw [←h.kvSize] at hle
      simp only [iterCalc, hvalid, hl]
      exact u16_eq (by push_cast; omega) (by omega)
  · rw [countP_append, hone, ←h.count]
    cases hl : e.live with
    | false => simp only [iterCalc, hvalid, hl, Bool.false_eq_true, if_false, add_zero]
    | true =>
      rw [←h.count] at hcount
      simp only [iterCalc, hvalid, hl, if_true]
      exact u16_eq (by push_cast; rfl) (by omega)
  · rw [countP_append, hro, ←h.roCount]
    rw [←h.roCount] at hlines
    cases e with
    | line l =>
      simp only [iterCalc, hvalid, Entry.live_line, Entry.isLine_line, if_true]
      exact u16_eq (by push_cast; rfl) (by omega)
    | slot s =>
      simp only [iterCalc]
      split <;> rfl

/-- Scanning entries counts them and enters the live ones. -/
theorem iterCalcAll_entries (block : ℕ) {pre list : List Entry} (h : EntriesAt m (span pre) list)
    (hs : span pre+span list < size) (hsize : size < 65536) (hmod : size % 4 = 0) {b : KvBlock}
    (hb : Counted b pre) (cache : KeyCache) :
    ∃ b', iterNodes false (iterCalcAll size m) (entryNodes block (span pre) list) (b, cache) =
        (b', (entryNotes size m block (span pre) list).foldl note cache) ∧
      Counted b' (pre ++ list) := by
  induction list generalizing pre b cache with
  | nil =>
    rw [append_nil]
    exact ⟨b, rfl, hb⟩
  | cons e list ih =>
    have hpre : span (pre ++ [e]) = span pre+e.bytes.length := by
      rw [span_append, span_cons, span_nil, add_zero]
    rw [span_cons] at hs
    have hhead : (e.node block (span pre)).headOffset = span pre+e.lead :=
      Entry.node_head (by omega)
    have hblock : (e.node block (span pre)).block = block := by cases e <;> rfl
    have hcache : (if (e.node block (span pre)).valid = true then
        iterCache size m (e.node block (span pre)) cache else cache) =
        if e.live then
          note cache (cstrAt m (span pre+e.lead) size, ⟨u16 block, span pre+e.lead⟩)
        else cache := by
      rw [e.node_valid, iterCache, hhead, hblock]
      rfl
    have hstep := hb.next block e (by omega) hsize hmod
    obtain ⟨b', hiter, hb'⟩ := ih
      (by rw [hpre]; exact h.2) (by omega)
      hstep (if e.live then
        note cache (cstrAt m (span pre+e.lead) size, ⟨u16 block, span pre+e.lead⟩) else cache)
    rw [append_assoc] at hb'
    refine ⟨b', ?_, hb'⟩
    rw [entryNodes, iterNodes]
    simp only [iterCalcAll, hcache]
    rw [←hpre]
    refine hiter.trans (congrArg (Prod.mk b') ?_)
    rw [hpre, entryNotes]
    split <;> rfl

end Scan

/-- What the start leaves of the entries of a block. -/
def Left (list list' : List Entry) : Prop :=
  list' = list ∨ list' = [] ∧ list.countP Entry.live = 0

theorem Left.lines {list list' : List Entry} (h : Left list list') :
    linesAt 0 list' = linesAt 0 list := by
  rcases h with rfl | ⟨rfl, hz⟩
  · rfl
  · have hsplit := countP_live list
    rw [linesAt_of_isLine (show list.countP Entry.isLine = 0 by omega)]
    rfl

theorem Left.hasKey {list list' : List Entry} (h : Left list list') (key : List UInt8) :
    list'.countP (Entry.hasKey key) = list.countP (Entry.hasKey key) := by
  rcases h with rfl | ⟨rfl, hz⟩
  · rfl
  · rw [hasKey_of_not_live hz]
    rfl

section Init

variable {s : InitState} {i : ℕ} {list : List Entry}

/-- Behind the entries the block is erased, so the tail loop leaves the write
offset alone. -/
theorem calcTail_entries {size : ℕ} {m : Mem} (h : EntryImage size m list) (hs : 512 ≤ size)
    (hmod : size % 4 = 0) :
    calcTail m (le32 m (size-4)) 128 (align4 (span list)) (align4 (span list)) =
      align4 (span list) := by
  have hal := align4_spec (span list)
  by_cases hlast : span list+4 ≤ size
  · rw [le32_blank h.blank (by omega) (by omega)]
    exact calcTail_blank h.blank hs 128 _ _ hal.1
  · rw [calcTail, if_neg (by omega)]

/-- `kvblock_init` counts the entries of its block and erases it if there are no
live ones. -/
theorem kvblockInit_mixed (hs : 512 ≤ s.kv.size) (hlt : s.kv.size < 65536)
    (hmod : s.kv.size % 4 = 0) (himg : EntryImage s.kv.size (s.kv.mem i) list)
    (hzero : s.kv.blocks i = .zero) :
    ∃ kv list', BlockInit s i (entryNotes s.kv.size (s.kv.mem i) i 0 list) kv ∧
      Left list list' ∧ MixedBlock s.kv.size (kv.mem i) (kv.blocks i) list' := by
  have hroom := himg.room
  obtain ⟨b, hscan, hb⟩ := iterCalcAll_entries i
    (show EntriesAt (s.kv.mem i) (span []) list from himg.stored)
    (by rw [span_nil, zero_add]; exact hroom) hlt hmod (b := .zero) ⟨rfl, rfl, rfl, rfl⟩
    s.cache
  rw [nil_append] at hb
  have hiter := kvblockIter_entries i false (iterCalcAll s.kv.size (s.kv.mem i))
    (KvBlock.zero, s.cache) himg.stored hroom hlt himg.blank
  rw [show entryNodes i 0 list = entryNodes i (span []) list from rfl, hscan] at hiter
  have htail := calcTail_entries himg hs hmod
  rw [←hb.writeOffset] at htail
  obtain ⟨kv, hinit, hkv⟩ := kvblockInit_scan hzero hiter htail
  split_ifs at hkv with herase
  · have hdead : list.countP Entry.live = 0 := hb.count ▸ herase.1
    have hsplit := countP_live list
    refine ⟨kv, [], hinit, .inr ⟨rfl, hdead⟩, ⟨trivial, by rw [span_nil]; omega, hkv.1⟩, ?_⟩
    rw [hkv.2]
    exact ⟨rfl, rfl, rfl, hb.roCount.trans (show list.countP Entry.isLine = 0 by omega)⟩
  · refine ⟨kv, list, hinit, .inl rfl, ?_⟩
    rw [hkv.1, hkv.2]
    exact ⟨himg, hb⟩

end Init

section Loop

variable {s : InitState} {es : ℕ → List Entry}

/-- What the scan of the blocks from `i` on enters into the cache. -/
structure ScanNotes (es : ℕ → List Entry) (i n : ℕ) (xs : List (List UInt8 × CacheNode)) :
    Prop where
  /-- Everything stands for a live entry. -/
  noted : ∀ x ∈ xs, ∃ j, i ≤ j ∧ j < i+n ∧ NoteIn j (es j) x
  /-- Keys of records are entered once for each live record. -/
  count : ∀ key, textQuiet false key = true → xs.countP (fun x => x.1 == key) =
    ∑ j ∈ Finset.Ico i (i+n), (es j).countP (Entry.hasKey key)

theorem scanNotes_nil (es : ℕ → List Entry) (i : ℕ) : ScanNotes es i 0 [] := by
  refine ⟨fun x hx => absurd hx not_mem_nil, fun key _ => ?_⟩
  rw [add_zero, Finset.Ico_self, Finset.sum_empty, countP_nil]

/-- The notes of one more block. -/
theorem ScanNotes.cons {size n i : ℕ} {m : Mem} {xs : List (List UInt8 × CacheNode)}
    (h : ScanNotes es (i+1) n xs) (himg : EntryImage size m (es i)) (hs : 63 < size) :
    ScanNotes es i (n+1) (entryNotes size m i 0 (es i) ++ xs) := by
  have hroom := himg.room
  refine ⟨fun x hx => ?_, fun key hq => ?_⟩
  · rcases List.mem_append.mp hx with hx | hx
    · have hstart : EntriesAt m (span []) (es i) := himg.stored
      exact ⟨i, le_rfl, by omega,
        entryNotes_in hstart (by rw [span_nil, zero_add]; exact hroom) hs x hx⟩
    · obtain ⟨j, hj, hj', hin⟩ := h.noted x hx
      exact ⟨j, by omega, by omega, hin⟩
  · rw [countP_append, entryNotes_count himg.stored (by omega) hs hq, h.count key hq,
      Finset.sum_eq_sum_Ico_succ_bot (show i < i+(n+1) by omega), show i+1+n = i+(n+1) by omega]

end Loop

section Cache

variable {cache : KeyCache} {xs : List (List UInt8 × CacheNode)}

/-- The cache after entries were noted: what is kept to be verified was noted
twice, and every index leads to something that was noted. -/
structure Noted (cache : KeyCache) (xs : List (List UInt8 × CacheNode)) : Prop where
  /-- The indices are in order. -/
  ok : CacheOk cache
  /-- Something with the same key was noted before. -/
  twice : ∀ x ∈ cache.head, x ∈ xs ∧ 2 ≤ xs.countP (fun y => y.1 == x.1)
  /-- The key is known. -/
  known : ∀ x ∈ cache.head, hashGet2 cache.map x.1 ≠ none
  /-- A known key leads to something noted under it. -/
  position : ∀ key idx, hashGet2 cache.map key = some idx →
    (key, cache.nodes.getD idx .unused) ∈ xs

theorem Noted.note (h : Noted cache xs) {x : List UInt8 × CacheNode}
    (hx : x.2.blockId ≠ 0xFFFF) : Noted (note cache x) (xs ++ [x]) := by
  have hself : [x].countP (fun y => y.1 == x.1) = 1 := by simp
  have hgrow : ∀ y ∈ cache.head, y ∈ xs ++ [x] ∧ 2 ≤ (xs ++ [x]).countP (fun z => z.1 == y.1) := by
    intro y hy
    obtain ⟨hmem, hcount⟩ := h.twice y hy
    refine ⟨mem_append_left _ hmem, ?_⟩
    rw [countP_append]
    omega
  have hkeep : ∀ y ∈ cache.head, hashGet2 (Kv.note cache x).map y.1 ≠ none := fun y hy hn =>
    h.known y hy (note_none.mp hn).1
  by_cases hg : hashGet2 cache.map x.1 = none
  · obtain ⟨-, hnode, hother⟩ := note_nodes h.ok hg
    have hhead : (Kv.note cache x).head = cache.head := by rw [note_fresh hg]
    refine ⟨h.ok.note hx, by rw [hhead]; exact hgrow, by rw [hhead]; exact hkeep,
      fun key idx hidx => ?_⟩
    have hmap : hashGet2 (Kv.note cache x).map key =
        if key = x.1 then some (kvCacheNodeGet cache.nodes).1 else hashGet2 cache.map key := by
      rw [note_fresh hg, hashGet2_hashSet]
    rw [hmap] at hidx
    split at hidx
    · next he =>
      rw [←Option.some.inj hidx, hnode, he]
      exact mem_append_right _ (List.mem_singleton.mpr rfl)
    · rw [(hother key idx hidx).2.2]
      exact mem_append_left _ (h.position key idx hidx)
  · obtain ⟨idx0, hidx0⟩ := Option.ne_none_iff_exists'.mp hg
    have hbefore : 0 < xs.countP (fun y => y.1 == x.1) :=
      List.countP_pos_iff.mpr ⟨_, h.position x.1 idx0 hidx0, beq_self_eq_true _⟩
    have hok := h.ok.note hx
    rw [note_known hg] at hok hkeep ⊢
    refine ⟨hok, fun y hy => ?_, fun y hy => ?_, fun key idx hidx =>
      mem_append_left _ (h.position key idx hidx)⟩
    · rcases List.mem_append.mp hy with hy | hy
      · exact hgrow y hy
      · rw [List.mem_singleton.mp hy]
        refine ⟨mem_append_right _ (List.mem_singleton.mpr rfl), ?_⟩
        rw [countP_append, hself]
        omega
    · rcases List.mem_append.mp hy with hy | hy
      · exact hkeep y hy
      · rw [List.mem_singleton.mp hy]
        exact hg

theorem Noted.foldl (h : Noted cache xs) (ys : List (List UInt8 × CacheNode))
    (hid : ∀ y ∈ ys, y.2.blockId ≠ 0xFFFF) : Noted (ys.foldl Kv.note cache) (xs ++ ys) := by
  induction ys generalizing cache xs with
  | nil =>
    rw [append_nil]
    exact h
  | cons y ys ih =>
    have hrest := ih (h.note (hid y mem_cons_self)) fun z hz =>
      hid z (mem_cons_of_mem y hz)
    rwa [append_assoc] at hrest

end Cache

section Verify

variable {s : InitState} {es : ℕ → List Entry}

/-- Of two text lines `kv_verify` deletes none: their versions are equal. -/
theorem kvblockCheckVersion_lines (m1 m2 : Mem) {node1 node2 : KvNode} (h1 : node1.version = 0)
    (h2 : node2.version = 0) : kvblockCheckVersion m1 m2 node1 node2 = none := by
  rw [kvblockCheckVersion, h1, h2]
  split
  · rfl
  · rfl

/-- A cache entry whose text is no key of a record leads to a text line. -/
theorem NoteIn.search {j : ℕ} {kv : Kvset} {x : List UInt8 × CacheNode} (h : NoteIn j (es j) x)
    (hj : j < 65535) (hloud : textQuiet false x.1 = false) {list : List Entry}
    (hleft : Left (es j) list) (hb : MixedBlock kv.size (kv.mem j) (kv.blocks j) list)
    (hlt : kv.size < 65536) :
    ∃ node, kvblockSearch kv.size (kv.mem x.2.blockId) x.2.blockId x.2.offset = some node ∧
      node.version = 0 := by
  obtain ⟨pre, e, post, hes, hlive, hpos, hkind⟩ := h
  obtain ⟨l, rfl⟩ : ∃ l, e = .line l := by
    rcases hkind with ⟨s, -, hkey⟩ | ⟨l, hl, -⟩
    · rw [hkey, s.record.key_quiet] at hloud
      cases hloud
    · exact ⟨l, hl⟩
  have hlist : list = pre ++ .line l :: post := by
    rcases hleft with rfl | ⟨-, hdead⟩
    · exact hes
    · rw [hes, countP_append, countP_cons, if_pos hlive] at hdead
      omega
  have hstored := hb.stored
  have hroom := hb.room
  rw [hlist, entriesAt_append, zero_add] at hstored
  rw [hlist, span_append, span_cons] at hroom
  have hid : u16 (j : ℤ) = j := u16_natCast (by omega)
  refine ⟨(Entry.line l).node j (span pre), ?_, rfl⟩
  rw [hpos, hid]
  exact kvblockSearch_lead j hstored.2.1 (by omega) hlt

/-- With one record a key the verification changes nothing. -/
theorem kvVerify_mixed (hnum : s.kv.num ≤ 65535) (hlt : s.kv.size < 65536)
    {xs : List (List UInt8 × CacheNode)} (hnoted : Noted s.cache xs)
    (hxs : ScanNotes es 0 s.kv.num xs) (hkeys : UniqueKeys s.kv.num es)
    (hblock : ∀ j, j < s.kv.num → ∃ list, Left (es j) list ∧
      MixedBlock s.kv.size (s.kv.mem j) (s.kv.blocks j) list) : kvVerify s = s := by
  have hsearch : ∀ x ∈ xs, textQuiet false x.1 = false → ∃ node,
      kvblockSearch s.kv.size (s.kv.mem x.2.blockId) x.2.blockId x.2.offset = some node ∧
        node.version = 0 := by
    intro x hx hloud
    obtain ⟨j, -, hj, hin⟩ := hxs.noted x hx
    rw [zero_add] at hj
    obtain ⟨list, hleft, hb⟩ := hblock j hj
    exact hin.search (by omega) hloud hleft hb hlt
  have hone : ∀ x ∈ s.cache.head, verifyOne s x = s := by
    intro x hx
    obtain ⟨hmem, htwice⟩ := hnoted.twice x hx
    have hloud : textQuiet false x.1 = false := by
      by_contra hq
      rw [Bool.not_eq_false] at hq
      have hcount := hxs.count x.1 hq
      have hle := hkeys x.1
      rw [keyCount, Finset.range_eq_Ico] at hle
      rw [zero_add] at hcount
      omega
    obtain ⟨idx, hidx⟩ := Option.ne_none_iff_exists'.mp (hnoted.known x hx)
    obtain ⟨node1, hs1, hv1⟩ := hsearch x hmem hloud
    obtain ⟨node2, hs2, hv2⟩ := hsearch _ (hnoted.position x.1 idx hidx) hloud
    simp only [verifyOne, hidx, getD_some, hs1, hs2, kvblockCheckVersion_lines _ _ hv1 hv2,
      ite_self]
  have hfold : ∀ heads : List (List UInt8 × CacheNode), (∀ x ∈ heads, x ∈ s.cache.head) →
      heads.foldl verifyOne s = s := by
    intro heads hheads
    induction heads with
    | nil => rfl
    | cons x heads ih =>
      rw [foldl_cons, hone x (hheads x mem_cons_self)]
      exact ih fun y hy => hheads y (mem_cons_of_mem x hy)
  exact hfold _ fun _ hx => hx

/-- `kv_init` on an image of entries with one record a key. -/
theorem kvInit_mixed {flash : Mem} {num size : ℕ} (geo : Geometry num size) (hid : num ≤ 65535)
    (himg : ∀ j, j < num → EntryImage size (window flash (j*size)) (es j))
    (hkeys : UniqueKeys num es) :
    ∃ kv es', kvInit flash num size = some kv ∧ Mixed kv es' ∧ UniqueKeys num es' ∧
      (∀ j, j < num → linesAt 0 (es' j) = linesAt 0 (es j)) ∧ kv.size = size ∧ kv.num = num := by
  obtain ⟨s, xs, hloop, hsize, hnum, hblock, helect, hcache, hxs⟩ := initLoop_start
    (fun j m => EntryImage size m (es j))
    (fun j m b => ∃ list, Left (es j) list ∧ MixedBlock size m b list) (ScanNotes es)
    (fun j m m' ha h => h.congr ha)
    (fun j m m' b ha ⟨list, hleft, hb⟩ => ⟨list, hleft, hb.congr ha⟩) (scanNotes_nil es)
    (fun s i hs hi him hz => by
      subst hs
      have hge := geo.size_ge
      obtain ⟨kv, list, hkv, hleft, hb⟩ :=
        kvblockInit_mixed geo.size_ge geo.size_lt geo.size_mod him hz
      exact ⟨kv, _, hkv, ⟨list, hleft, hb⟩, fun n ys h => h.cons him (by omega)⟩) himg
  obtain ⟨hok, hhead, hnone⟩ := initStart_cache flash num size
  have hstart : Noted (initStart flash num size).cache [] := by
    refine ⟨hok, ?_, ?_, fun key idx hidx => ?_⟩
    · exact fun x hx => absurd hx not_mem_nil
    · exact fun x hx => absurd hx not_mem_nil
    · cases hidx
  have hnoted := hstart.foldl xs fun x hx => by
    obtain ⟨j, -, hj, pre, e, post, -, -, hpos, -⟩ := hxs.noted x hx
    rw [hpos, u16_natCast (by omega)]
    dsimp only
    omega
  rw [←hcache] at hnoted
  have hverify : kvVerify s = s := by
    rw [←hnum] at hxs hkeys hblock
    rw [←hsize] at hblock
    exact kvVerify_mixed (by omega) (by rw [hsize]; exact geo.size_lt) hnoted hxs hkeys hblock
  have hex : ∀ j, ∃ list, j < num → Left (es j) list ∧
      MixedBlock size (s.kv.mem j) (s.kv.blocks j) list := by
    intro j
    by_cases hj : j < num
    · obtain ⟨list, hlist⟩ := hblock j hj
      exact ⟨list, fun _ => hlist⟩
    · exact ⟨[], fun hc => absurd hc hj⟩
  choose es' hes' using hex
  have hge := geo.num_ge
  refine ⟨s.kv, es', ?_, ⟨?_, ?_, ?_, ?_, fun g hg => ?_, fun j hj => ?_⟩, fun key => ?_,
    fun j hj => (hes' j hj).1.lines, hsize, hnum⟩
  · rw [kvInit, hloop, map_some, hverify]
  · rw [hsize]
    exact geo.size_ge
  · rw [hsize]
    exact geo.size_lt
  · rw [hsize]
    exact geo.size_mod
  · rcases helect.bid with hb | hb
    · omega
    · omega
  · rcases helect.gc with ⟨hgc, -⟩ | ⟨g', hg', hgc, -⟩
    · rw [hgc] at hg
      cases hg
    · rw [hgc] at hg
      rw [←Option.some.inj hg, hnum]
      exact hg'
  · rw [hsize]
    exact (hes' j (by omega)).2
  · have hsame : keyCount num es' key = keyCount num es key :=
      Finset.sum_congr rfl fun j hj => (hes' j (Finset.mem_range.mp hj)).1.hasKey key
    rw [hsame]
    exact hkeys key

end Verify

end PineVoice.Kv
