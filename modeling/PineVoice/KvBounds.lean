import PineVoice.KvRecord

/-!
# What the scanner reports lies in the block

`kvblock_search` trusts the lengths it decodes as long as the value starts early enough. A text
line always lies in the block; a binary record does exactly when its end does. If that holds
everywhere, `kvblock_iter` moves forward and returns.
-/

namespace PineVoice.Kv

open NorFlash

/-- The scanner started at `start` stops at the zero byte `c`: the first one
that passes its tests, with no text line before it. -/
structure Terminator (size : ℕ) (m : Mem) (start c : ℕ) : Prop where
  /-- The leading zero bytes are skipped. -/
  reached : skipZeros m (size-start) start ≤ c
  /-- The last byte of the block is not looked at. -/
  before : c < size-1
  /-- The byte ends a key. -/
  zero : m c = 0
  /-- The tests on the header pass. -/
  passes : rwCheck size m c = true
  /-- They fail at every zero byte before. -/
  first : ∀ z, skipZeros m (size-start) start ≤ z → z < c → m z = 0 → rwCheck size m z = false
  /-- No text line ends before. -/
  quiet : textQuiet false (readBytes m (skipZeros m (size-start) start)
    (c-skipZeros m (size-start) start)) = true

/-- The offset behind the record whose key ends at `c`, before it is cut to
sixteen bits. -/
def recordEnd (m : Mem) (c : ℕ) : ℕ :=
  c-keySizeAt m c+align4 (keySizeAt m c+valueSizeAt m c+6)+4

/-- The reported offsets are in order, inside the block and behind the start
of the search. -/
def Contained (size start : ℕ) (node : KvNode) : Prop :=
  node.headOffset < node.valueOffset ∧ node.valueOffset+node.valSize ≤ node.nextOffset ∧
    node.nextOffset ≤ size ∧ start < node.nextOffset

theorem keySizeAt_le (m : Mem) (c : ℕ) : keySizeAt m c ≤ 63 := by
  have h := (m (c+2)).toNat_lt
  rw [keySizeAt]
  omega

variable {block c n size : ℕ} {m : Mem} {node : KvNode}

theorem rwCheck_iff : rwCheck size m c = true ↔
    m (c+4) = 0x3D ∧ c+valueSizeAt m c < size ∧ keySizeAt m c ≤ c ∧
      m (c+2) = m (c+valueSizeAt m c+5) := by
  rw [rwCheck, decide_eq_true_eq]

theorem le_skipZeros (m : Mem) (n c : ℕ) : c ≤ skipZeros m n c := by
  induction n generalizing c with
  | zero => exact le_rfl
  | succ n ih =>
    rw [skipZeros]
    split
    · exact (Nat.le_succ c).trans (ih (c+1))
    · exact le_rfl

/-- Everything the main loop can report: a line end behind a delimiter, or
the first zero byte that passes the tests. -/
def SearchEnd (size : ℕ) (m : Mem) (block head : ℕ) (node : KvNode) (n c : ℕ)
    (delim : Option ℕ) : Prop :=
  (∃ d z, (delim = some d ∨ c ≤ d ∧ d < z) ∧ c ≤ z ∧ z < c+n ∧ node = roNode block head d z) ∨
    ∃ z, c ≤ z ∧ z < c+n ∧ m z = 0 ∧ rwCheck size m z = true ∧ node = rwNode m block z ∧
      (∀ y, c ≤ y → y < z → m y = 0 → rwCheck size m y = false) ∧
      textQuiet delim.isSome (readBytes m c (z-c)) = true

variable {head : ℕ} {delim : Option ℕ}

/-- A byte that does not end the search hands its delimiter to the next one. -/
theorem SearchEnd.next {delim' : Option ℕ} (h : SearchEnd size m block head node n (c+1) delim')
    (hdelim : ∀ d, delim' = some d → delim = some d ∨ d = c)
    (hzero : m c = 0 → rwCheck size m c = false)
    (hquiet : ∀ bs, textQuiet delim.isSome (m c :: bs) = textQuiet delim'.isSome bs) :
    SearchEnd size m block head node (n+1) c delim := by
  rcases h with ⟨d, z, hd, hcz, hzn, rfl⟩ | ⟨z, hcz, hzn, hz, hpass, rfl, hfirst, hq⟩
  · refine .inl ⟨d, z, ?_, by omega, by omega, rfl⟩
    rcases hd with hd | hd
    · rcases hdelim d hd with hd | rfl
      · exact .inl hd
      · exact .inr ⟨le_rfl, hcz⟩
    · exact .inr ⟨by omega, hd.2⟩
  · refine .inr ⟨z, by omega, by omega, hz, hpass, rfl, fun y hcy hyz => ?_, ?_⟩
    · rcases eq_or_lt_of_le hcy with rfl | hlt
      · exact hzero
      · exact hfirst y hlt hyz
    · rw [show z-c = (z-(c+1))+1 by omega, readBytes, hquiet]
      exact hq

theorem searchLoop_some (h : searchLoop size m block head n c delim = some node) :
    SearchEnd size m block head node n c delim := by
  fun_induction searchLoop size m block head n c delim with
  | case1 => cases h
  | case2 n c delim h0 hpass =>
    cases h
    refine .inr ⟨c, le_rfl, by omega, h0, hpass, rfl, fun y _ _ => by omega, ?_⟩
    rw [Nat.sub_self]
    rfl
  | case3 n c delim h0 hpass ih =>
    exact (ih h).next (fun d => .inl) (fun _ => by simpa using hpass) fun bs => by
      simp [textQuiet, h0]
  | case4 n c delim h0 he ih =>
    exact (ih h).next (fun d hd => .inr (by cases hd; rfl)) (absurd · h0) fun bs => by
      simp [textQuiet, he]
  | case5 n c h0 he hl d =>
    cases h
    exact .inl ⟨d, c, .inl rfl, le_rfl, by omega, rfl⟩
  | case6 n c h0 he hl ih =>
    exact (ih h).next (fun d hd => by cases hd) (absurd · h0) fun bs => by simp [textQuiet, hl]
  | case7 n c delim h0 he hl hr ih =>
    exact (ih h).next (fun d => .inl) (absurd · h0) fun bs => by simp [textQuiet, hr]
  | case8 n c delim h0 he hl hr ih =>
    refine (ih h).next (fun d hd => .inl ?_) (absurd · h0) fun bs => ?_
    · split at hd
      · exact hd
      · cases hd
    · cases hp : isprint (m c) <;> simp [textQuiet, h0, he, hl, hr, hp]

section Search

variable {size : ℕ} {m : Mem} {start : ℕ}

variable {block c : ℕ}

/-- At its terminator a binary record is reported. -/
theorem Terminator.search (h : Terminator size m start c) (block : ℕ) :
    kvblockSearch size m block start = some (rwNode m block c) := by
  rw [kvblockSearch]
  have hreached := h.reached
  have hbefore := h.before
  have hfirst := h.first
  have hquiet := h.quiet
  generalize skipZeros m (size-start) start = head at hreached hfirst hquiet ⊢
  have hheld := holds_readBytes m head (c-head)
  have hlen := readBytes_length m head (c-head)
  have hfuel : size-1-head = (readBytes m head (c-head)).length+((size-2-c)+1) := by omega
  obtain ⟨delim, he⟩ := searchLoop_text size block head ((size-2-c)+1) hheld
    (fun i hi hz => hfirst (head+i) (by omega) (by omega) hz)
    (show textQuiet (none : Option ℕ).isSome _ = true from hquiet)
  rw [hfuel, he, hlen, show head+(c-head) = c by omega, searchLoop.eq_def]
  dsimp only
  rw [if_pos h.zero,
    if_pos h.passes]

/-- What `kvblock_search` reports is a text line inside the block or the
record at the terminator. -/
theorem kvblockSearch_some {node : KvNode} (h : kvblockSearch size m block start = some node) :
    (∃ head d z, start ≤ head ∧ head ≤ d ∧ d < z ∧ z < size-1 ∧ node = roNode block head d z) ∨
      ∃ c, Terminator size m start c ∧ node = rwNode m block c := by
  have hle := le_skipZeros m (size-start) start
  rcases searchLoop_some h with ⟨d, z, hd, hcz, hzn, rfl⟩ | ⟨c, hcz, hzn, h0, hpass, rfl, hf, hq⟩
  · rcases hd with hd | hd
    · cases hd
    · exact .inl ⟨_, d, z, hle, hd.1, hd.2, by omega, rfl⟩
  · exact .inr ⟨c, ⟨hcz, by omega, h0, hpass, hf, hq⟩, rfl⟩

/-- A text line always lies in the block. -/
theorem roNode_contained {head d z : ℕ} (hsize : size < 65536) (hs : start ≤ head) (hd : head ≤ d)
    (hz : d < z) (hlt : z < size-1) : Contained size start (roNode block head d z) := by
  simp only [Contained, roNode, u16]
  omega

/-- A binary record lies in the block exactly when its end does. -/
theorem rwNode_contained_iff (hsize : size < 65536) (h : Terminator size m start c) :
    Contained size start (rwNode m block c) ↔ recordEnd m c ≤ size := by
  have hkey := keySizeAt_le m c
  have hreached := (le_skipZeros m (size-start) start).trans h.reached
  obtain ⟨-, hvalue, hle, -⟩ := rwCheck_iff.mp h.passes
  have hspec := align4_spec (keySizeAt m c+valueSizeAt m c+6)
  simp only [Contained, rwNode, recordEnd, u16]
  omega

/-- One search reports only records in the block exactly when the record at
its terminator, if there is one, ends there. -/
theorem kvblockSearch_contained (hsize : size < 65536) :
    (∀ node, kvblockSearch size m block start = some node → Contained size start node) ↔
      ∀ c, Terminator size m start c → recordEnd m c ≤ size := by
  constructor
  · intro h c hc
    exact (rwNode_contained_iff hsize hc).mp (h _ (hc.search block))
  · intro h node hnode
    rcases kvblockSearch_some hnode with ⟨head, d, z, hs, hd, hz, hlt, rfl⟩ | ⟨c, hc, rfl⟩
    · exact roNode_contained hsize hs hd hz hlt
    · exact (rwNode_contained_iff hsize hc).mpr (h c hc)

end Search

/-- A callback that also logs the records it is called on. -/
def logged {σ : Type} (fn : KvNode → σ → σ × ℤ) (node : KvNode) (t : σ × List KvNode) :
    (σ × List KvNode) × ℤ :=
  (((fn node t.1).1, t.2 ++ [node]), (fn node t.1).2)

/-- `kvblock_iter` returns when every search moves forward inside the block,
and keeps what every call of the callback keeps. -/
theorem kvblockIter_keeps {σ : Type} {onlyValid : Bool} {fn : KvNode → σ → σ × ℤ}
    {Inv : ℕ → σ → Prop}
    (hin : ∀ start, start < size → ∀ node, kvblockSearch size m block start = some node →
      Contained size start node)
    (hcall : ∀ start node s, Contained size start node → Inv start s →
      Inv node.nextOffset (fn node s).1)
    (hmove : ∀ start next s, start ≤ next → Inv start s → Inv next s) {next : ℕ} {s : σ}
    (hfuel : size-next < n) (hs : Inv next s) :
    ∃ s' last, kvblockIter size m block onlyValid fn n next s = some s' ∧
      (last ≤ size ∨ last = next) ∧ Inv last s' := by
  induction n generalizing next s with
  | zero => omega
  | succ n ih =>
    rw [kvblockIter]
    cases hnode : kvblockSearch size m block next with
    | none => exact ⟨s, next, rfl, .inr rfl, hs⟩
    | some node =>
      have hlt : next < size := by
        rcases kvblockSearch_some hnode with ⟨head, d, z, h⟩ | ⟨c, hc, -⟩
        · omega
        · have hle := (le_skipZeros m (size-next) next).trans hc.reached
          have hb := hc.before
          omega
      have hc := hin next hlt node hnode
      have hend := hc.2.2.1
      have hstart := hc.2.2.2
      dsimp only
      split
      · split
        · exact ⟨_, node.nextOffset, rfl, .inl hend, hcall next node s hc hs⟩
        · obtain ⟨s', last, he, hl, hi⟩ := ih (by omega) (hcall next node s hc hs)
          exact ⟨s', last, he, .inl (by omega), hi⟩
      · obtain ⟨s', last, he, hl, hi⟩ := ih (by omega) (hmove next node.nextOffset s hstart.le hs)
        exact ⟨s', last, he, .inl (by omega), hi⟩

/-- Records logged before the scan reached an offset. -/
def Visited (size next : ℕ) (nodes : List KvNode) : Prop :=
  nodes.length ≤ next ∧ ∀ node ∈ nodes, Contained size 0 node

theorem Visited.snoc {start : ℕ} {nodes : List KvNode} (h : Visited size start nodes)
    (hc : Contained size start node) : Visited size node.nextOffset (nodes ++ [node]) := by
  obtain ⟨hlen, hall⟩ := h
  obtain ⟨h1, h2, h3, h4⟩ := hc
  refine ⟨by rw [List.length_append, List.length_singleton]; omega, fun x hx => ?_⟩
  rcases List.mem_append.mp hx with hx | hx
  · exact hall x hx
  · rw [List.mem_singleton.mp hx]
    exact ⟨h1, h2, h3, by omega⟩

/-- The scanner reports only records inside the block from exactly those
start positions from which the binary record it stops at, if any, ends in
the block. If this holds for all of them, `kvblock_iter` returns after
finitely many records, all of them in the block. -/
theorem scanner_contained_iff {size : ℕ} (hsize : 512 ≤ size ∧ size < 65536) (m : Mem)
    (block : ℕ) :
    (∀ start, start < size →
      ((∀ node, kvblockSearch size m block start = some node → Contained size start node) ↔
        ∀ c, Terminator size m start c → recordEnd m c ≤ size)) ∧
    ((∀ start, start < size → ∀ c, Terminator size m start c → recordEnd m c ≤ size) →
      ∀ {σ : Type} (onlyValid : Bool) (fn : KvNode → σ → σ × ℤ) (s : σ), ∃ s' nodes,
        kvblockIter size m block onlyValid (logged fn) iterFuel 0 (s, []) = some (s', nodes) ∧
          nodes.length ≤ size ∧ ∀ node ∈ nodes, Contained size 0 node) := by
  refine ⟨fun start _ => kvblockSearch_contained hsize.2, fun hends σ onlyValid fn s => ?_⟩
  have hin : ∀ start, start < size → ∀ node, kvblockSearch size m block start = some node →
      Contained size start node :=
    fun start hlt => (kvblockSearch_contained hsize.2).mpr (hends start hlt)
  obtain ⟨t, last, hiter, hlast, hlen, hall⟩ : ∃ t last,
      kvblockIter size m block onlyValid (logged fn) iterFuel 0 (s, []) = some t ∧
        (last ≤ size ∨ last = 0) ∧ Visited size last t.2 :=
    kvblockIter_keeps hin (fun start node t hc ht => ht.snoc hc)
      (fun start next t hle ht => ⟨ht.1.trans hle, ht.2⟩) (by rw [iterFuel]; omega)
      ⟨le_rfl, fun _ h => absurd h List.not_mem_nil⟩
  exact ⟨t.1, t.2, hiter, by omega, hall⟩

/-- An erased block except for the text line `a=1`. -/
def lineBlock : Mem := fun i => [0x61, 0x3D, 0x31, 0x0A].getD i 0xFF

theorem lineBlock_ne (i : ℕ) : lineBlock i ≠ 0 := by
  match i with
  | 0 | 1 | 2 | 3 => decide
  | _+4 => exact (by decide : (0xFF : UInt8) ≠ 0)

/-- Without a zero byte every record is a text line. -/
theorem scanner_contained_line :
    ∃ s' nodes, kvblockIter 512 lineBlock 0 false (logged fun _ (s : ℕ) => (s+1, 0)) iterFuel 0
      (0, []) = some (s', nodes) ∧ nodes.length ≤ 512 ∧ ∀ node ∈ nodes, Contained 512 0 node :=
  (scanner_contained_iff (by decide) lineBlock 0).2
    (fun _ _ c hc => absurd hc.zero (lineBlock_ne c)) false (fun _ s => (s+1, 0)) 0

/-- A block of 512 bytes, erased except for its last eight bytes: a record
with a key and a value of one byte, and no room for its flag word. -/
def tightBlock : Mem := fun i =>
  if i < 504 then 0xFF else [0x6B, 0, 1, 4, 1, 0x3D, 7, 4].getD (i-504) 0xFF

/-- The record is reported although it ends four bytes behind the block. -/
theorem record_behind_block :
    (kvblockSearch 512 tightBlock 0 0).map (fun node => (node.rw, node.headOffset,
      node.valueOffset, node.valSize, node.nextOffset)) = some (true, 504, 510, 1, 516) ∧
    ¬∀ node, kvblockSearch 512 tightBlock 0 0 = some node → Contained 512 0 node := by
  have hsearch : (kvblockSearch 512 tightBlock 0 0).map (fun node => (node.rw, node.headOffset,
      node.valueOffset, node.valSize, node.nextOffset)) = some (true, 504, 510, 1, 516) := by
    decide +kernel
  refine ⟨hsearch, fun h => ?_⟩
  obtain ⟨node, hnode, he⟩ := Option.map_eq_some_iff.mp hsearch
  have hend := (h node hnode).2.2.1
  simp only [Prod.mk.injEq] at he
  omega

end PineVoice.Kv
