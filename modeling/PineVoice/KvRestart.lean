import PineVoice.KvScan

/-!
# Start of the store

`kv_init` scans the blocks in order, enters every live record into the cache,
elects the block with most free bytes as the reserve and finally deletes the
older of two records with one key. An image whose logs determine the contents
becomes a store that holds them.
-/

namespace PineVoice.Kv

open NorFlash AosHash List Option

section Cache

variable {cache : KeyCache} {x : List UInt8 × CacheNode}

/-- Every index in use points at a position, and no two keys share one. -/
structure CacheOk (cache : KeyCache) : Prop where
  /-- Indices in use are taken. -/
  used : ∀ key idx, hashGet2 cache.map key = some idx →
    idx < cache.nodes.length ∧ (cache.nodes.getD idx .unused).blockId ≠ 0xFFFF
  /-- Different keys have different indices. -/
  inj : ∀ key key' idx, hashGet2 cache.map key = some idx → hashGet2 cache.map key' = some idx →
    key = key'

/-- The cache knows the position of a key. -/
def CacheAt (cache : KeyCache) (key : List UInt8) (position : CacheNode) : Prop :=
  ∃ idx, hashGet2 cache.map key = some idx ∧ cache.nodes.getD idx .unused = position

/-- A node from the pool is not in use and leaves the others in place. -/
theorem kvCacheNodeGet_spec (nodes : List CacheNode) :
    (kvCacheNodeGet nodes).1 < (kvCacheNodeGet nodes).2.length ∧
    (∀ idx, idx < nodes.length → idx < (kvCacheNodeGet nodes).2.length ∧
      (kvCacheNodeGet nodes).2.getD idx .unused = nodes.getD idx .unused) ∧
    ∀ idx, idx < nodes.length → (nodes.getD idx .unused).blockId ≠ 0xFFFF →
      idx ≠ (kvCacheNodeGet nodes).1 := by
  rw [kvCacheNodeGet]
  cases hf : nodes.findIdx? (fun c => c.blockId = 0xFFFF) with
  | some i =>
    obtain ⟨hi, hfree, -⟩ := List.findIdx?_eq_some_iff_getElem.mp hf
    refine ⟨hi, fun idx hidx => ⟨hidx, rfl⟩, fun idx hidx hne he => hne ?_⟩
    subst he
    simpa [getElem?_eq_getElem hidx] using hfree
  | none =>
    refine ⟨?_, fun idx hidx => ⟨?_, ?_⟩, fun idx hidx _ => ?_⟩
    · simp
    · rw [length_append]
      omega
    · simp [getElem?_append_left hidx]
    · exact ne_of_lt hidx

theorem note_known (h : hashGet2 cache.map x.1 ≠ none) :
    note cache x = { cache with head := cache.head ++ [x] } := by
  rw [note]
  cases hg : hashGet2 cache.map x.1 with
  | none => exact absurd hg h
  | some _ => rfl

theorem note_fresh (h : hashGet2 cache.map x.1 = none) :
    note cache x = { cache with
      nodes := (kvCacheNodeGet cache.nodes).2.set (kvCacheNodeGet cache.nodes).1 x.2
      map := hashSet cache.map x.1 (kvCacheNodeGet cache.nodes).1 } := by
  rw [note, h]

variable {key : List UInt8} {position : CacheNode} {places : List Place}

theorem note_none :
    hashGet2 (note cache x).map key = none ↔ hashGet2 cache.map key = none ∧ key ≠ x.1 := by
  by_cases h : hashGet2 cache.map x.1 = none
  · rw [note_fresh h, hashGet2_hashSet]
    split
    · next he => simp [he]
    · next he => simp [he]
  · rw [note_known h]
    refine ⟨fun hn => ⟨hn, fun he => h (he ▸ hn)⟩, fun hn => hn.1⟩

/-- After a fresh key was entered: its own node, and those of other keys. -/
theorem note_nodes (h : CacheOk cache) (hg : hashGet2 cache.map x.1 = none) :
    (kvCacheNodeGet cache.nodes).1 < (note cache x).nodes.length ∧
    (note cache x).nodes.getD (kvCacheNodeGet cache.nodes).1 .unused = x.2 ∧
    ∀ key idx, hashGet2 cache.map key = some idx →
      idx < (note cache x).nodes.length ∧ idx ≠ (kvCacheNodeGet cache.nodes).1 ∧
      (note cache x).nodes.getD idx .unused = cache.nodes.getD idx .unused := by
  obtain ⟨hlt, hkeep, hfree⟩ := kvCacheNodeGet_spec cache.nodes
  rw [note_fresh hg]
  refine ⟨by rw [length_set]; exact hlt, by simp [hlt], fun key idx hidx => ?_⟩
  obtain ⟨hused, hne⟩ := h.used key idx hidx
  have hother := hfree idx hused hne
  obtain ⟨hlen, hsame⟩ := hkeep idx hused
  refine ⟨by rw [length_set]; exact hlen, hother, ?_⟩
  rw [←hsame, getD_eq_getElem?_getD, getElem?_set_ne hother.symm, getD_eq_getElem?_getD]

/-- Entering a position keeps the cache in order. -/
theorem CacheOk.note (h : CacheOk cache) (hx : x.2.blockId ≠ 0xFFFF) : CacheOk (note cache x) := by
  by_cases hg : hashGet2 cache.map x.1 = none
  · obtain ⟨hlt, hself, hother⟩ := note_nodes h hg
    have hmap : ∀ key, hashGet2 (Kv.note cache x).map key =
        if key = x.1 then some (kvCacheNodeGet cache.nodes).1 else hashGet2 cache.map key := by
      intro key
      rw [note_fresh hg, hashGet2_hashSet]
    refine ⟨fun key idx hidx => ?_, fun key key' idx h1 h2 => ?_⟩
    · rw [hmap] at hidx
      split at hidx
      · obtain rfl := Option.some.inj hidx
        rw [hself]
        exact ⟨hlt, hx⟩
      · obtain ⟨hlen, -, hsame⟩ := hother key idx hidx
        rw [hsame]
        exact ⟨hlen, (h.used key idx hidx).2⟩
    · rw [hmap] at h1 h2
      split at h1 <;> split at h2
      · next e1 e2 => rw [e1, e2]
      · exact absurd (Option.some.inj h1).symm (hother key' idx h2).2.1
      · exact absurd (Option.some.inj h2).symm (hother key idx h1).2.1
      · exact h.inj key key' idx h1 h2
  · rw [note_known hg]
    exact ⟨h.used, h.inj⟩

theorem cacheAt_note (h : CacheOk cache) (hg : hashGet2 cache.map x.1 = none) :
    CacheAt (note cache x) x.1 x.2 := by
  refine ⟨(kvCacheNodeGet cache.nodes).1, ?_, (note_nodes h hg).2.1⟩
  rw [note_fresh hg, hashGet2_hashSet, if_pos rfl]

/-- A position once known stays. -/
theorem CacheAt.note (hat : CacheAt cache key position) (h : CacheOk cache)
    : CacheAt (note cache x) key position := by
  obtain ⟨idx, hidx, hpos⟩ := hat
  by_cases hg : hashGet2 cache.map x.1 = none
  · have hne : key ≠ x.1 := fun he => by
      rw [he, hg] at hidx
      exact absurd hidx (by simp)
    refine ⟨idx, ?_, ((note_nodes h hg).2.2 key idx hidx).2.2.trans hpos⟩
    rw [note_fresh hg, hashGet2_hashSet, if_neg hne, hidx]
  · rw [note_known hg]
    exact ⟨idx, hidx, hpos⟩

/-- Keys of places. -/
def placeKeys (places : List Place) : List (List UInt8) := places.map fun p => p.record.key

theorem placeKeys_cons (p : Place) (ps : List Place) :
    placeKeys (p :: ps) = p.record.key :: placeKeys ps := rfl

theorem placeKeys_append (xs ys : List Place) :
    placeKeys (xs ++ ys) = placeKeys xs ++ placeKeys ys := map_append

theorem noteAll_append (xs ys : List Place) :
    noteAll cache (xs ++ ys) = noteAll (noteAll cache xs) ys := by
  rw [noteAll, map_append, foldl_append, noteAll, noteAll]

theorem noteAll_cons (p : Place) (ps : List Place) :
    noteAll cache (p :: ps) = noteAll (note cache p.entry) ps := rfl

theorem noteAll_none (places : List Place) :
    hashGet2 (noteAll cache places).map key = none ↔
      hashGet2 cache.map key = none ∧ key ∉ placeKeys places := by
  induction places generalizing cache with
  | nil => simp [noteAll, placeKeys]
  | cons p places ih =>
    rw [noteAll_cons, ih, note_none, placeKeys_cons, mem_cons, not_or, and_assoc]
    rfl

/-- Keys seen for the first time leave no entry to verify. -/
theorem noteAll_head (places : List Place)
    (hfresh : ∀ key ∈ placeKeys places, hashGet2 cache.map key = none)
    (hnodup : (placeKeys places).Nodup) : (noteAll cache places).head = cache.head := by
  induction places generalizing cache with
  | nil => rfl
  | cons p places ih =>
    rw [placeKeys_cons, nodup_cons] at hnodup
    have hp : hashGet2 cache.map p.entry.1 = none := hfresh _ (by simp [placeKeys, Place.entry])
    rw [noteAll_cons, ih ?_ hnodup.2, note_fresh hp]
    intro key hkey
    rw [note_none]
    refine ⟨hfresh key ?_, fun he => hnodup.1 ?_⟩
    · exact mem_cons_of_mem _ hkey
    · rw [show p.record.key = key from he.symm]
      exact hkey

theorem CacheOk.noteAll (h : CacheOk cache) (hid : ∀ p ∈ places, p.entry.2.blockId ≠ 0xFFFF)
    : CacheOk (noteAll cache places) := by
  induction places generalizing cache with
  | nil => exact h
  | cons p places ih =>
    rw [noteAll_cons]
    exact ih (h.note (hid p mem_cons_self)) fun q hq => hid q (mem_cons_of_mem _ hq)

theorem CacheAt.noteAll (hat : CacheAt cache key position) (h : CacheOk cache)
    (hid : ∀ p ∈ places, p.entry.2.blockId ≠ 0xFFFF) :
    CacheAt (noteAll cache places) key position := by
  induction places generalizing cache with
  | nil => exact hat
  | cons p places ih =>
    rw [noteAll_cons]
    exact ih (hat.note h) (h.note (hid p mem_cons_self))
      fun q hq => hid q (mem_cons_of_mem _ hq)

end Cache

/-- The live records of all blocks in the order of the scan. -/
def allLive (num : ℕ) (logs : ℕ → List Rec) : List Place :=
  (List.range num).flatMap fun i => liveAt i 0 (logs i)

section Places

variable {num : ℕ} {logs : ℕ → List Rec}

variable {p : Place}

theorem mem_liveAt {block off : ℕ} {log : List Rec} (h : p ∈ liveAt block off log) :
    ∃ pre post, log = pre ++ p.record :: post ∧ p.record.live = true ∧ p.block = block ∧
      p.off = off+total pre := by
  induction log generalizing off with
  | nil => simp [liveAt] at h
  | cons r log ih =>
    rw [liveAt] at h
    have htail : p ∈ liveAt block (off+r.nodeSize) log → ∃ pre post,
        r :: log = pre ++ p.record :: post ∧ p.record.live = true ∧ p.block = block ∧
          p.off = off+total pre := by
      intro hp
      obtain ⟨pre, post, hlog, hlive, hblock, hoff⟩ := ih hp
      refine ⟨r :: pre, post, by rw [hlog, cons_append], hlive, hblock, ?_⟩
      rw [hoff, total_cons, add_assoc]
    split at h
    · next hlive =>
      rcases List.mem_cons.mp h with rfl|hp
      · exact ⟨[], log, rfl, hlive, rfl, by rw [total_nil, add_zero]⟩
      · exact htail hp
    · exact htail h

/-- A place of the scan is a live record of its block. -/
theorem mem_allLive (h : p ∈ allLive num logs) :
    ∃ pre post, p.block < num ∧ logs p.block = pre ++ p.record :: post ∧
      p.record.live = true ∧ p.off = total pre := by
  obtain ⟨i, hi, hp⟩ := List.mem_flatMap.mp h
  obtain ⟨pre, post, hlog, hlive, rfl, hoff⟩ := mem_liveAt hp
  rw [zero_add] at hoff
  exact ⟨pre, post, List.mem_range.mp hi, hlog, hlive, hoff⟩

theorem logCopies_eq_liveAt (key : List UInt8) (block off : ℕ) (log : List Rec) :
    logCopies key log = (((liveAt block off log).filter fun p => p.record.key == key).map
      fun p => (p.record.value, p.record.version) : List _) := by
  induction log generalizing off with
  | nil => rfl
  | cons r log ih =>
    rw [logCopies_cons, liveAt, ih (off+r.nodeSize)]
    by_cases hl : r.live = true
    · by_cases hk : r.key = key
      · simp [hl, hk, Rec.copy]
      · simp [hl, hk, Rec.copy]
    · simp [hl]

/-- The copies of a key are the places of the scan with that key. -/
theorem copies_eq_allLive (num : ℕ) (logs : ℕ → List Rec) (key : List UInt8) :
    copies num logs key = (((allLive num logs).filter fun p => p.record.key == key).map
      fun p => (p.record.value, p.record.version) : List _) := by
  induction num with
  | zero => rfl
  | succ num ih =>
    rw [copies, Finset.sum_range_succ, ←copies, ih, logCopies_eq_liveAt key num 0, allLive, allLive,
      range_succ]
    simp

theorem count_placeKeys (num : ℕ) (logs : ℕ → List Rec) (key : List UInt8) :
    (placeKeys (allLive num logs)).count key = (copies num logs key).card := by
  rw [copies_eq_allLive, Multiset.coe_card, length_map, placeKeys, List.count,
    countP_map, countP_eq_length_filter]
  rfl

/-- Splitting places at the first one with a key. -/
theorem split_places {places : List Place} {key : List UInt8} {n : ℕ}
    (h : (placeKeys places).count key = n+1) :
    ∃ xs p ys, places = xs ++ p :: ys ∧ p.record.key = key ∧ key ∉ placeKeys xs ∧
      (placeKeys ys).count key = n := by
  induction places with
  | nil => simp [placeKeys] at h
  | cons q places ih =>
    rw [placeKeys_cons, count_cons] at h
    by_cases hq : q.record.key = key
    · refine ⟨[], q, places, rfl, hq, by simp [placeKeys], ?_⟩
      simpa [hq] using h
    · rw [if_neg (by simpa using hq)] at h
      obtain ⟨xs, p, ys, rfl, hp, hx, hy⟩ := ih h
      refine ⟨q :: xs, p, ys, rfl, hp, ?_, hy⟩
      rw [placeKeys_cons, mem_cons, not_or]
      exact ⟨fun he => hq he.symm, hx⟩

end Places

/-- The reserve elected among the first `n` blocks has most free bytes. -/
structure Elected (s : InitState) (n : ℕ) : Prop where
  /-- The current block is one of them. -/
  bid : s.kv.bid = 0 ∨ s.kv.bid < n
  /-- No block with free bytes so far, or the one with most of them. -/
  gc : (s.kv.gcBid = none ∧ s.gcSize = 0 ∧
      ∀ j, j < n → kvblockFreeSize s.kv.size (s.kv.blocks j) ≤ 4) ∨
    ∃ g, g < n ∧ s.kv.gcBid = some g ∧
      s.gcSize = kvblockFreeSize s.kv.size (s.kv.blocks g) ∧ 4 < s.gcSize ∧
      ∀ j, j < n → kvblockFreeSize s.kv.size (s.kv.blocks j) ≤ s.gcSize

/-- What the scan has established for a block. -/
def Settled (kv : Kvset) (logs : ℕ → List Rec) (clean : ℕ → Prop) (j : ℕ) : Prop :=
  BlockRep kv.size (kv.mem j) (kv.blocks j) (settle (logs j)) ∧
    (clean j → BlockClean kv.size (kv.mem j) (kv.blocks j) (settle (logs j)))

section Loop

variable {s : InitState} {logs : ℕ → List Rec} {clean : ℕ → Prop}

variable {n : ℕ}

/-- The election of one more block leaves the blocks and the cache. -/
theorem elect_same (s : InitState) (n : ℕ) :
    (elect s n).cache = s.cache ∧ (elect s n).kv.flash = s.kv.flash ∧
      (elect s n).kv.blocks = s.kv.blocks ∧ (elect s n).kv.size = s.kv.size ∧
      (elect s n).kv.num = s.kv.num := by
  simp only [elect]
  split_ifs <;> exact ⟨rfl, rfl, rfl, rfl, rfl⟩

/-- One more block joins the election. -/
theorem elect_elected (h : Elected s n) : Elected (elect s n) (n+1) := by
  have hbid := h.bid.imp_right Nat.lt_succ_of_lt
  simp only [elect]
  split_ifs with hv
  · refine ⟨hbid, .inr ⟨n, Nat.lt_succ_self n, rfl, rfl, hv.2,
      Nat.forall_lt_succ_right.mpr ⟨fun j hj => ?_, le_rfl⟩⟩⟩
    rcases h.gc with ⟨-, -, hsmall⟩|⟨g, -, -, -, -, hmax⟩
    · exact (hsmall j hj).trans hv.2.le
    · exact (hmax j hj).trans hv.1
  all_goals
    have hnext : Elected s (n+1) := by
      refine ⟨hbid, ?_⟩
      rcases h.gc with ⟨hn, hz, hsmall⟩|⟨g, hg, hn, hz, hbig, hmax⟩
      · exact .inl ⟨hn, hz, Nat.forall_lt_succ_right.mpr ⟨hsmall, by omega⟩⟩
      · exact .inr ⟨g, by omega, hn, hz, hbig, Nat.forall_lt_succ_right.mpr ⟨hmax, by omega⟩⟩
  · exact ⟨.inr (Nat.lt_succ_self n), hnext.gc⟩
  · exact hnext

/-- The scan of a block does not change the election before it. -/
theorem BlockInit.elected {kv : Kvset} {xs : List (List UInt8 × CacheNode)}
    (h : BlockInit s n xs kv) (he : Elected s n) :
    Elected { s with kv := kv, cache := xs.foldl note s.cache } n := by
  have hfree : ∀ j, j < n → kvblockFreeSize kv.size (kv.blocks j) =
      kvblockFreeSize s.kv.size (s.kv.blocks j) := fun j hj => by
    rw [h.size_eq, (h.other j (ne_of_lt hj)).1]
  refine ⟨by rw [h.bid_eq]; exact he.bid, ?_⟩
  rw [h.gcBid_eq]
  rcases he.gc with ⟨h1, h2, h3⟩|⟨g, h1, h2, h3, h4, h5⟩
  · exact .inl ⟨h1, h2, fun j hj => (hfree j hj).trans_le (h3 j hj)⟩
  · exact .inr ⟨g, h1, h2, h3.trans (hfree g h1).symm, h4,
      fun j hj => (hfree j hj).trans_le (h5 j hj)⟩

variable {size : ℕ} (Img : ℕ → Mem → Prop) (Done : ℕ → Mem → KvBlock → Prop)
  (Scan : ℕ → ℕ → List (List UInt8 × CacheNode) → Prop)
  (himg' : ∀ j m m', Agree m' m 0 size → Img j m → Img j m')
  (hdone' : ∀ j m m' b, Agree m' m 0 size → Done j m b → Done j m' b)
  (hnil : ∀ i, Scan i 0 [])
  (hinit : ∀ s i, s.kv.size = size → i < s.kv.num → Img i (s.kv.mem i) →
    s.kv.blocks i = .zero → ∃ kv xs, BlockInit s i xs kv ∧ Done i (kv.mem i) (kv.blocks i) ∧
      ∀ n ys, Scan (i+1) n ys → Scan i (n+1) (xs ++ ys))
include himg' hdone' hnil hinit

/-- The loop from block `i` on. -/
theorem initLoop_blocks (n i : ℕ) (hsize : s.kv.size = size) (hn : i+n = s.kv.num)
    (hdone : ∀ j, j < i → Done j (s.kv.mem j) (s.kv.blocks j))
    (himg : ∀ j, i ≤ j → j < s.kv.num → Img j (s.kv.mem j))
    (hzero : ∀ j, i ≤ j → s.kv.blocks j = .zero) (helect : Elected s i) :
    ∃ s' xs, initLoop n i s = some s' ∧ s'.kv.size = size ∧ s'.kv.num = s.kv.num ∧
      (∀ j, j < s.kv.num → Done j (s'.kv.mem j) (s'.kv.blocks j)) ∧ Elected s' s.kv.num ∧
      s'.cache = xs.foldl note s.cache ∧ Scan i n xs := by
  induction n generalizing s i with
  | zero =>
    subst hn
    exact ⟨s, [], rfl, hsize, rfl, hdone, helect, rfl, hnil _⟩
  | succ n ih =>
    obtain ⟨kv, xs, hkv, hdone1, hscan⟩ :=
      hinit s i hsize (by omega) (himg i le_rfl (by omega)) (hzero i le_rfl)
    have helect2 := elect_elected (hkv.elected helect)
    obtain ⟨hcache, hflash, hblocks, hsize2, hnum2⟩ :=
      elect_same { s with kv := kv, cache := xs.foldl note s.cache } i
    generalize hs2 : elect { s with kv := kv, cache := xs.foldl note s.cache } i =
      s2 at helect2 hcache hflash hblocks hsize2 hnum2
    rw [hkv.num_eq] at hnum2
    have hmem : ∀ j, s2.kv.mem j = kv.mem j := fun j => by
      rw [Kvset.mem, Kvset.mem, hflash, hsize2]
    have hother := hkv.other
    rw [hsize] at hother
    obtain ⟨s', ys, hloop, h1, h2, h3, h4, h5, h6⟩ := ih (i+1)
      (by rw [hsize2, hkv.size_eq, hsize]) (by omega)
      (Nat.forall_lt_succ_right.mpr ⟨fun j hj => by
        obtain ⟨hb, ha⟩ := hother j (ne_of_lt hj)
        rw [hmem, hblocks, hb]
        exact hdone' j _ _ _ ha (hdone j hj), by rwa [hmem, hblocks]⟩)
      (fun j hj hj' => by
        rw [hmem]
        exact himg' j _ _ (hother j (by omega)).2 (himg j (by omega) (by omega)))
      (fun j hj => by rw [hblocks, (hother j (by omega)).1]; exact hzero j (by omega)) helect2
    rw [hnum2] at h2 h3 h4
    refine ⟨s', xs ++ ys, ?_, h1, h2, h3, h4, ?_, hscan n ys h6⟩
    · rw [initLoop, hkv.init, bind_some, hs2, hloop]
    · rw [h5, hcache, foldl_append]

/-- The whole loop. -/
theorem initLoop_start {flash : Mem} {num : ℕ}
    (himg : ∀ j, j < num → Img j (window flash (j*size))) :
    ∃ s xs, initLoop num 0 (initStart flash num size) = some s ∧ s.kv.size = size ∧
      s.kv.num = num ∧ (∀ j, j < num → Done j (s.kv.mem j) (s.kv.blocks j)) ∧ Elected s num ∧
      s.cache = xs.foldl note (initStart flash num size).cache ∧ Scan 0 num xs :=
  initLoop_blocks (s := initStart flash num size) Img Done Scan himg' hdone' hnil hinit num 0
    rfl (zero_add _) (fun _ hj => absurd hj (Nat.not_lt_zero _)) (fun j _ hj => himg j hj)
    (fun _ _ => rfl) ⟨.inl rfl, .inl ⟨rfl, rfl, fun _ hj => absurd hj (Nat.not_lt_zero _)⟩⟩

end Loop

section Verify

/-- The version comparison of `kvblock_check_version`. -/
def olderOf (v1 v2 : UInt8) : Option Bool :=
  if v1 = 255 ∧ v2 = 1 then some false
  else if v1 = 1 ∧ v2 = 255 then some true
  else if v1 < v2 then some false
  else if v2 < v1 then some true
  else none

/-- Of two successive versions the first is found to be the older. -/
theorem olderOf_bump (w : UInt8) :
    olderOf w (bump w) = some false ∧ olderOf (bump w) w = some true := by
  by_cases h : w = 255
  · subst h
    exact ⟨rfl, rfl⟩
  · have hb := bump_toNat h
    have hlt : w < bump w := UInt8.lt_iff_toNat_lt.mpr (by omega)
    have hnlt : ¬bump w < w := fun hc => by
      have := UInt8.lt_iff_toNat_lt.mp hc
      omega
    have h1 : ¬(w = 1 ∧ bump w = 255) := by
      rintro ⟨rfl, hc⟩
      exact absurd hc (by decide)
    have h2 : ¬(bump w = 255 ∧ w = 1) := fun hc => h1 hc.symm
    refine ⟨?_, ?_⟩
    · rw [olderOf, if_neg fun hc => h hc.1, if_neg h1, if_pos hlt]
    · rw [olderOf, if_neg h2, if_neg fun hc => h hc.2, if_neg hnlt, if_pos hlt]

variable {kv : Kvset} {logs : ℕ → List Rec}

/-- A live record of the store. -/
def Place.In (logs : ℕ → List Rec) (num : ℕ) (p : Place) : Prop :=
  ∃ pre post, p.block < num ∧ logs p.block = pre ++ p.record :: post ∧
    p.record.live = true ∧ p.off = total pre

/-- The node the scanner reports for a place. -/
def Place.node (p : Place) : KvNode := p.record.node p.block p.off

variable {p q : Place}

theorem Place.In.lt {num : ℕ} (hp : p.In logs num) : p.block < num := by
  obtain ⟨_, _, hlt, -⟩ := hp
  exact hlt

theorem Place.In.holds (hp : p.In logs kv.num) (h : StoreRep kv logs) :
    Holds (kv.mem p.block) p.off p.record.bytes ∧ p.off+p.record.nodeSize ≤ kv.size := by
  obtain ⟨pre, post, hlt, hlog, -, hoff⟩ := hp
  have hrep := h.rep p.block hlt
  have hl := hrep.logAt
  have hroom := hrep.room
  rw [hlog, logAt_append, zero_add] at hl
  rw [hlog, total_append, total_cons] at hroom
  rw [hoff]
  exact ⟨hl.2.1, by omega⟩

theorem kvblockCheckVersion_eq (hp : p.In logs kv.num) (hq : q.In logs kv.num)
    (h : StoreRep kv logs) (hk : p.record.key = q.record.key) :
    kvblockCheckVersion (kv.mem p.block) (kv.mem q.block) p.node q.node =
      olderOf p.record.version q.record.version := by
  have hn : ((q.node.valueOffset : ℤ)-(q.node.headOffset : ℤ)-1) =
      ((q.record.key.length+4 : ℕ) : ℤ) := by
    simp only [Place.node, Rec.node]
    push_cast
    ring
  have hcmp : keycmp (window (kv.mem p.block) p.node.headOffset)
      (window (kv.mem q.block) q.node.headOffset)
      (q.node.valueOffset-q.node.headOffset-1) = 0 := by
    rw [hn]
    exact (keycmpLoop_eq_zero (Rec.holds_key (hp.holds h).1) (Rec.holds_key (hq.holds h).1)
      p.record.key_nul q.record.key_nul (by omega)).mpr hk
  rw [kvblockCheckVersion, if_neg (not_not.mpr hcmp)]
  rfl

/-- One round of `kv_verify` on two records of one key deletes the older. -/
theorem verifyOne_eq {s : InitState} (h : StoreRep s.kv logs) (hnum : s.kv.num ≤ 65535)
    (hp : p.In logs s.kv.num) (hq : q.In logs s.kv.num) (hk : q.record.key = p.record.key)
    (hat : CacheAt s.cache p.record.key p.entry.2) :
    (verifyOne s q.entry).kv = match olderOf q.record.version p.record.version with
      | none => s.kv
      | some false => kvnodeRm s.kv q.node
      | some true => kvnodeRm s.kv p.node := by
  obtain ⟨idx, hidx, hpos⟩ := hat
  have hlt := h.size_lt
  have hpb : u16 p.block = p.block := u16_natCast (by have := hp.lt; omega)
  have hqb : u16 q.block = q.block := u16_natCast (by have := hq.lt; omega)
  obtain ⟨hph, hps⟩ := hp.holds h
  obtain ⟨hqh, hqs⟩ := hq.holds h
  have hsp : kvblockSearch s.kv.size (s.kv.mem p.block) p.block p.off = some p.node :=
    kvblockSearch_rec hph p.block hps hlt
  have hsq : kvblockSearch s.kv.size (s.kv.mem q.block) q.block q.off = some q.node :=
    kvblockSearch_rec hqh q.block hqs hlt
  have hnp : kvnodeCmpName (s.kv.mem p.block) p.node q.record.key = 0 :=
    (kvnodeCmpName_rec p.block hph q.record.key_nul).mpr hk
  have hnq : kvnodeCmpName (s.kv.mem q.block) q.node q.record.key = 0 :=
    (kvnodeCmpName_rec q.block hqh q.record.key_nul).mpr rfl
  have hver := kvblockCheckVersion_eq hq hp h hk
  rw [←hk] at hidx
  simp only [verifyOne, Place.entry, hidx, getD_some, hpos, hpb, hqb, hsp, hsq, hnp, hnq, hver]
  cases olderOf q.record.version p.record.version with
  | none => rfl
  | some b => cases b <;> rfl

end Verify

/-- Sizes the store works with. -/
structure Geometry (num size : ℕ) : Prop where
  /-- There is a reserve block. -/
  num_ge : 2 ≤ num
  /-- A block holds the longest record. -/
  size_ge : 512 ≤ size
  /-- Sizes are sixteen bits wide. -/
  size_lt : size < 65536
  /-- Blocks consist of words. -/
  size_mod : size % 4 = 0

/-- The logs the scan leaves. -/
def settled (logs : ℕ → List Rec) : ℕ → List Rec := fun i => settle (logs i)

/-- The reserve is a block with most free bytes, if one has more than the
last word. -/
def ElectedGc (size num : ℕ) (logs : ℕ → List Rec) (gc : Option ℕ) : Prop :=
  (gc = none ∧ ∀ j, j < num → size ≤ total (logs j)+4) ∨
    ∃ g, g < num ∧ gc = some g ∧ total (logs g)+4 < size ∧
      ∀ j, j < num → total (logs g) ≤ total (logs j)

section Start

variable {flash : Mem} {num size : ℕ} {logs : ℕ → List Rec} {M : Contents}

theorem logCopies_settle (key : List UInt8) (log : List Rec) :
    logCopies key (settle log) = logCopies key log := by
  rw [settle]
  split
  · next h => rw [logCopies_of_liveCount key h, logCopies_nil]
  · rfl

theorem copies_settled (num : ℕ) (logs : ℕ → List Rec) (key : List UInt8) :
    copies num (settled logs) key = copies num logs key := by
  simp only [copies, settled, logCopies_settle]

theorem settled_of_used (h : ∀ i, i < num → liveCount (logs i) = 0 → logs i = []) {i : ℕ}
    (hi : i < num) : settled logs i = logs i := by
  rw [settled, settle]
  split
  · next hz => exact (h i hi hz).symm
  · rfl

theorem liveAt_of_liveCount {log : List Rec} (h : liveCount log = 0) (block off : ℕ) :
    liveAt block off log = [] := by
  induction log generalizing off with
  | nil => rfl
  | cons r log ih =>
    obtain ⟨hr, h⟩ := liveCount_cons_eq_zero.mp h
    simp [liveAt, hr, ih h]

theorem allLive_settled (num : ℕ) (logs : ℕ → List Rec) :
    allLive num (settled logs) = allLive num logs := by
  have h : ∀ i, liveAt i 0 (settle (logs i)) = liveAt i 0 (logs i) := fun i => by
    rw [settle]
    split
    · next hz => rw [liveAt_of_liveCount hz, liveAt]
    · rfl
  simp only [allLive, settled, h]

/-- The cache before the scan. -/
theorem initStart_cache (flash : Mem) (num size : ℕ) :
    CacheOk (initStart flash num size).cache ∧ (initStart flash num size).cache.head = [] ∧
      ∀ key, hashGet2 (initStart flash num size).cache.map key = none := by
  have hnone : ∀ key, hashGet2 (initStart flash num size).cache.map key = none :=
    fun key => hashGet2_hashInit 16 key
  refine ⟨⟨fun key idx h => ?_, fun key key' idx h _ => ?_⟩, rfl, hnone⟩
  · rw [hnone] at h
    exact absurd h (by simp)
  · rw [hnone] at h
    exact absurd h (by simp)

/-- `kv_init` before the verification. -/
theorem initLoop_image (geo : Geometry num size) (clean : ℕ → Prop)
    (himg : ∀ j, j < num → BlockImage size (window flash (j*size)) (logs j))
    (hclean : ∀ j, clean j →
      Blank (window flash (j*size)) (total (logs j)) size ∨ liveCount (logs j) = 0) :
    ∃ s, initLoop num 0 (initStart flash num size) = some s ∧ s.kv.size = size ∧
      s.kv.num = num ∧ StoreRep s.kv (settled logs) ∧
      s.cache = noteAll (initStart flash num size).cache (allLive num logs) ∧
      ((∀ j, j < num → clean j) → StoreReady s.kv (settled logs) ∧
        ElectedGc size num (settled logs) s.kv.gcBid) := by
  obtain ⟨s, xs, hloop, hsize, hnum, hdone, helect, hcache, rfl⟩ := initLoop_start
    (fun j m => BlockImage size m (logs j) ∧
      (clean j → Blank m (total (logs j)) size ∨ liveCount (logs j) = 0))
    (fun j m b => BlockRep size m b (settle (logs j)) ∧
      (clean j → BlockClean size m b (settle (logs j))))
    (fun i n xs => xs = ((range' i n).flatMap fun j => liveAt j 0 (logs j)).map Place.entry)
    (fun j m m' ha h => ⟨h.1.congr ha, fun hc => (h.2 hc).imp_left fun hb =>
      hb.congr (ha.mono (Nat.zero_le _) le_rfl)⟩)
    (fun j m m' b ha h => ⟨h.1.congr ha, fun hc => (h.2 hc).congr ha⟩) (fun _ => rfl)
    (fun s i hs hi him hz => by
      subst hs
      obtain ⟨kv, hkv, hrep, hcl⟩ :=
        kvblockInit_spec geo.size_ge geo.size_lt geo.size_mod him.1 hz
      refine ⟨kv, _, hkv, ⟨hrep, fun hc => hcl (him.2 hc)⟩, ?_⟩
      rintro n _ rfl
      rw [range'_succ, flatMap_cons, map_append])
    fun j hj => ⟨himg j hj, hclean j⟩
  have hset : ∀ j, j < num → Settled s.kv logs clean j := by
    intro j hj
    rw [Settled, hsize]
    exact hdone j hj
  have hrep : StoreRep s.kv (settled logs) := by
    refine ⟨?_, ?_, ?_, ?_, fun i hi => (hset i (by omega)).1⟩
    · rw [hsize]
      exact geo.size_ge
    · rw [hsize]
      exact geo.size_lt
    · rw [hsize]
      exact geo.size_mod
    · rw [hnum]
      exact geo.num_ge
  refine ⟨s, hloop, hsize, hnum, hrep, ?_, fun hall => ?_⟩
  · rw [hcache, allLive, range_eq_range', noteAll]
  · have hcl : ∀ j, j < num → BlockClean s.kv.size (s.kv.mem j) (s.kv.blocks j)
        (settled logs j) := fun j hj => (hset j hj).2 (hall j hj)
    have hge := geo.num_ge
    have hfree : ∀ j, j < num → kvblockFreeSize s.kv.size (s.kv.blocks j) =
        (size : ℤ)-total (settled logs j) := fun j hj => by
      rw [kvblockFreeSize, (hcl j hj).writeOffset, hsize]
    refine ⟨⟨hrep, fun i hi => hcl i (by omega), fun i _ hz => ?_, ?_⟩, ?_⟩
    · rw [settled, settle] at hz ⊢
      split
      · rfl
      · next hne =>
        rw [if_neg hne] at hz
        exact absurd hz hne
    · rcases helect.bid with hb|hb
      · omega
      · omega
    · rcases helect.gc with ⟨hgc, -, hsmall⟩|⟨g, hg, hgc, hgs, hbig, hmax⟩
      · refine .inl ⟨hgc, fun j hj => ?_⟩
        have := hsmall j hj
        rw [hfree j hj] at this
        omega
      · rw [hgs, hfree g hg] at hbig hmax
        refine .inr ⟨g, hg, hgc, by omega, fun j hj => ?_⟩
        have := hmax j hj
        rw [hfree j hj] at this
        omega

variable {s : InitState} {cache : KeyCache} {p q : Place} {key old value : List UInt8}
  {version : UInt8}

theorem kvVerify_nil (h : s.cache.head = []) : kvVerify s = s := by
  rw [kvVerify, h, foldl_nil]

/-- With one record a key the scan meets no key twice. -/
theorem Resolved.nodup (hM : Resolved num M logs) : (placeKeys (allLive num logs)).Nodup := by
  rw [nodup_iff_count_le_one]
  intro key
  rw [count_placeKeys]
  have hs := hM key
  cases hv : M key with
  | none =>
    rw [hv] at hs
    rw [show copies num logs key = 0 from hs]
    exact Nat.zero_le _
  | some v =>
    rw [hv] at hs
    obtain ⟨version, hc⟩ := hs
    rw [hc, Multiset.card_singleton]

/-- On an image with one record a key the verification has nothing to do. -/
theorem kvInit_resolved (geo : Geometry num size) (clean : ℕ → Prop)
    (himg : ∀ j, j < num → BlockImage size (window flash (j*size)) (logs j))
    (hclean : ∀ j, clean j →
      Blank (window flash (j*size)) (total (logs j)) size ∨ liveCount (logs j) = 0)
    (hM : Resolved num M logs) :
    ∃ kv, kvInit flash num size = some kv ∧ kv.size = size ∧ kv.num = num ∧
      StoreRep kv (settled logs) ∧ Resolved num M (settled logs) ∧
      ((∀ j, j < num → clean j) → StoreReady kv (settled logs) ∧
        ElectedGc size num (settled logs) kv.gcBid) := by
  obtain ⟨s, hloop, hsize, hnum, hrep, hcache, hready⟩ := initLoop_image geo clean himg hclean
  obtain ⟨-, hhead, hnone⟩ := initStart_cache flash num size
  have hver : kvVerify s = s := kvVerify_nil <| by
    rw [hcache, noteAll_head _ (fun key _ => hnone key) hM.nodup, hhead]
  refine ⟨s.kv, ?_, hsize, hnum, hrep, fun key => ?_, hready⟩
  · rw [kvInit, hloop, map_some, hver]
  · rw [copies_settled]
    exact hM key

/-- The second record of a key is the only one to verify. -/
theorem noteAll_head_repeat {xs ys : List Place} (hnone : ∀ key, hashGet2 cache.map key = none)
    (hhead : cache.head = []) (hx : (placeKeys xs).Nodup) (hq : q.record.key ∈ placeKeys xs)
    (hy : (placeKeys ys).Nodup) (hxy : ∀ key ∈ placeKeys ys, key ∉ placeKeys xs) :
    (noteAll cache (xs ++ q :: ys)).head = [q.entry] := by
  have hxs : (noteAll cache xs).head = [] := by
    rw [noteAll_head xs (fun key _ => hnone key) hx, hhead]
  have hknown : hashGet2 (noteAll cache xs).map q.entry.1 ≠ none := by
    rw [Ne, noteAll_none]
    exact fun hc => hc.2 hq
  rw [noteAll_append, noteAll_cons, note_known hknown, noteAll_head ys _ hy]
  · rw [hxs, nil_append]
  · intro key hkey
    rw [noteAll_none]
    exact ⟨hnone key, hxy key hkey⟩

theorem filter_places {places : List Place} (h : key ∉ placeKeys places) :
    places.filter (fun p => p.record.key == key) = [] := by
  rw [filter_eq_nil_iff]
  intro p hp he
  refine h (List.mem_map.mpr ⟨p, hp, ?_⟩)
  simpa using he

/-- The two places of a key stored twice, with what the cache knows. -/
theorem allLive_twice (hnum : num ≤ 65535) (htwo : (copies num logs key).card = 2)
    (hone : ∀ k, k ≠ key → (copies num logs k).card ≤ 1) (hok : CacheOk cache)
    (hnone : ∀ k, hashGet2 cache.map k = none) (hhead : cache.head = []) :
    ∃ p q : Place, p.In logs num ∧ q.In logs num ∧ p.record.key = key ∧ q.record.key = key ∧
      copies num logs key = {(p.record.value, p.record.version),
        (q.record.value, q.record.version)} ∧
      (noteAll cache (allLive num logs)).head = [q.entry] ∧
      CacheAt (noteAll cache (allLive num logs)) key p.entry.2 := by
  rw [←count_placeKeys] at htwo
  obtain ⟨xs, p, zs, hsplit, hp, hxs, hzs⟩ := split_places htwo
  obtain ⟨ys, q, us, rfl, hq, hys, hus⟩ := split_places hzs
  have hcount : ∀ k, k ≠ key → (placeKeys (allLive num logs)).count k ≤ 1 := fun k hk => by
    rw [count_placeKeys]
    exact hone k hk
  have hall : ∀ r ∈ allLive num logs, r.In logs num := fun r hr => mem_allLive hr
  have hid : ∀ r ∈ allLive num logs, r.entry.2.blockId ≠ 0xFFFF := fun r hr => by
    have hlt := (hall r hr).lt
    change u16 r.block ≠ 0xFFFF
    rw [u16_natCast (by omega)]
    omega
  have hcopies := copies_eq_allLive num logs key
  rw [hsplit] at hall hid hcount hcopies ⊢
  have hus0 : key ∉ placeKeys us := List.count_eq_zero.mp hus
  refine ⟨p, q, hall p (by simp), hall q (by simp), hp, hq, ?_, ?_, ?_⟩
  · rw [hcopies]
    simp [filter_places hxs, filter_places hys, filter_places hus0, hp, hq]
    rfl
  · have hcnt : ∀ k, (placeKeys (xs ++ p :: ys)).count k + (if k = key then 1 else 0) +
        (placeKeys us).count k = (placeKeys (xs ++ p :: (ys ++ q :: us))).count k := by
      intro k
      simp only [placeKeys_append, placeKeys_cons, count_append, count_cons, hp, hq, beq_iff_eq]
      split
      · next h => rw [if_pos h.symm]; omega
      · next h => rw [if_neg fun hc => h hc.symm]; omega
    have hkx : (placeKeys (xs ++ p :: ys)).count key = 1 := by
      simp [placeKeys_append, placeKeys_cons, hp, List.count_eq_zero.mpr hxs,
        List.count_eq_zero.mpr hys]
    rw [show xs ++ p :: (ys ++ q :: us) = (xs ++ p :: ys) ++ q :: us by simp]
    refine noteAll_head_repeat hnone hhead ?_ ?_ ?_ fun k hk hk' => ?_
    · rw [nodup_iff_count_le_one]
      intro k
      by_cases h : k = key
      · rw [h, hkx]
      · have h1 := hcount k h
        have h2 := hcnt k
        omega
    · rw [hq, ←hp, placeKeys_append, placeKeys_cons]
      simp
    · rw [nodup_iff_count_le_one]
      intro k
      by_cases h : k = key
      · rw [h, hus]
        exact Nat.zero_le 1
      · have h1 := hcount k h
        have h2 := hcnt k
        omega
    · have hne : k ≠ key := fun h => hus0 (h ▸ hk)
      have h1 := hcount k hne
      have h2 := hcnt k
      have h3 := List.count_pos_iff.mpr hk
      have h4 := List.count_pos_iff.mpr hk'
      omega
  · have hokx : CacheOk (noteAll cache xs) := hok.noteAll fun r hr => hid r (by simp [hr])
    have hpn : hashGet2 (noteAll cache xs).map p.entry.1 = none := by
      rw [noteAll_none]
      refine ⟨hnone _, ?_⟩
      change p.record.key ∉ placeKeys xs
      rw [hp]
      exact hxs
    rw [noteAll_append, ←hp]
    exact (cacheAt_note hokx hpn).noteAll (hokx.note (hid p (by simp)))
      fun r hr => hid r (by simp only [mem_append, mem_cons] at hr ⊢; tauto)

/-- `kvnode_rm` of a place. -/
theorem StoreRep.remove {kv : Kvset} (h : StoreRep kv logs) {pre post : List Rec}
    (hlt : p.block < kv.num) (hlog : logs p.block = pre ++ p.record :: post)
    (hlive : p.record.live = true) (hoff : p.off = total pre) :
    StoreRep (kvnodeRm kv p.node) (Function.update logs p.block (removed pre p.record post)) := by
  rw [Place.node, hoff, removed, ←hlog]
  split
  · next hmore =>
    rw [kvnodeRm_more h hlt hlog hlive hmore]
    exact h.killRec hlt hlog hlive
  · next hlast =>
    rw [kvnodeRm_last h hlt hlive (by omega)]
    exact h.clearBlock hlt

/-- What the verification deletes: the older of two records. -/
structure Outdated (num : ℕ) (logs : ℕ → List Rec) (key old : List UInt8) (version : UInt8)
    (p : Place) (pre post : List Rec) : Prop where
  /-- The block exists. -/
  lt : p.block < num
  /-- Where the record stands. -/
  log : logs p.block = pre ++ p.record :: post
  /-- It is live. -/
  live : p.record.live = true
  /-- Its offset. -/
  off : p.off = total pre
  /-- Its key is the one stored twice. -/
  key : p.record.key = key
  /-- It holds the old value. -/
  value : p.record.value = old
  /-- Its version is the older one. -/
  version : p.record.version = version

theorem Place.In.outdated (hp : p.In logs num) (hk : p.record.key = key)
    (hv : (p.record.value, p.record.version) = (old, version)) :
    ∃ pre post, Outdated num logs key old version p pre post := by
  obtain ⟨pre, post, hlt, hlog, hlive, hoff⟩ := hp
  obtain ⟨h1, h2⟩ := Prod.mk.inj hv
  exact ⟨pre, post, hlt, hlog, hlive, hoff, hk, h1, h2⟩

/-- The verification deletes the record with the older version, whichever
of the two was scanned first. -/
theorem verifyOne_outdated (hrep : StoreRep s.kv logs) (hid : s.kv.num ≤ 65535)
    (hp : p.In logs s.kv.num) (hq : q.In logs s.kv.num) (hpk : p.record.key = key)
    (hqk : q.record.key = key) (hat : CacheAt s.cache key p.entry.2)
    (hpq : ({(old, version), (value, bump version)} : Multiset (List UInt8 × UInt8)) =
      {(p.record.value, p.record.version), (q.record.value, q.record.version)}) :
    ∃ x pre post, Outdated s.kv.num logs key old version x pre post ∧
      (verifyOne s q.entry).kv = kvnodeRm s.kv x.node := by
  have heq := verifyOne_eq hrep hid hp hq (hqk.trans hpk.symm) (by rw [hpk]; exact hat)
  obtain ⟨hlt, hgt⟩ := olderOf_bump version
  have hmem : (old, version) = (p.record.value, p.record.version) ∨
      (old, version) = (q.record.value, q.record.version) := by
    have hin : (old, version) ∈ ({(p.record.value, p.record.version),
        (q.record.value, q.record.version)} : Multiset (List UInt8 × UInt8)) := by
      rw [←hpq]
      exact Multiset.mem_cons_self _ _
    simpa using hin
  rcases hmem with he|he
  · have hnew : (value, bump version) = (q.record.value, q.record.version) := by
      rw [he] at hpq
      have htail := (Multiset.cons_inj_right _).mp hpq
      simpa using htail
    obtain ⟨pre, post, hout⟩ := hp.outdated hpk he.symm
    refine ⟨p, pre, post, hout, ?_⟩
    rw [heq, ←(Prod.mk.inj hnew).2, hout.version, hgt]
  · have hnew : (value, bump version) = (p.record.value, p.record.version) := by
      rw [he, Multiset.pair_comm (p.record.value, p.record.version)] at hpq
      have htail := (Multiset.cons_inj_right _).mp hpq
      simpa using htail
    obtain ⟨pre, post, hout⟩ := hq.outdated hqk he.symm
    refine ⟨q, pre, post, hout, ?_⟩
    rw [heq, ←(Prod.mk.inj hnew).2, hout.version, hlt]

/-- On an image with two records of one key the older one is deleted. -/
theorem kvInit_duplicate (geo : Geometry num size) (hid : num ≤ 65535) (clean : ℕ → Prop)
    (himg : ∀ j, j < num → BlockImage size (window flash (j*size)) (logs j))
    (hclean : ∀ j, clean j →
      Blank (window flash (j*size)) (total (logs j)) size ∨ liveCount (logs j) = 0)
    (htwo : copies num logs key = {(old, version), (value, bump version)})
    (hone : ∀ k, k ≠ key → (copies num logs k).card ≤ 1) :
    ∃ kv p pre post, kvInit flash num size = some kv ∧ kv.size = size ∧ kv.num = num ∧
      Outdated num (settled logs) key old version p pre post ∧
      StoreRep kv (Function.update (settled logs) p.block (removed pre p.record post)) ∧
      ((∀ j, j < num → clean j) →
        StoreReady kv (Function.update (settled logs) p.block (removed pre p.record post)) ∧
        ElectedGc size num (settled logs) kv.gcBid) := by
  obtain ⟨s, hloop, hsize, hnum, hrep, hcache, hready⟩ := initLoop_image geo clean himg hclean
  obtain ⟨hok, hhead, hnone⟩ := initStart_cache flash num size
  rw [←allLive_settled] at hcache
  simp only [←copies_settled num logs] at htwo hone
  obtain ⟨p, q, hp, hq, hpk, hqk, hpq, hh, hat⟩ :=
    allLive_twice hid (by rw [htwo]; rfl) hone hok hnone hhead
  rw [←hcache] at hh hat
  rw [←hnum] at hp hq
  obtain ⟨x, pre, post, hout, hkv⟩ := verifyOne_outdated hrep (by omega) hp hq hpk hqk hat
    (htwo.symm.trans hpq)
  have hframe := kvnodeRm_frame s.kv x.node
  refine ⟨kvnodeRm s.kv x.node, x, pre, post, ?_, hframe.size_eq.trans hsize,
    hframe.num_eq.trans hnum, by rw [←hnum]; exact hout,
    hrep.remove hout.lt hout.log hout.live hout.off, fun hall => ?_⟩
  · rw [kvInit, hloop, map_some, kvVerify, hh, ←hkv]
    rfl
  · obtain ⟨hr, he⟩ := hready hall
    have hadv : Advance (fun _ => True) s.kv (settled logs) _ _ :=
      advance_remove hr hout.lt hout.log hout.live trivial trivial
    rw [Place.node, hout.off, (kvnodeRm_frame _ _).gcBid_eq]
    exact ⟨hadv.ready, he⟩

end Start

end PineVoice.Kv
