import PineVoice.KvStore

/-!
# Consistency of the counters

The counters in RAM agree at every moment with the records the scanner finds
on the flash, and a restart on the current image finds the same counters, an
erased reserve block and the same map.
-/

namespace PineVoice.Kv

open NorFlash List

/-- All records the scanner reports in a block. -/
def blockNodes (kv : Kvset) (i : ℕ) : Option (List KvNode) :=
  kvblockIter kv.size (kv.mem i) i false (fun node nodes => (nodes ++ [node], 0)) iterFuel 0 []

/-- The keys of all live records the scanner reports. -/
def liveKeys (kv : Kvset) : List (List UInt8) :=
  (List.range kv.num).flatMap fun i => (((blockNodes kv i).getD []).filter KvNode.valid).map
    fun node => cstrAt (kv.mem i) node.headOffset kv.size

/-- The counters of a block agree with its records. -/
structure CountersAgree (b : KvBlock) (nodes : List KvNode) : Prop where
  /-- Bytes of live records. -/
  kvSize : b.kvSize = ((nodes.filter KvNode.valid).map KvNode.nodeSize).sum
  /-- Bytes of erased records. -/
  dirtySize : b.dirtySize = ((nodes.filter fun node => !node.valid).map KvNode.nodeSize).sum
  /-- The records fill the block up to the write offset. -/
  writeOffset : b.writeOffset = b.kvSize+b.dirtySize
  /-- Number of live records. -/
  count : b.count = (nodes.filter KvNode.valid).length

section Nodes

variable {kv : Kvset} {logs : ℕ → List Rec}

theorem iterNodes_collect (nodes acc : List KvNode) :
    iterNodes false (fun node nodes => (nodes ++ [node], 0)) nodes acc = acc ++ nodes := by
  induction nodes generalizing acc with
  | nil => rw [iterNodes, append_nil]
  | cons node nodes ih =>
    rw [iterNodes]
    simp only [ne_eq]
    rw [ih, append_assoc]
    rfl

theorem blockNodes_eq (h : StoreRep kv logs) {i : ℕ} (hi : i < kv.num) :
    blockNodes kv i = some (logNodes i 0 (logs i)) := by
  have hrep := h.rep i hi
  rw [blockNodes, kvblockIter_log i false _ _ hrep.logAt hrep.room h.size_lt hrep.tail,
    iterNodes_collect, nil_append]

theorem logNodes_sizes (block off : ℕ) (log : List Rec) :
    liveSize log = (((logNodes block off log).filter KvNode.valid).map KvNode.nodeSize).sum ∧
    deadSize log =
      (((logNodes block off log).filter fun node => !node.valid).map KvNode.nodeSize).sum ∧
    liveCount log = ((logNodes block off log).filter KvNode.valid).length := by
  induction log generalizing off with
  | nil => exact ⟨rfl, rfl, rfl⟩
  | cons r log ih =>
    obtain ⟨h1, h2, h3⟩ := ih (off+r.nodeSize)
    have hsize : (r.node block off).nodeSize = r.nodeSize := rfl
    rw [liveSize_cons, deadSize_cons, liveCount_cons, logNodes, filter_cons,
      filter_cons, Rec.node_valid]
    cases r.live with
    | false => simp [h1, h2, h3, hsize]
    | true => simp [h1, h2, h3, hsize, Nat.add_comm]

/-- The counters of every block agree with its records. -/
theorem StoreReady.counters (h : StoreReady kv logs) {i : ℕ} (hi : i < kv.num) :
    ∃ nodes, blockNodes kv i = some nodes ∧ CountersAgree (kv.blocks i) nodes := by
  have hrep := h.rep i hi
  obtain ⟨h1, h2, h3⟩ := logNodes_sizes i 0 (logs i)
  refine ⟨_, blockNodes_eq h.toStoreRep hi, hrep.kvSize.trans h1, hrep.dirtySize.trans h2, ?_,
    hrep.count.trans h3⟩
  rw [(h.clean i hi).writeOffset, hrep.kvSize, hrep.dirtySize, liveSize_add_deadSize]

theorem keys_logNodes {size : ℕ} {m : Mem} (block : ℕ) {off : ℕ} {log : List Rec}
    (hl : LogAt m off log) (hs : 63 < size) :
    ((logNodes block off log).filter KvNode.valid).map
        (fun node => cstrAt m node.headOffset size) = placeKeys (liveAt block off log) := by
  induction log generalizing off with
  | nil => rfl
  | cons r log ih =>
    have hk : cstrAt m (r.node block off).headOffset size = r.key := Rec.cstrAt_key hl.1 hs
    rw [logNodes, filter_cons, Rec.node_valid, liveAt]
    cases r.live with
    | false => exact ih hl.2
    | true =>
      simp only [if_true, map_cons, placeKeys_cons]
      rw [ih hl.2, hk]

/-- No key has two live records. -/
theorem Holding.liveKeys_nodup {M : Contents} {g : ℕ} (h : Holding kv logs M g) :
    (liveKeys kv).Nodup := by
  have hge := h.ready.size_ge
  have hkeys : liveKeys kv = placeKeys (allLive kv.num logs) := by
    rw [placeKeys, allLive, map_flatMap]
    refine flatMap_congr fun i hi => ?_
    have hi' := List.mem_range.mp hi
    rw [blockNodes_eq h.ready.toStoreRep hi']
    exact keys_logNodes i (h.ready.rep i hi').logAt (by omega)
  rw [hkeys]
  exact h.resolved.nodup

end Nodes

section Restart

variable {kv kv' : Kvset} {logs : ℕ → List Rec} {M : Contents} {g : ℕ}

/-- The flash of a store is an image of its logs. -/
theorem StoreReady.image (h : StoreReady kv logs) {i : ℕ} (hi : i < kv.num) :
    BlockImage kv.size (window kv.flash (i*kv.size)) (logs i) := by
  have hrep := h.rep i hi
  have hroom := hrep.room
  exact ⟨hrep.logAt, hroom, hrep.tail, (h.clean i hi).blank.mono (by omega) le_rfl⟩

/-- Two blocks that represent one log and can be appended to have the same
counters. -/
theorem blocks_eq_of_log {size : ℕ} {m m' : Mem} {b b' : KvBlock} {log : List Rec}
    (h : BlockRep size m b log) (hc : BlockClean size m b log) (h' : BlockRep size m' b' log)
    (hc' : BlockClean size m' b' log) : b = b' := by
  cases b with
  | mk wo kv dirty count ro =>
    cases b' with
    | mk wo' kv' dirty' count' ro' =>
      obtain rfl : wo = wo' := hc.writeOffset.trans hc'.writeOffset.symm
      obtain rfl : kv = kv' := h.kvSize.trans h'.kvSize.symm
      obtain rfl : dirty = dirty' := h.dirtySize.trans h'.dirtySize.symm
      obtain rfl : count = count' := h.count.trans h'.count.symm
      obtain rfl : ro = ro' := h.roCount.trans h'.roCount.symm
      rfl

/-- A restart finds the same counters, an erased reserve and the same map. -/
theorem Serving.restart (h : Serving kv logs M g) :
    ∃ kv', kvInit kv.flash kv.num kv.size = some kv' ∧
      (∀ i, i < kv.num → kv'.blocks i = kv.blocks i) ∧
      (∃ g', g' < kv.num ∧ kv'.gcBid = some g' ∧ Blank (kv'.mem g') 0 kv.size) ∧
      ∀ key n, 0 ∉ key → kvGet kv' key n = kvGet kv key n := by
  have hready := h.ready
  obtain ⟨kv', hkv, hsize, hnum, hrep, hres, hall⟩ := kvInit_resolved
    ⟨hready.num_ge, hready.size_ge, hready.size_lt, hready.size_mod⟩ (fun i => i < kv.num)
    (fun i hi => hready.image hi) (fun i hi => Or.inl (hready.clean i hi).blank) h.resolved
  obtain ⟨hready', helect⟩ := hall fun i hi => hi
  have hlog : ∀ i, i < kv.num → settled logs i = logs i := fun i hi =>
    settled_of_used hready.used hi
  obtain ⟨g', hg', hgc, hempty⟩ := helect.empty hready.size_ge h.gc_lt
    ((hlog g h.gc_lt).trans h.reserve)
  refine ⟨kv', hkv, fun i hi => ?_, ⟨g', hg', hgc, ?_⟩, fun key n hk => ?_⟩
  · have hi' : i < kv'.num := by omega
    have hr := hready'.rep i hi'
    have hc := hready'.clean i hi'
    rw [hlog i hi, hsize] at hr hc
    exact blocks_eq_of_log hr hc (hready.rep i hi) (hready.clean i hi)
  · have hb := (hready'.clean g' (by omega)).blank
    rw [hempty, hsize] at hb
    exact hb
  · rw [kvGet_resolved hready.toStoreRep h.resolved hk, kvGet_resolved hrep _ hk]
    rw [hnum]
    exact hres

end Restart

section Reachable

variable {flash : Mem} {num size : ℕ}

/-- In every state reachable from blank flash the counters agree with the
records, the reserve is erased and no key has two live records; a restart
finds the same counters, an erased reserve and the same map. -/
theorem kv_consistent (geo : Geometry num size) (hb : Blank flash 0 (num*size))
    {calls : List Call} (hc : ∀ c ∈ calls, c.Plain) :
    ∃ kv replies kv', kvInit flash num size = some kv ∧
      runCalls kv calls = some (replies, kv') ∧
      (∀ i, i < num → ∃ nodes, blockNodes kv' i = some nodes ∧
        CountersAgree (kv'.blocks i) nodes) ∧
      (∃ g, g < num ∧ kv'.gcBid = some g ∧ Blank (kv'.mem g) 0 size) ∧
      (liveKeys kv').Nodup ∧
      ∃ kv'', kvInit kv'.flash num size = some kv'' ∧
        (∀ i, i < num → kv''.blocks i = kv'.blocks i) ∧
        (∃ g, g < num ∧ kv''.gcBid = some g ∧ Blank (kv''.mem g) 0 size) ∧
        ∀ key n, 0 ∉ key → kvGet kv'' key n = kvGet kv' key n := by
  obtain ⟨kv, replies, kv', logs, g, hkv, hrun, hserve, hsize, hnum⟩ :=
    run_blank geo hb fun c hc' => (hc c hc').quiet
  have hready := hserve.ready
  subst hsize hnum
  refine ⟨kv, replies, kv', hkv, hrun, fun i hi => hready.counters hi,
    ⟨g, hserve.gc_lt, hserve.gcBid, ?_⟩, hserve.toHolding.liveKeys_nodup, hserve.restart⟩
  have hblank := (hready.clean g hserve.gc_lt).blank
  rwa [hserve.reserve, total_nil] at hblank

/-- A run that sets, replaces and removes keys and compacts the store. -/
theorem kv_consistent_short :
    ∃ kv replies kv', kvInit (fun _ => 0xFF) 2 512 = some kv ∧
      runCalls kv [.set [107] [1, 2], .set [107] [3], .set [120] [4], .rm [120], .gc] =
        some (replies, kv') ∧
      (∀ i, i < 2 → ∃ nodes, blockNodes kv' i = some nodes ∧
        CountersAgree (kv'.blocks i) nodes) ∧
      (∃ g, g < 2 ∧ kv'.gcBid = some g ∧ Blank (kv'.mem g) 0 512) ∧
      (liveKeys kv').Nodup ∧
      ∃ kv'', kvInit kv'.flash 2 512 = some kv'' ∧
        (∀ i, i < 2 → kv''.blocks i = kv'.blocks i) ∧
        (∃ g, g < 2 ∧ kv''.gcBid = some g ∧ Blank (kv''.mem g) 0 512) ∧
        ∀ key n, 0 ∉ key → kvGet kv'' key n = kvGet kv' key n :=
  kv_consistent ⟨by decide, by decide, by decide, by decide⟩ (fun _ _ _ => rfl) (by decide)

end Reachable

end PineVoice.Kv
