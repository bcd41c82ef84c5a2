import PineVoice.KvLookup

/-!
# Compaction

`kv_gc` picks the least used block that fits into the reserve block, copies its live records there
with the next version and deletes each original once its copy is in place. The last deletion
erases the block, which becomes the reserve. The loop repeats until no block fits.
-/

namespace PineVoice.Kv

open Function NorFlash List Option

/-- The copy of a record in the reserve block. -/
def Rec.moved (r : Rec) : Rec := Rec.fresh r.storable (bump r.version)

@[simp] theorem Rec.moved_key (r : Rec) : r.moved.key = r.key := rfl

@[simp] theorem Rec.moved_value (r : Rec) : r.moved.value = r.value := rfl

@[simp] theorem Rec.moved_nodeSize (r : Rec) : r.moved.nodeSize = r.nodeSize := rfl

@[simp] theorem Rec.moved_live (r : Rec) : r.moved.live = true := rfl

/-- The copies of the live records of a log. -/
def moved (log : List Rec) : List Rec := (log.filter Rec.live).map Rec.moved

theorem moved_cons (r : Rec) (log : List Rec) :
    moved (r :: log) = if r.live then r.moved :: moved log else moved log := by
  rw [moved, filter_cons]
  split <;> rfl

theorem moved_of_liveCount {log : List Rec} (h : liveCount log = 0) : moved log = [] := by
  rw [moved, List.length_eq_zero_iff.mp h, map_nil]

theorem total_moved (log : List Rec) : total (moved log) = liveSize log := by
  induction log with
  | nil => rfl
  | cons r log ih =>
    rw [moved_cons, liveSize_cons]
    split
    · rw [total_cons, ih, Rec.moved_nodeSize]
    · rw [ih, zero_add]

theorem liveSize_moved (log : List Rec) : liveSize (moved log) = liveSize log := by
  induction log with
  | nil => rfl
  | cons r log ih =>
    rw [moved_cons, liveSize_cons]
    split
    · rw [liveSize_cons, ih, Rec.moved_live, if_pos rfl, Rec.moved_nodeSize]
    · rw [ih, zero_add]

/-- The logs after the live records of block `m` were moved behind those of
block `g`. -/
def gcMove (logs : ℕ → List Rec) (g m : ℕ) : ℕ → List Rec :=
  update (update logs g (logs g ++ moved (logs m))) m []

theorem gcMove_reserve (logs : ℕ → List Rec) {g m : ℕ} (hne : m ≠ g) :
    gcMove logs g m g = logs g ++ moved (logs m) := by
  rw [gcMove, update_of_ne hne.symm, update_self]

theorem gcMove_source (logs : ℕ → List Rec) (g m : ℕ) : gcMove logs g m m = [] :=
  update_self _ _ _

theorem gcMove_other (logs : ℕ → List Rec) {g m i : ℕ} (hm : i ≠ m) (hg : i ≠ g) :
    gcMove logs g m i = logs i := by
  rw [gcMove, update_of_ne hm, update_of_ne hg]

theorem total_gcMove (logs : ℕ → List Rec) {g m : ℕ} (hne : m ≠ g) :
    total (gcMove logs g m g) = total (logs g)+liveSize (logs m) := by
  rw [gcMove_reserve logs hne, total_append, total_moved]

theorem liveSize_gcMove (logs : ℕ → List Rec) {g m : ℕ} (hne : m ≠ g) :
    liveSize (gcMove logs g m g) = liveSize (logs g)+liveSize (logs m) := by
  rw [gcMove_reserve logs hne, liveSize_append, liveSize_moved]

/-- A block of which `p` bytes of live records are already in the reserve. -/
structure Parted (base : ℕ → List Rec) (g m p : ℕ) (logs : ℕ → List Rec) : Prop where
  /-- The other blocks keep their sizes. -/
  other : ∀ i, i ≠ g → i ≠ m →
    total (logs i) = total (base i) ∧ liveSize (logs i) = liveSize (base i)
  /-- The copies stand in the reserve. -/
  total_reserve : total (logs g) = total (base g)+p
  /-- All of them are live. -/
  live_reserve : liveSize (logs g) = liveSize (base g)+p
  /-- Deleted records still take space. -/
  total_source : total (logs m) = total (base m)
  /-- The rest is still live. -/
  live_source : liveSize (logs m)+p = liveSize (base m)
  /-- Something is left to move. -/
  live_pos : 0 < liveSize (logs m)

/-- A record of `s` bytes of block `m` has a copy in the reserve. -/
structure Copied (base : ℕ → List Rec) (g m s : ℕ) (logs : ℕ → List Rec) : Prop where
  /-- The other blocks keep their sizes. -/
  other : ∀ i, i ≠ g → i ≠ m →
    total (logs i) = total (base i) ∧ liveSize (logs i) = liveSize (base i)
  /-- The copy takes its space. -/
  total_reserve : total (logs g) = total (base g)+s
  /-- It is live. -/
  live_reserve : liveSize (logs g) = liveSize (base g)+s

/-- Logs of the same sizes, block by block. -/
def SameSizes (logs logs' : ℕ → List Rec) : Prop :=
  ∀ i, total (logs i) = total (logs' i) ∧ liveSize (logs i) = liveSize (logs' i)

/-- The logs while the live records of block `m` are moved. -/
inductive Moving (num : ℕ) (M : Contents) (base : ℕ → List Rec) (g m : ℕ) :
    (ℕ → List Rec) → Prop
  /-- Between two records. -/
  | part {logs : ℕ → List Rec} {p : ℕ} (hres : Resolved num M logs)
      (hpart : Parted base g m p logs) : Moving num M base g m logs
  /-- A record is copied and not yet deleted. -/
  | twin {logs : ℕ → List Rec} {p : ℕ} {r : Rec} (hres : Resolved num M logs)
      (hpart : Parted base g m p logs) (hmem : r ∈ logs m) (hlive : r.live = true) :
      Moving num M base g m (update logs g (logs g ++ [r.moved]))
  /-- Everything is moved. -/
  | done {logs : ℕ → List Rec} (hres : Resolved num M logs)
      (hsizes : SameSizes logs (gcMove base g m)) : Moving num M base g m logs

/-- A key is read as the C string it was stored as. -/
theorem cstrAt_eq {m : Mem} {off n : ℕ} {key : List UInt8} (h : Holds m off (key ++ [0]))
    (h0 : 0 ∉ key) (hn : key.length < n) : cstrAt m off n = key := by
  induction key generalizing off n with
  | nil =>
    cases n with
    | zero => exact absurd hn (lt_irrefl 0)
    | succ n => rw [cstrAt, if_pos h.1]
  | cons k key ih =>
    rw [mem_cons, not_or] at h0
    rw [length_cons] at hn
    cases n with
    | zero => omega
    | succ n =>
      have hk : m off = k := h.1
      rw [cstrAt, hk, if_neg fun hz => h0.1 hz.symm, ih h.2 h0.2 (by omega)]

theorem Rec.cstrAt_key {m : Mem} {off n : ℕ} {r : Rec} (h : Holds m off r.bytes)
    (hn : 63 < n) : cstrAt m off n = r.key := by
  have hk := r.key_le
  refine cstrAt_eq ?_ r.key_nul (by omega)
  rw [Rec.bytes, Rec.body, append_assoc, holds_append] at h
  rw [holds_append]
  exact ⟨h.1, h.2.1, trivial⟩

section Contents

variable {num g m p : ℕ} {base logs logs' : ℕ → List Rec} {M : Contents}
  {pre post : List Rec} {r : Rec}

/-- A copy beside its original leaves the contents. -/
theorem Resolved.twin (hM : Resolved num M logs) (hg : g < num) (hm : m < num)
    (hmem : r ∈ logs m) (hlive : r.live = true) :
    Recoverable num M M (update logs g (logs g ++ [r.moved])) := by
  obtain ⟨hc, hv⟩ := hM.live hm hmem hlive
  have happ := hM.append hg r.moved_live (.inr ⟨r.value, r.version, hc, rfl⟩)
  rwa [Rec.moved_key, Rec.moved_value, ←hv, update_eq_self] at happ

/-- A copy in the place of its original leaves the contents. -/
theorem Resolved.move (hM : Resolved num M logs) (hg : g < num) (hm : m < num) (hne : m ≠ g)
    (hlog : logs m = pre ++ r :: post) (hlive : r.live = true) :
    Resolved num M (update (update logs g (logs g ++ [r.moved])) m
      (removed pre r post)) := by
  have hmem : r ∈ logs m := by
    rw [hlog]
    exact mem_append_right _ mem_cons_self
  have hlog' : update logs g (logs g ++ [r.moved]) m = pre ++ r :: post := by
    rw [update_of_ne hne, hlog]
  have hres := hM.replace hg hm r.moved_live hmem hlive rfl hlog'
  rwa [Rec.moved_key, Rec.moved_value, ←(hM.live hm hmem hlive).2, update_eq_self] at hres

theorem Moving.recoverable {l : ℕ → List Rec} (h : Moving num M base g m l) (hg : g < num)
    (hm : m < num) : Recoverable num M M l := by
  cases h with
  | part hres _ => exact hres.recoverable
  | twin hres _ hmem hlive => exact hres.twin hg hm hmem hlive
  | done hres _ => exact hres.recoverable

theorem Parted.refl (hpos : 0 < liveSize (base m)) : Parted base g m 0 base :=
  ⟨fun _ _ _ => ⟨rfl, rfl⟩, rfl, rfl, rfl, rfl, hpos⟩

theorem copied_update (logs : ℕ → List Rec) (hne : m ≠ g) (r : Rec) (log : List Rec) :
    Copied logs g m r.nodeSize (update (update logs g (logs g ++ [r.moved])) m log) := by
  refine ⟨fun i hg hm => ?_, ?_, ?_⟩
  · rw [update_of_ne hm, update_of_ne hg]
    exact ⟨rfl, rfl⟩
  · rw [update_of_ne hne.symm, update_self, total_append, total_cons, total_nil,
      Rec.moved_nodeSize, add_zero]
  · rw [update_of_ne hne.symm, update_self, liveSize_append, liveSize_cons,
      liveSize_nil, Rec.moved_live, if_pos rfl, Rec.moved_nodeSize, add_zero]

/-- The original of a copy is deleted and others are left. -/
theorem Parted.next (h : Parted base g m p logs) {s : ℕ} (hc : Copied logs g m s logs')
    (ht : total (logs' m) = total (logs m)) (hl : liveSize (logs' m)+s = liveSize (logs m))
    (hpos : 0 < liveSize (logs' m)) : Parted base g m (p+s) logs' := by
  have h1 := h.total_reserve
  have h2 := h.live_reserve
  have h3 := h.live_source
  have h4 := hc.total_reserve
  have h5 := hc.live_reserve
  refine ⟨fun i hg hm => ?_, by omega, by omega, ht.trans h.total_source, by omega, hpos⟩
  rw [(hc.other i hg hm).1, (hc.other i hg hm).2]
  exact h.other i hg hm

/-- The original of the last copy is deleted and the block erased. -/
theorem Parted.last (h : Parted base g m p logs) {s : ℕ} (hc : Copied logs g m s logs')
    (hne : m ≠ g) (hs : liveSize (logs m) = s) (hz : logs' m = []) :
    SameSizes logs' (gcMove base g m) := by
  have h1 := h.total_reserve
  have h2 := h.live_reserve
  have h3 := h.live_source
  have h4 := hc.total_reserve
  have h5 := hc.live_reserve
  intro i
  by_cases hm : i = m
  · subst hm
    rw [hz, gcMove_source]
    exact ⟨rfl, rfl⟩
  · by_cases hg : i = g
    · subst hg
      rw [total_gcMove base hne, liveSize_gcMove base hne]
      omega
    · rw [gcMove_other base hm hg, (hc.other i hg hm).1, (hc.other i hg hm).2]
      exact h.other i hg hm

end Contents

section Move

variable {kv : Kvset} {logs : ℕ → List Rec} {M : Contents} {g m : ℕ} {snapshot : Mem}

/-- Copying one record out of the snapshot. -/
theorem kvblockDeepGc_rec (h : StoreReady kv logs) (hg : g < kv.num) {r : Rec} {off : ℕ}
    (hold : Holds snapshot off r.bytes) (hroom : total (logs g)+r.nodeSize+4 ≤ kv.size) :
    kvblockDeepGc kv.size snapshot g (r.node m off) kv =
      (kvnodeRm (appendRec kv g r.moved) (r.node m off), 0) := by
  have hge := h.size_ge
  have hc : cstrAt snapshot (r.node m off).headOffset kv.size = r.key :=
    Rec.cstrAt_key hold (by omega)
  have hv : readBytes snapshot (r.node m off).valueOffset (r.node m off).valSize = r.value := by
    have hread := readBytes_value hold r.value.length
    rwa [Nat.min_self, take_length] at hread
  have hset : kvblockSet kv g r.key r.value (nextVersion (r.node m off).version) =
      ((total (logs g) : ℤ), appendRec kv g r.moved) :=
    kvblockSet_room h hg r.storable (nextVersion r.version) hroom
  rw [kvblockDeepGc, if_pos (show (r.node m off).rw = true from rfl)]
  simp [hc, hv, hset]

/-- The step from one record to the next: the copy, then the deletion. -/
theorem advance_move (Q : (ℕ → List Rec) → Prop) (h : StoreReady kv logs) (hg : g < kv.num)
    (hm : m < kv.num) (hne : m ≠ g) {pre post : List Rec} {r : Rec}
    (hlog : logs m = pre ++ r :: post) (hlive : r.live = true)
    (hroom : total (logs g)+r.nodeSize+4 ≤ kv.size) (hq : Q logs)
    (hq1 : Q (update logs g (logs g ++ [r.moved])))
    (hq2 : Q (update (update logs g (logs g ++ [r.moved])) m
      (removed pre r post))) :
    Advance Q kv logs (kvnodeRm (appendRec kv g r.moved) (r.node m (total pre)))
      (update (update logs g (logs g ++ [r.moved])) m (removed pre r post)) := by
  have hlog' : update logs g (logs g ++ [r.moved]) m = pre ++ r :: post := by
    rw [update_of_ne hne, hlog]
  have hadv : Advance Q kv logs (appendRec kv g r.moved)
      (update logs g (logs g ++ [r.moved])) :=
    advance_append h hg r.storable (bump_ne_zero r.version) hroom hq hq1
  exact hadv.trans (advance_remove hadv.ready hm hlog' hlive hq1 hq2)

theorem iterNodes_dead {σ : Type} (fn : KvNode → σ → σ × ℤ) (block off : ℕ) {log : List Rec}
    (h : liveCount log = 0) (s : σ) : iterNodes true fn (logNodes block off log) s = s := by
  induction log generalizing off with
  | nil => rfl
  | cons r log ih =>
    obtain ⟨hr, h⟩ := liveCount_cons_eq_zero.mp h
    simp [logNodes, iterNodes, Rec.node_valid, hr, ih _ h]

/-- Moving the records of a block one by one: `pre` is dealt with, the rest
is still to be moved. -/
theorem deepGc_log {base : ℕ → List Rec} {p : ℕ} {pre rest : List Rec} (h : StoreReady kv logs)
    (hM : Resolved kv.num M logs) (hg : g < kv.num) (hm : m < kv.num) (hne : m ≠ g)
    (hpart : Parted base g m p logs) (hlog : logs m = pre ++ rest) (hpre : liveCount pre = 0)
    (hrest : 0 < liveCount rest) (hold : LogAt snapshot (total pre) rest)
    (hroom : total (logs g)+liveSize rest+4 ≤ kv.size) :
    ∃ kv', iterNodes true (kvblockDeepGc kv.size snapshot g) (logNodes m (total pre) rest) kv =
        kv' ∧
      Advance (Moving kv.num M base g m) kv logs kv'
        (update (update logs g (logs g ++ moved rest)) m []) ∧
      Resolved kv.num M (update (update logs g (logs g ++ moved rest)) m []) ∧
      kv'.bid = kv.bid ∧ kv'.gcBid = kv.gcBid := by
  induction rest generalizing pre kv logs p with
  | nil => exact absurd hrest (lt_irrefl 0)
  | cons r rest ih =>
    rw [logNodes, iterNodes, Rec.node_valid]
    rw [liveCount_cons] at hrest
    rw [liveSize_cons] at hroom
    cases hlive : r.live with
    | false =>
      have hnext : total (pre ++ [r]) = total pre+r.nodeSize := by simp [total_append, total_cons]
      rw [hlive, if_neg Bool.false_ne_true] at hrest hroom
      rw [moved_cons, hlive, ←hnext]
      refine ih h hM hg hm hpart (by simp [hlog]) ?_ (by omega) ?_ (by omega)
      · simp [liveCount_append, liveCount_cons, hlive, hpre]
      · rw [hnext]
        exact hold.2
    | true =>
      rw [hlive, if_pos rfl] at hrest hroom
      have hres := hM.move hg hm hne hlog hlive
      have hmove := advance_move (Moving kv.num M base g m) h hg hm hne hlog hlive (by omega)
        (.part hM hpart) (.twin hM hpart (by simp [hlog]) hlive)
      have hframe := kvnodeRm_frame (appendRec kv g r.moved) (r.node m (total pre))
      have hcount : liveCount (pre ++ r :: rest) = 1+liveCount rest := by
        simp [liveCount_append, liveCount_cons, hlive, hpre]
      rw [kvblockDeepGc_rec h hg hold.1 (by omega), moved_cons, hlive]
      by_cases hmore : 0 < liveCount rest
      · have hone : 1 < liveCount (pre ++ r :: rest) := by omega
        have hrem : removed pre r rest = (pre ++ [r.kill]) ++ rest := by simp [removed, hone]
        have hkill : total (pre ++ [r.kill]) = total pre+r.nodeSize := by
          simp [total_append, total_cons]
        obtain ⟨ht, hl, hpos⟩ := removed_more hlive hone
        rw [←hlog] at ht hl
        have hpart' := hpart.next (copied_update logs hne r (removed pre r rest))
          (by rw [update_self]; exact ht) (by rw [update_self]; exact hl)
          (by rw [update_self]; exact hpos)
        have hadv := hmove (.part hres hpart')
        rw [hrem] at hres hpart' hadv
        have hstep := ih hadv.ready (by rw [hadv.num_eq]; exact hres)
          (by rw [hadv.num_eq]; exact hg) (by rw [hadv.num_eq]; exact hm) hpart'
          (update_self _ _ _) (by simp [liveCount_append, liveCount_cons, hpre]) hmore
          (by rw [hkill]; exact hold.2)
          (by
            rw [hadv.size_eq, update_of_ne hne.symm, update_self, total_append,
              total_cons, Rec.moved_nodeSize, total_nil]
            omega)
        obtain ⟨kv', hkv', hadv', hres', hb, hgc⟩ := hstep
        rw [hkill, hadv.size_eq] at hkv'
        rw [hadv.num_eq, update_of_ne hne.symm, update_self, append_assoc (logs g), update_comm hne,
          update_idem, update_idem] at hadv' hres'
        exact ⟨kv', hkv', hadv.trans hadv', hres', hb.trans hframe.bid_eq, hgc.trans hframe.gcBid_eq⟩
      · have hz : liveCount rest = 0 := by omega
        obtain ⟨hrem, hl⟩ := removed_last hlive (by omega : ¬1 < liveCount (pre ++ r :: rest))
        rw [←hlog] at hl
        rw [hrem] at hres hmove
        have hadv := hmove (.done hres
          (hpart.last (copied_update logs hne r []) hne hl (update_self _ _ _)))
        simp only [ne_eq]
        rw [iterNodes_dead _ _ _ hz, moved_of_liveCount hz]
        exact ⟨_, rfl, hadv, hres, hframe.bid_eq, hframe.gcBid_eq⟩

/-- Moving the live records of a whole block. -/
theorem deepGc_block (h : StoreReady kv logs) (hM : Resolved kv.num M logs) (hg : g < kv.num)
    (hm : m < kv.num) (hne : m ≠ g) (hpos : 0 < liveSize (logs m))
    (hfit : liveSize (logs m)+total (logs g) < kv.size) :
    ∃ kv', kvblockIter kv.size (kv.mem m) m true (kvblockDeepGc kv.size (kv.mem m) g) iterFuel 0
        kv = some kv' ∧
      Advance (Moving kv.num M logs g m) kv logs kv' (gcMove logs g m) ∧
      Resolved kv.num M (gcMove logs g m) ∧ kv'.bid = kv.bid ∧ kv'.gcBid = kv.gcBid ∧
      (kv'.blocks m).count = 0 := by
  have hrep := h.rep m hm
  have hmod := h.size_mod
  have h1 := liveSize_mod (logs m)
  have h2 := total_mod (logs g)
  have hstart : LogAt (kv.mem m) (total []) (logs m) := hrep.logAt
  obtain ⟨kv', hkv', hadv, hres, hb, hgc⟩ :=
    deepGc_log h hM hg hm hne (.refl hpos) rfl rfl (liveSize_pos.mp hpos) hstart (by omega)
  refine ⟨kv', ?_, hadv, hres, hb, hgc, ?_⟩
  · rw [kvblockIter_log m true _ kv hrep.logAt hrep.room h.size_lt hrep.tail, ←hkv', total_nil]
  · have hcount := (hadv.ready.rep m (by rw [hadv.num_eq]; exact hm)).count
    rw [update_self] at hcount
    exact hcount

end Move

/-- The block `kv_gc` moves next: the least used one, if it fits. -/
structure GcPick (size num g : ℕ) (logs : ℕ → List Rec) (m : ℕ) : Prop where
  /-- The block exists. -/
  lt : m < num
  /-- It is not the reserve. -/
  ne : m ≠ g
  /-- It has live records. -/
  pos : 0 < liveSize (logs m)
  /-- They fit behind those of the reserve. -/
  fits : liveSize (logs m)+total (logs g) < size
  /-- No other used block has fewer live bytes. -/
  least : ∀ i, i < num → i ≠ g → 0 < liveSize (logs i) → liveSize (logs m) ≤ liveSize (logs i)

/-- The rounds of `kv_gc` on the logs, with the block emptied last. -/
inductive GcRun (size num g : ℕ) :
    (ℕ → List Rec) → Option ℕ → (ℕ → List Rec) → Option ℕ → Prop
  /-- No used block fits into the reserve. -/
  | stop {logs : ℕ → List Rec} {newGc : Option ℕ}
      (hfull : ∀ i, i < num → i ≠ g → 0 < liveSize (logs i) →
        size ≤ liveSize (logs i)+total (logs g)) : GcRun size num g logs newGc logs newGc
  /-- One block is moved. -/
  | move {logs logs' : ℕ → List Rec} {newGc newGc' : Option ℕ} {m : ℕ}
      (hpick : GcPick size num g logs m)
      (hrun : GcRun size num g (gcMove logs g m) (some m) logs' newGc') :
      GcRun size num g logs newGc logs' newGc'

/-- The logs from which the rounds of `kv_gc` lead to the logs `last`, and
those inside a round. -/
inductive GcWay (size num g : ℕ) (M : Contents) (last : ℕ → List Rec) :
    (ℕ → List Rec) → (ℕ → List Rec) → Prop
  /-- Before the first round. -/
  | here {logs : ℕ → List Rec} {newGc newGc' : Option ℕ} (hres : Resolved num M logs)
      (hrun : GcRun size num g logs newGc last newGc') : GcWay size num g M last logs logs
  /-- In the first round. -/
  | inside {logs l : ℕ → List Rec} {newGc' : Option ℕ} {m : ℕ}
      (hpick : GcPick size num g logs m)
      (hrun : GcRun size num g (gcMove logs g m) (some m) last newGc')
      (hmove : Moving num M logs g m l) : GcWay size num g M last logs l
  /-- Behind the first round. -/
  | later {logs l : ℕ → List Rec} {m : ℕ} (hpick : GcPick size num g logs m)
      (hway : GcWay size num g M last (gcMove logs g m) l) : GcWay size num g M last logs l

theorem GcWay.recoverable {size num g : ℕ} {M : Contents} {last logs l : ℕ → List Rec}
    (h : GcWay size num g M last logs l) (hg : g < num) : Recoverable num M M l := by
  induction h with
  | here hres _ => exact hres.recoverable
  | inside hpick _ hmove => exact hmove.recoverable hg hpick.lt
  | later _ _ ih => exact ih

section Loop

variable {kv : Kvset} {logs : ℕ → List Rec} {M : Contents} {g m : ℕ}

/-- The search keeps the least used block without text lines below the bound. -/
theorem minBlock_spec (kv : Kvset) (g n i : ℕ) (minId : Option ℕ) (s : ℤ) :
    (minBlock kv g n i minId s = minId ∧ ∀ j, i ≤ j → j < i+n → (kv.blocks j).roCount = 0 →
      j ≠ g → 0 < (kv.blocks j).kvSize → s ≤ (kv.blocks j).kvSize) ∨
    ∃ m, minBlock kv g n i minId s = some m ∧ i ≤ m ∧ m < i+n ∧ (kv.blocks m).roCount = 0 ∧
      m ≠ g ∧ 0 < (kv.blocks m).kvSize ∧ ((kv.blocks m).kvSize : ℤ) < s ∧
      ∀ j, i ≤ j → j < i+n → (kv.blocks j).roCount = 0 → j ≠ g → 0 < (kv.blocks j).kvSize →
        (kv.blocks m).kvSize ≤ (kv.blocks j).kvSize := by
  induction n generalizing i minId s with
  | zero => exact .inl ⟨rfl, fun j h1 h2 => absurd h2 (by omega)⟩
  | succ n ih =>
    rw [minBlock]
    by_cases hc : (kv.blocks i).roCount = 0 ∧ i ≠ g ∧ 0 < (kv.blocks i).kvSize ∧
        ((kv.blocks i).kvSize : ℤ) < s
    · rw [if_pos hc]
      obtain ⟨hro, hig, hipos, his⟩ := hc
      rcases ih (i+1) (some i) (kv.blocks i).kvSize with
        ⟨hr, hmin⟩|⟨m, hr, h1, h2, hrom, hne, hpos, hlt, hmin⟩
      · refine .inr ⟨i, hr, le_rfl, by omega, hro, hig, hipos, his, fun j g1 g2 g3 g4 g5 => ?_⟩
        rcases eq_or_lt_of_le g1 with rfl|hj
        · exact le_rfl
        · exact_mod_cast hmin j hj (by omega) g3 g4 g5
      · refine .inr ⟨m, hr, by omega, by omega, hrom, hne, hpos, hlt.trans his,
          fun j g1 g2 g3 g4 g5 => ?_⟩
        rcases eq_or_lt_of_le g1 with rfl|hj
        · exact_mod_cast hlt.le
        · exact hmin j hj (by omega) g3 g4 g5
    · rw [if_neg hc]
      have hhere : (kv.blocks i).roCount = 0 → i ≠ g → 0 < (kv.blocks i).kvSize →
          s ≤ (kv.blocks i).kvSize :=
        fun h1 h2 h3 => not_lt.mp fun h4 => hc ⟨h1, h2, h3, h4⟩
      rcases ih (i+1) minId s with ⟨hr, hmin⟩|⟨m, hr, h1, h2, hrom, hne, hpos, hlt, hmin⟩
      · refine .inl ⟨hr, fun j g1 g2 g3 g4 g5 => ?_⟩
        rcases eq_or_lt_of_le g1 with rfl|hj
        · exact hhere g3 g4 g5
        · exact hmin j hj (by omega) g3 g4 g5
      · refine .inr ⟨m, hr, by omega, by omega, hrom, hne, hpos, hlt, fun j g1 g2 g3 g4 g5 => ?_⟩
        rcases eq_or_lt_of_le g1 with rfl|hj
        · exact_mod_cast (hlt.le.trans (hhere g3 g4 g5))
        · exact hmin j hj (by omega) g3 g4 g5

/-- The choice of `kv_gc` on the logs. -/
theorem minBlock_ready (h : StoreReady kv logs) (hg : g < kv.num) :
    (minBlock kv g kv.num 0 none (kv.size-(kv.blocks g).writeOffset) = none ∧
      ∀ i, i < kv.num → i ≠ g → 0 < liveSize (logs i) →
        kv.size ≤ liveSize (logs i)+total (logs g)) ∨
    ∃ m, minBlock kv g kv.num 0 none (kv.size-(kv.blocks g).writeOffset) = some m ∧
      GcPick kv.size kv.num g logs m := by
  have hsz : ∀ i, i < kv.num → (kv.blocks i).kvSize = liveSize (logs i) :=
    fun i hi => (h.rep i hi).kvSize
  have hwo := (h.clean g hg).writeOffset
  rcases minBlock_spec kv g kv.num 0 none (kv.size-(kv.blocks g).writeOffset) with
    ⟨hr, hmin⟩|⟨m, hr, -, hm, -, hne, hpos, hlt, hmin⟩
  · refine .inl ⟨hr, fun i hi hne hpos => ?_⟩
    have hle := hmin i (Nat.zero_le _) (by omega) (h.rep i hi).roCount hne
      (by rw [hsz i hi]; exact hpos)
    rw [hsz i hi] at hle
    omega
  · rw [zero_add] at hm
    rw [hsz m hm] at hpos hlt hmin
    refine .inr ⟨m, hr, hm, hne, hpos, by omega, fun i hi hne' hpos' => ?_⟩
    have hle := hmin i (Nat.zero_le _) (by omega) (h.rep i hi).roCount hne'
      (by rw [hsz i hi]; exact hpos')
    rwa [hsz i hi] at hle

/-- The loop of `kv_gc` ends after the rounds seen on the logs. -/
theorem gcLoop_run (h : StoreReady kv logs) (hM : Resolved kv.num M logs) (hg : g < kv.num)
    (n : ℕ) (newGc : Option ℕ) (hn : kv.size-total (logs g) < n) :
    ∃ newGc' kv' logs', gcLoop g n newGc kv = some (newGc', kv') ∧
      GcRun kv.size kv.num g logs newGc logs' newGc' ∧
      Advance (GcWay kv.size kv.num g M logs' logs) kv logs kv' logs' ∧ Resolved kv.num M logs' ∧
      kv'.bid = kv.bid ∧ kv'.gcBid = kv.gcBid := by
  induction n generalizing kv logs newGc with
  | zero => exact absurd hn (Nat.not_lt_zero _)
  | succ n ih =>
    rw [gcLoop]
    rcases minBlock_ready h hg with ⟨hr, hfull⟩|⟨m, hr, hpick⟩
    · rw [hr]
      have hstop : GcRun kv.size kv.num g logs newGc logs newGc := .stop hfull
      exact ⟨newGc, kv, logs, rfl, hstop, .refl h (.here hM hstop), hM, rfl, rfl⟩
    · obtain ⟨kv', hiter, hadv, hres, hb, hgc, hcount⟩ :=
        deepGc_block h hM hg hpick.lt hpick.ne hpick.pos hpick.fits
      have htot := total_gcMove logs hpick.ne
      have hpos := hpick.pos
      have hfits := hpick.fits
      obtain ⟨newGc', kv'', logs'', hloop, hrun, hadv', hres', hb', hgc'⟩ :=
        ih hadv.ready (by rw [hadv.num_eq]; exact hres) (by rw [hadv.num_eq]; exact hg) (some m)
          (by rw [hadv.size_eq]; omega)
      rw [hadv.num_eq] at hrun hadv' hres'
      rw [hadv.size_eq] at hrun hadv'
      rw [hr]
      refine ⟨newGc', kv'', logs'', ?_, .move hpick hrun,
        (hadv.mono fun _ hl => .inside hpick hrun hl).trans
          (hadv'.mono fun _ hl => .later hpick hl), hres', hb'.trans hb, hgc'.trans hgc⟩
      simp only [hiter, bind_some, hcount]
      exact hloop

/-- `kv_gc` performs the rounds seen on the logs; it fails exactly when no
block was moved. -/
theorem kvGc_run (h : StoreReady kv logs) (hM : Resolved kv.num M logs) (hg : g < kv.num)
    (hgc : kv.gcBid = some g) :
    ∃ newGc kv' logs', GcRun kv.size kv.num g logs none logs' newGc ∧
      Advance (GcWay kv.size kv.num g M logs' logs) kv logs kv' logs' ∧ Resolved kv.num M logs' ∧
      kv'.bid = kv.bid ∧ kv'.gcBid = some g ∧
      kvGc kv = some (match newGc with
        | some n => (0, { kv' with gcBid := some n })
        | none => (-1, kv')) := by
  have hlt := h.size_lt
  obtain ⟨newGc, kv', logs', hloop, hrun, hadv, hres, hb, hgc'⟩ :=
    gcLoop_run h hM hg gcFuel none (by rw [gcFuel]; omega)
  refine ⟨newGc, kv', logs', hrun, hadv, hres, hb, hgc'.trans hgc, ?_⟩
  cases newGc with
  | none => simp only [kvGc, hgc, bind_some, hloop, map_some]
  | some n => simp only [kvGc, hgc, bind_some, hloop, map_some]

end Loop

end PineVoice.Kv
