import PineVoice.KvCompact

/-!
# Setting and removing keys

`kv_set` tries the blocks in turn from the current one on, skipping the reserve; when none has
room it compacts once and tries again.
-/

namespace PineVoice.Kv

open Function NorFlash List Option

/-- Bytes taken by the record of a key and a value. -/
def recSize (key value : List UInt8) : ℕ := align4 (key.length+value.length+6)+4

/-- Some block other than the reserve has room for `n` bytes. -/
def HasRoom (size num g : ℕ) (logs : ℕ → List Rec) (n : ℕ) : Prop :=
  ∃ i, i < num ∧ i ≠ g ∧ total (logs i)+n+4 ≤ size

/-- There is room at once or after a compaction. -/
def Accepts (size num g : ℕ) (logs : ℕ → List Rec) (n : ℕ) : Prop :=
  HasRoom size num g logs n ∨
    ∃ logs' g', GcRun size num g logs none logs' (some g') ∧ HasRoom size num g' logs' n

/-- There is no room at once, and none after the compaction. -/
def Rejects (size num g : ℕ) (logs : ℕ → List Rec) (n : ℕ) : Prop :=
  ¬HasRoom size num g logs n ∧ ∃ logs' newGc, GcRun size num g logs none logs' newGc ∧
    ∀ g', newGc = some g' → ¬HasRoom size num g' logs' n

section Rounds

variable {size num g : ℕ} {logs logs' : ℕ → List Rec} {newGc newGc' : Option ℕ}

/-- The block emptied last is empty and not the old reserve. -/
theorem GcRun.emptied (h : GcRun size num g logs newGc logs' newGc')
    (h0 : ∀ x, newGc = some x → x < num ∧ x ≠ g ∧ logs x = []) :
    ∀ x, newGc' = some x → x < num ∧ x ≠ g ∧ logs' x = [] := by
  induction h with
  | stop _ => exact h0
  | @move logs logs' newGc newGc' m hpick _ ih =>
    refine ih fun x hx => ?_
    obtain rfl := Option.some.inj hx
    exact ⟨hpick.lt, hpick.ne, gcMove_source logs g m⟩

theorem GcRun.isSome (h : GcRun size num g logs newGc logs' newGc') (h0 : newGc.isSome = true) :
    newGc'.isSome = true := by
  induction h with
  | stop _ => exact h0
  | move _ _ ih => exact ih rfl

/-- A compaction without a new reserve moved nothing. -/
theorem GcRun.unmoved (h : GcRun size num g logs none logs' none) : logs' = logs := by
  cases h with
  | stop _ => rfl
  | move _ hrun => exact absurd (hrun.isSome rfl) (by simp)

end Rounds

/-- A store that holds contents, one record a key, with its reserve block. -/
structure Holding (kv : Kvset) (logs : ℕ → List Rec) (M : Contents) (g : ℕ) : Prop where
  /-- The store can be written to. -/
  ready : StoreReady kv logs
  /-- The logs hold the contents. -/
  resolved : Resolved kv.num M logs
  /-- The reserve block exists. -/
  gc_lt : g < kv.num
  /-- The reserve block is known. -/
  gcBid : kv.gcBid = some g

section Bids

variable {kv kv' : Kvset} {logs logs' : ℕ → List Rec} {Q : (ℕ → List Rec) → Prop}

variable {b : ℕ}

/-- The current and the reserve block may be chosen freely. -/
theorem StoreReady.withBids (h : StoreReady kv logs) (hb : b < kv.num) (gc : Option ℕ) :
    StoreReady { kv with bid := b, gcBid := gc } logs :=
  ⟨⟨h.size_ge, h.size_lt, h.size_mod, h.num_ge, h.rep⟩, h.clean, h.used, hb⟩

theorem Advance.withBids (h : Advance Q kv logs kv' logs') (hb : b < kv.num) (gc : Option ℕ)
    : Advance Q kv logs { kv' with bid := b, gcBid := gc } logs' :=
  ⟨h.ready.withBids (by rw [h.num_eq]; exact hb) gc, h.size_eq, h.num_eq, h.run⟩

end Bids

section Store

variable {kv : Kvset} {logs : ℕ → List Rec} {M : Contents} {g : ℕ} {key value : List UInt8}

variable {num s version : ℕ} {node : Option KvNode}

theorem succ_mod_ne {t : ℕ} (hs : s < num) (ht : t+1 < num) : (s+(t+1)) % num ≠ s := by
  intro h
  rcases lt_or_ge (s+(t+1)) num with hlt|hge
  · rw [Nat.mod_eq_of_lt hlt] at h
    omega
  · rw [Nat.mod_eq_sub_mod hge, Nat.mod_eq_of_lt (by omega)] at h
    omega

/-- Stepping through all blocks from any start meets every block. -/
theorem exists_add_mod {i : ℕ} (hs : s < num) (hi : i < num) : ∃ t, t < num ∧ (s+t) % num = i := by
  refine ⟨(i+num-s) % num, Nat.mod_lt _ (by omega), ?_⟩
  rw [Nat.add_mod_mod, show s+(i+num-s) = i+num by omega, Nat.add_mod_right, Nat.mod_eq_of_lt hi]

/-- What the block loop of `kv_set` does with block `i`. -/
def setAttempt (kv : Kvset) (key value : List UInt8) (version i : ℕ) : ℤ × Kvset :=
  if (kv.blocks i).roCount = 0 ∧ some i ≠ kv.gcBid then
    kvblockSet { kv with bid := i } i key value version
  else (-1, { kv with bid := i })

section Search

variable {version : ℕ}

theorem setLoop_miss {i : ℕ} (s n : ℕ)
    (hmiss : setAttempt kv key value version i = (-1, { kv with bid := i })) :
    setLoop key value version s (n+1) { kv with bid := i } =
      if (i+1) % kv.num = s then some (false, { kv with bid := (i+1) % kv.num })
      else setLoop key value version s n { kv with bid := (i+1) % kv.num } := by
  rw [setAttempt] at hmiss
  rw [setLoop]
  rw [hmiss, if_neg (show ¬(0 : ℤ) ≤ -1 by decide)]

/-- The block loop of `kv_set` after `t` blocks that do not fit: it stops at
a block that fits or comes back to where it started. -/
theorem setLoop_search
    (hstay : ∀ i, i < kv.num → 0 ≤ (setAttempt kv key value version i).1 ∨
      setAttempt kv key value version i = (-1, { kv with bid := i }))
    {s : ℕ} (hs : s < kv.num) (n t : ℕ) (hn : t+(n+1) = kv.num)
    (hfull : ∀ u, u < t → setAttempt kv key value version ((s+u) % kv.num) =
      (-1, { kv with bid := (s+u) % kv.num })) :
    (∃ i, i < kv.num ∧ 0 ≤ (setAttempt kv key value version i).1 ∧
      setLoop key value version s (n+1) { kv with bid := (s+t) % kv.num } =
        some (true, (setAttempt kv key value version i).2)) ∨
    ((∀ i, i < kv.num → setAttempt kv key value version i = (-1, { kv with bid := i })) ∧
      setLoop key value version s (n+1) { kv with bid := (s+t) % kv.num } =
        some (false, { kv with bid := s })) := by
  have hb : (s+t) % kv.num < kv.num := Nat.mod_lt _ (by omega)
  rcases hstay _ hb with hfit|hno
  · refine .inl ⟨_, hb, hfit, ?_⟩
    exact if_pos hfit
  · have hfull' : ∀ u, u < t+1 → setAttempt kv key value version ((s+u) % kv.num) =
        (-1, { kv with bid := (s+u) % kv.num }) := by
      intro u hu
      rcases Nat.lt_succ_iff_lt_or_eq.mp hu with hlt|rfl
      · exact hfull u hlt
      · exact hno
    have hnext : ((s+t) % kv.num+1) % kv.num = (s+(t+1)) % kv.num := by
      rw [Nat.mod_add_mod, add_assoc]
    rw [setLoop_miss s n hno, hnext]
    cases n with
    | zero =>
      have hback : (s+(t+1)) % kv.num = s := by
        rw [show t+1 = kv.num by omega, Nat.add_mod_right, Nat.mod_eq_of_lt hs]
      rw [hback, if_pos rfl]
      refine .inr ⟨fun i hi => ?_, rfl⟩
      obtain ⟨u, hu, rfl⟩ := exists_add_mod hs hi
      exact hfull' u (by omega)
    | succ n =>
      rw [if_neg (succ_mod_ne hs (by omega))]
      exact setLoop_search hstay hs n (t+1) (by omega) hfull'

/-- The block loop of `kv_set`: some block takes the record, or none does and
nothing changes. -/
theorem setLoop_cases (hb : kv.bid < kv.num)
    (hstay : ∀ i, i < kv.num → 0 ≤ (setAttempt kv key value version i).1 ∨
      setAttempt kv key value version i = (-1, { kv with bid := i })) :
    (∃ i, i < kv.num ∧ 0 ≤ (setAttempt kv key value version i).1 ∧
      setLoop key value version kv.bid kv.num kv =
        some (true, (setAttempt kv key value version i).2)) ∨
    ((∀ i, i < kv.num → setAttempt kv key value version i = (-1, { kv with bid := i })) ∧
      setLoop key value version kv.bid kv.num kv = some (false, kv)) := by
  have hsearch := setLoop_search hstay hb (kv.num-1) 0 (by omega)
    (fun u hu => absurd hu (Nat.not_lt_zero _))
  rwa [show kv.num-1+1 = kv.num by omega, add_zero kv.bid, Nat.mod_eq_of_lt hb] at hsearch

end Search

/-- The block loop of `kv_set` for a record that can be stored. -/
theorem setLoop_storable (h : StoreReady kv logs) (hgc : kv.gcBid = some g)
    (hst : Storable key value) (version : ℕ) :
    (∃ i, i < kv.num ∧ i ≠ g ∧ total (logs i)+recSize key value+4 ≤ kv.size ∧
      setLoop key value version kv.bid kv.num kv = some (true, appendRec { kv with bid := i } i
        (Rec.fresh hst (UInt8.ofNat (version &&& 0xFF))))) ∨
    (¬HasRoom kv.size kv.num g logs (recSize key value) ∧
      setLoop key value version kv.bid kv.num kv = some (false, kv)) := by
  have hroom : ∀ i, i < kv.num → i ≠ g → total (logs i)+recSize key value+4 ≤ kv.size →
      setAttempt kv key value version i = ((total (logs i) : ℤ), appendRec { kv with bid := i } i
        (Rec.fresh hst (UInt8.ofNat (version &&& 0xFF)))) := by
    intro i hi hne hroom
    rw [setAttempt, if_pos ⟨(h.rep i hi).roCount, by rw [hgc]; simpa using hne⟩]
    exact kvblockSet_room (h.withBids hi kv.gcBid) hi hst version hroom
  have hmiss : ∀ i, i < kv.num → ¬(i ≠ g ∧ total (logs i)+recSize key value+4 ≤ kv.size) →
      setAttempt kv key value version i = (-1, { kv with bid := i }) := by
    intro i hi hno
    rw [setAttempt]
    split
    · next hc =>
      have hne : i ≠ g := fun he => hc.2 (by rw [hgc, he])
      exact kvblockSet_full (h.withBids hi kv.gcBid) hi version
        (not_le.mp fun hroom => hno ⟨hne, hroom⟩)
    · rfl
  rcases setLoop_cases h.bid_lt (fun i hi => (em _).imp
    (fun hc => by rw [hroom i hi hc.1 hc.2]; exact Int.natCast_nonneg _) (hmiss i hi)) with
    ⟨i, hi, hpos, hl⟩|⟨hall, hl⟩
  · by_cases hc : i ≠ g ∧ total (logs i)+recSize key value+4 ≤ kv.size
    · rw [hroom i hi hc.1 hc.2] at hl
      exact .inl ⟨i, hi, hc.1, hc.2, hl⟩
    · rw [hmiss i hi hc] at hpos
      exact absurd hpos (show ¬(0 : ℤ) ≤ -1 by decide)
  · refine .inr ⟨fun ⟨i, hi, hne, hfit⟩ => ?_, hl⟩
    have hret := congrArg Prod.fst ((hroom i hi hne hfit).symm.trans (hall i hi))
    omega

/-- The block loop of `kv_set` for a key of a length that is never stored. -/
theorem setLoop_unstorable (h : StoreReady kv logs)
    (hk : key.length ≤ 0 ∨ 0x3F < key.length) (value : List UInt8) (version : ℕ) :
    setLoop key value version kv.bid kv.num kv = some (false, kv) := by
  have hmiss : ∀ i, setAttempt kv key value version i = (-1, { kv with bid := i }) := by
    intro i
    rw [setAttempt, kvblockSet, if_pos (show _ ∨ _ ∨ _ by omega), ite_self]
  rcases setLoop_cases h.bid_lt (fun i _ => .inr (hmiss i)) with ⟨i, _, hpos, _⟩|⟨_, hl⟩
  · rw [hmiss i] at hpos
    exact absurd hpos (show ¬(0 : ℤ) ≤ -1 by decide)
  · exact hl

/-- What `kv_set` knows about the old record of its key. -/
def OldNode (num : ℕ) (logs : ℕ → List Rec) (key : List UInt8) (version : ℕ)
    (node : Option KvNode) : Prop :=
  (node = none ∧ copies num logs key = 0 ∧ version = 1) ∨
    ∃ j pre r post, j < num ∧ IsAt logs key j pre r post ∧ version = nextVersion r.version ∧
      node = some (r.node j (total pre))

theorem OldNode.version_ne (h : OldNode num logs key version node)
    : UInt8.ofNat (version &&& 0xFF) ≠ 0 := by
  rcases h with ⟨-, -, rfl⟩|⟨_, _, r, _, -, -, rfl, -⟩
  · decide
  · exact bump_ne_zero r.version

/-- The logs on the way from one contents to another. -/
def Between (num : ℕ) (M M' : Contents) (logs : ℕ → List Rec) : Prop :=
  Recoverable num M M logs ∨ Recoverable num M M' logs

/-- Storing a record and deleting the old one of its key, or finding no room. -/
theorem setStart2_spec (h : Holding kv logs M g) (hst : Storable key value)
    (hnode : OldNode kv.num logs key version node) :
    (HasRoom kv.size kv.num g logs (recSize key value) ∧ ∃ kv' logs',
      setStart2 kv key value version node = some (true, kv') ∧
      Advance (Between kv.num M (update M key (some value))) kv logs kv' logs' ∧
      Resolved kv.num (update M key (some value)) logs' ∧ kv'.gcBid = some g ∧
      (logs g = [] → logs' g = [])) ∨
    (¬HasRoom kv.size kv.num g logs (recSize key value) ∧
      setStart2 kv key value version node = some (false, kv)) := by
  rcases setLoop_storable h.ready h.gcBid hst version with ⟨i, hi, hne, hroom, hl⟩|⟨hfull, hl⟩
  · refine .inl ⟨⟨i, hi, hne, hroom⟩, ?_⟩
    have hstart : Advance (Between kv.num M (update M key (some value))) kv logs
        { kv with bid := i } logs :=
      (Advance.refl h.ready (.inl h.resolved.recoverable)).withBids hi kv.gcBid
    generalize hx : Rec.fresh hst (UInt8.ofNat (version &&& 0xFF)) = x at hl
    have hxk : x.key = key := by rw [←hx]; rfl
    have hxv : x.value = value := by rw [←hx]; rfl
    have hxl : x.live = true := by rw [←hx]; rfl
    have happ : Recoverable kv.num M (update M key (some value))
          (update logs i (logs i ++ [x])) →
        Advance (Between kv.num M (update M key (some value))) kv logs
          (appendRec { kv with bid := i } i x) (update logs i (logs i ++ [x])) := by
      intro hrec
      rw [←hx] at hrec ⊢
      exact hstart.trans (advance_append hstart.ready hi hst hnode.version_ne hroom
        (.inl h.resolved.recoverable) (.inr hrec))
    have hkeep : logs g = [] → update logs i (logs i ++ [x]) g = [] := fun he => by
      rw [update_of_ne hne.symm, he]
    rcases hnode with ⟨rfl, hz, -⟩|⟨j, pre, r, post, hj, hat, hv, rfl⟩
    · have hres := h.resolved.insert hi hxl (by rw [hxk]; exact hz)
      rw [hxk, hxv] at hres
      refine ⟨_, _, ?_, happ hres.recoverable, hres, h.gcBid, hkeep⟩
      rw [setStart2, hl]
      rfl
    · obtain ⟨hlog, hlive, hkey⟩ := hat
      have hmem : r ∈ logs j := by
        rw [hlog]
        exact mem_append_right _ mem_cons_self
      obtain ⟨post', hlog'⟩ : ∃ post', update logs i (logs i ++ [x]) j = pre ++ r :: post' := by
        by_cases hij : j = i
        · subst hij
          exact ⟨post ++ [x], by rw [update_self, hlog, append_assoc]; rfl⟩
        · exact ⟨post, by rw [update_of_ne hij, hlog]⟩
      have hold := (h.resolved.live hj hmem hlive).1
      have hxr : x.key = r.key := hxk.trans hkey.symm
      have hrec := h.resolved.append hi hxl
        (.inr ⟨r.value, r.version, by rw [hxr]; exact hold, by rw [←hx, hv]; rfl⟩)
      have hres := h.resolved.replace hi hj hxl hmem hlive hxr hlog'
      rw [hxk, hxv] at hrec hres
      have hadv := happ hrec
      refine ⟨_, _, ?_, hadv.trans (advance_remove hadv.ready hj hlog' hlive (.inr hrec)
        (.inr hres.recoverable)), hres, (kvnodeRm_frame _ _).gcBid_eq.trans h.gcBid, fun he => ?_⟩
      · rw [setStart2, hl]
        rfl
      · have hjg : g ≠ j := by
          rintro rfl
          rw [he] at hmem
          exact absurd hmem (not_mem_nil)
        rw [update_of_ne hjg, hkeep he]
  · refine .inr ⟨hfull, ?_⟩
    rw [setStart2, hl]
    cases node <;> rfl

/-- The lookup of `kv_set`: the value is stored already, or the old record of
the key is known. -/
theorem setStart1_spec (h : StoreRep kv logs) (hres : Resolved kv.num M logs)
    (hst : Storable key value) (hv : M key = none → version = 0) :
    (M key = some value ∧ setStart1 kv key value version = some none) ∨
    (M key ≠ some value ∧ ∃ v node, setStart1 kv key value version = some (some (v, node)) ∧
      OldNode kv.num logs key v node ∧ (node = none ↔ M key = none)) := by
  have hsize := hst.size_lt
  rcases kvFind_spec h hst.key_nul with ⟨hf, hz⟩|⟨i, pre, r, post, hi, hat, hf⟩
  · have hM := hres.absent hz
    refine .inr ⟨by simp [hM], version+1, none, ?_, .inl ⟨rfl, hz, by rw [hv hM]⟩, by simp [hM]⟩
    rw [setStart1, hf]
    rfl
  · have hM := (hres.live hi hat.mem hat.2.1).2
    rw [hat.2.2] at hM
    have hread := readBytes_value (hat.holds h hi) r.value.length
    rw [Nat.min_self, take_length] at hread
    have hsame : ((r.node i (total pre)).valSize = u16 value.length ∧
        readBytes (kv.mem (r.node i (total pre)).block) (r.node i (total pre)).valueOffset
          value.length = value) ↔ r.value = value := by
      rw [u16_natCast (by omega)]
      change r.value.length = value.length ∧ readBytes (kv.mem i) (total pre+r.key.length+5)
        value.length = value ↔ r.value = value
      constructor
      · rintro ⟨hl, hr⟩
        rw [←hr, ←hl, hread]
      · rintro rfl
        exact ⟨rfl, hread⟩
    by_cases he : r.value = value
    · refine .inl ⟨by rw [hM, he], ?_⟩
      rw [setStart1, hf]
      simp only [map_some, if_pos (hsame.mpr he)]
    · refine .inr ⟨by rw [hM]; simpa using he, _, _, ?_,
        .inr ⟨i, pre, r, post, hi, hat, rfl, rfl⟩, by simp [hM]⟩
      rw [setStart1, hf]
      simp only [map_some, if_neg fun hc => he (hsame.mp hc)]
      rfl

/-- A store reached from another one, with its contents and reserve. -/
structure Reaches (Q : (ℕ → List Rec) → Prop) (kv : Kvset) (logs : ℕ → List Rec) (g : ℕ)
    (kv' : Kvset) (logs' : ℕ → List Rec) (M' : Contents) (g' : ℕ) : Prop where
  /-- The operations on the way. -/
  advance : Advance Q kv logs kv' logs'
  /-- The contents reached. -/
  holding : Holding kv' logs' M' g'
  /-- An empty reserve is followed by an empty reserve. -/
  reserve : logs g = [] → logs' g' = []

/-- `kv_gc` keeps the contents; the block emptied last is the new reserve. -/
theorem kvGc_reaches (h : Holding kv logs M g) :
    ∃ newGc kv' logs', GcRun kv.size kv.num g logs none logs' newGc ∧
      kvGc kv = some (if newGc = none then -1 else 0, kv') ∧
      Reaches (Recoverable kv.num M M) kv logs g kv' logs' M (newGc.getD g) := by
  obtain ⟨newGc, kv', logs', hrun, hadv, hres, hb, hgc, hkv⟩ :=
    kvGc_run h.ready h.resolved h.gc_lt h.gcBid
  have hadv := hadv.mono fun _ hl => hl.recoverable h.gc_lt
  have hres' : Resolved kv'.num M logs' := by
    rw [hadv.num_eq]
    exact hres
  cases newGc with
  | none =>
    refine ⟨none, kv', logs', hrun, hkv, hadv, ⟨hadv.ready, hres', ?_, hgc⟩, ?_⟩
    · rw [hadv.num_eq]
      exact h.gc_lt
    · rw [hrun.unmoved]
      exact id
  | some n =>
    obtain ⟨hn, -, hempty⟩ := hrun.emptied (fun x hx => by simp at hx) n rfl
    have hadv' := hadv.withBids (b := kv'.bid) (by rw [hb]; exact h.ready.bid_lt) (some n)
    refine ⟨some n, { kv' with gcBid := some n }, logs', hrun, hkv, hadv',
      ⟨hadv'.ready, hres', ?_, rfl⟩, fun _ => hempty⟩
    rw [hadv'.num_eq]
    exact hn

theorem Storable.checked (hst : Storable key value) :
    ¬(value.length ≤ 0 ∨ 498 ≤ key.length+value.length) := by
  have hpos := hst.value_pos
  have hlt := hst.size_lt
  omega

/-- `kv_set` of the value that is stored already does nothing. -/
theorem kvSet_same (h : StoreRep kv logs) (hres : Resolved kv.num M logs)
    (hst : Storable key value) (hM : M key = some value) :
    kvSet kv key value = some ((value.length : ℤ), kv) := by
  rcases setStart1_spec h hres hst (fun _ => rfl) with ⟨-, h1⟩|⟨hne, -⟩
  · rw [kvSet, if_neg hst.checked]
    simp [h1]
  · exact absurd hM hne

/-- `kv_set` after a first attempt without room: compaction and, if a block
was moved, a second attempt. -/
theorem kvSet_retry (h : Holding kv logs M g) (hst : Storable key value) (hM : M key ≠ some value)
    (h1 : setStart1 kv key value 0 = some (some (version, node)))
    (h2 : setStart2 kv key value version node = some (false, kv))
    (hold : OldNode kv.num logs key version node) (hnode : node = none ↔ M key = none)
    (hz : ¬HasRoom kv.size kv.num g logs (recSize key value)) :
    (∃ kv' logs' g', kvSet kv key value = some ((value.length : ℤ), kv') ∧
      Reaches (Between kv.num M (update M key (some value))) kv logs g kv' logs'
        (update M key (some value)) g' ∧
      Accepts kv.size kv.num g logs (recSize key value)) ∨
    (∃ kv' logs' g', kvSet kv key value = some (-1, kv') ∧
      Reaches (Recoverable kv.num M M) kv logs g kv' logs' M g' ∧
      Rejects kv.size kv.num g logs (recSize key value)) := by
  obtain ⟨newGc, kv1, logs1, hrun, hgc, hreach⟩ := kvGc_reaches h
  have hadv := hreach.advance
  cases newGc with
  | none =>
    refine .inr ⟨kv1, logs1, g, ?_, hreach, hz, logs1, none, hrun, fun g' hg' => by simp at hg'⟩
    rw [kvSet, if_neg hst.checked]
    simp [h1, h2, hgc]
  | some n =>
    have hhold : Holding kv1 logs1 M n := hreach.holding
    have hempty := (hrun.emptied (fun x hx => by simp at hx) n rfl).2.2
    obtain ⟨v, old, hold, hkv⟩ : ∃ v old, OldNode kv1.num logs1 key v old ∧
        kvSet kv key value = (setStart2 kv1 key value v old).map fun r =>
          (if r.1 then (value.length : ℤ) else -1, r.2) := by
      cases node with
      | none =>
        have hv : version = 1 := by
          rcases hold with ⟨-, -, hv⟩|⟨_, _, _, _, -, -, -, hn⟩
          · exact hv
          · exact absurd hn (by simp)
        refine ⟨version, none, .inl ⟨rfl, ?_, hv⟩, ?_⟩
        · have hs := hhold.resolved key
          rw [hnode.mp rfl] at hs
          exact hs
        · rw [kvSet, if_neg hst.checked]
          simp [h1, h2, hgc, map_eq_bind]
      | some node =>
        have hv : M key = none → version = 0 := fun hn => absurd (hnode.mpr hn) (by simp)
        rcases setStart1_spec hhold.ready.toStoreRep hhold.resolved hst hv with
          ⟨he, -⟩|⟨-, v, old, hs1, hold, -⟩
        · exact absurd he hM
        · refine ⟨v, old, hold, ?_⟩
          rw [kvSet, if_neg hst.checked]
          simp [h1, h2, hgc, hs1, map_eq_bind]
    have hstart2 := setStart2_spec hhold hst hold
    rw [hadv.size_eq, hadv.num_eq] at hstart2
    rcases hstart2 with ⟨hroom, kv2, logs2, hs2, hadv2, hres2, hgc2, hkeep⟩|⟨hfull, hs2⟩
    · have hleft : Advance (Between kv.num M (update M key (some value))) kv logs kv1
          logs1 := hadv.mono fun _ hl => .inl hl
      have hall := hleft.trans hadv2
      refine .inl ⟨kv2, logs2, n, by rw [hkv, hs2]; rfl, ⟨hall, ⟨hall.ready, ?_, ?_, hgc2⟩,
        fun _ => hkeep hempty⟩, .inr ⟨logs1, n, hrun, hroom⟩⟩
      · rw [hall.num_eq]
        exact hres2
      · rw [hall.num_eq, ←hadv.num_eq]
        exact hhold.gc_lt
    · refine .inr ⟨kv1, logs1, n, by rw [hkv, hs2]; rfl, hreach, hz, logs1, some n, hrun,
        fun g' hg' => ?_⟩
      obtain rfl := Option.some.inj hg'
      exact hfull

/-- `kv_set` of a record that can be stored: it succeeds and sets the key, or
there is no room even after compaction and the contents stay. -/
theorem kvSet_storable (h : Holding kv logs M g) (hst : Storable key value) :
    (∃ kv' logs' g', kvSet kv key value = some ((value.length : ℤ), kv') ∧
      Reaches (Between kv.num M (update M key (some value))) kv logs g kv' logs'
        (update M key (some value)) g' ∧
      (M key = some value ∨ Accepts kv.size kv.num g logs (recSize key value))) ∨
    (∃ kv' logs' g', kvSet kv key value = some (-1, kv') ∧
      Reaches (Recoverable kv.num M M) kv logs g kv' logs' M g' ∧ M key ≠ some value ∧
      Rejects kv.size kv.num g logs (recSize key value)) := by
  rcases setStart1_spec h.ready.toStoreRep h.resolved hst (fun _ => rfl) with
    ⟨hM, -⟩|⟨hM, version, node, h1, hold, hnode⟩
  · have hself : update M key (some value) = M := by
      rw [←hM, update_eq_self]
    refine .inl ⟨kv, logs, g, kvSet_same h.ready.toStoreRep h.resolved hst hM, ⟨?_, ?_, id⟩,
      .inl hM⟩
    · exact Advance.refl h.ready (.inl h.resolved.recoverable)
    · rw [hself]
      exact h
  · rcases setStart2_spec h hst hold with ⟨hroom, kv', logs', h2, hadv, hres, hgc, hkeep⟩|⟨hz, h2⟩
    · refine .inl ⟨kv', logs', g, by rw [kvSet, if_neg hst.checked]; simp [h1, h2],
        ⟨hadv, ⟨hadv.ready, ?_, ?_, hgc⟩, hkeep⟩, .inr (.inl hroom)⟩
      · rw [hadv.num_eq]
        exact hres
      · rw [hadv.num_eq]
        exact h.gc_lt
    · rcases kvSet_retry h hst hM h1 h2 hold hnode hz with
        ⟨kv', logs', g', hkv, hreach, hacc⟩|⟨kv', logs', g', hkv, hreach, hrej⟩
      · exact .inl ⟨kv', logs', g', hkv, hreach, .inr hacc⟩
      · exact .inr ⟨kv', logs', g', hkv, hreach, hM, hrej⟩

/-- A key of a length that is never stored is not found. -/
theorem setStart1_unstorable (h : Holding kv logs M g) (h0 : 0 ∉ key)
    (hk : key.length ≤ 0 ∨ 0x3F < key.length) (value : List UInt8) (version : ℕ) :
    setStart1 kv key value version = some (some (version+1, none)) := by
  rcases kvFind_spec h.ready.toStoreRep h0 with ⟨hf, -⟩|⟨i, pre, r, post, -, hat, -⟩
  · rw [setStart1, hf]
    rfl
  · have hpos := r.key_pos
    have hle := r.key_le
    rw [hat.2.2] at hpos hle
    omega

/-- `kv_set` of a record that cannot be stored fails; it may have compacted
the store. -/
theorem kvSet_unstorable (h : Holding kv logs M g) (h0 : 0 ∉ key)
    (hk : (key.length ≤ 0 ∨ 0x3F < key.length) ∨
      (value.length ≤ 0 ∨ 498 ≤ key.length+value.length)) :
    ∃ kv' logs' g', kvSet kv key value = some (-1, kv') ∧
      Reaches (Recoverable kv.num M M) kv logs g kv' logs' M g' := by
  by_cases hcheck : value.length ≤ 0 ∨ 498 ≤ key.length+value.length
  · refine ⟨kv, logs, g, by rw [kvSet, if_pos hcheck], ?_, h, id⟩
    exact Advance.refl h.ready h.resolved.recoverable
  · have hlen := hk.resolve_right hcheck
    have h1 := setStart1_unstorable h h0 hlen value 0
    have h2 : setStart2 kv key value 1 none = some (false, kv) := by
      rw [setStart2, setLoop_unstorable h.ready hlen]
      rfl
    obtain ⟨newGc, kv1, logs1, hrun, hgc, hreach⟩ := kvGc_reaches h
    refine ⟨kv1, logs1, newGc.getD g, ?_, hreach⟩
    have h3 : setStart2 kv1 key value 1 none = some (false, kv1) := by
      rw [setStart2, setLoop_unstorable hreach.holding.ready hlen]
      rfl
    rw [kvSet, if_neg hcheck]
    cases newGc with
    | none => simp [h1, h2, hgc]
    | some n => simp [h1, h2, h3, hgc]

/-- `kv_set` with any C string the scanner passes: it sets the key and
returns the size of the value, or it fails and keeps the contents. -/
theorem kvSet_reaches (h : Holding kv logs M g) (h0 : 0 ∉ key)
    (hq : textQuiet false key = true) (value : List UInt8) :
    (∃ kv' logs' g', kvSet kv key value = some ((value.length : ℤ), kv') ∧
      Reaches (Between kv.num M (update M key (some value))) kv logs g kv' logs'
        (update M key (some value)) g') ∨
    (∃ kv' logs' g', kvSet kv key value = some (-1, kv') ∧
      Reaches (Recoverable kv.num M M) kv logs g kv' logs' M g') := by
  by_cases hk : (key.length ≤ 0 ∨ 0x3F < key.length) ∨
      (value.length ≤ 0 ∨ 498 ≤ key.length+value.length)
  · exact .inr (kvSet_unstorable h h0 hk)
  · have hst : Storable key value :=
      ⟨by omega, by omega, h0, hq, by omega, by omega⟩
    rcases kvSet_storable h hst with ⟨kv', logs', g', hkv, hr, -⟩|⟨kv', logs', g', hkv, hr, -⟩
    · exact .inl ⟨kv', logs', g', hkv, hr⟩
    · exact .inr ⟨kv', logs', g', hkv, hr⟩

/-- `kv_rm` takes the key out of the contents. -/
theorem kvRm_reaches (h : Holding kv logs M g) (h0 : 0 ∉ key) :
    ∃ kv' logs', kvRm kv key = some (if M key = none then -1 else 0, kv') ∧
      Reaches (Between kv.num M (update M key none)) kv logs g kv' logs' (update M key none) g := by
  rcases kvFind_spec h.ready.toStoreRep h0 with ⟨hf, hz⟩|⟨i, pre, r, post, hi, hat, hf⟩
  · have hM := h.resolved.absent hz
    have hself : update M key none = M := by
      rw [←hM, update_eq_self]
    refine ⟨kv, logs, by rw [kvRm, hf, if_pos hM]; rfl, ?_, by rw [hself]; exact h, id⟩
    exact Advance.refl h.ready (.inl h.resolved.recoverable)
  · have hM := (h.resolved.live hi hat.mem hat.2.1).2
    have hmem := hat.mem
    obtain ⟨hlog, hlive, hkey⟩ := hat
    have hres := h.resolved.remove hi hlive hlog
    rw [hkey] at hM hres
    have hadv : Advance (Between kv.num M (update M key none)) kv logs
        (kvnodeRm kv (r.node i (total pre))) (update logs i (removed pre r post)) :=
      advance_remove h.ready hi hlog hlive (.inl h.resolved.recoverable)
        (.inr hres.recoverable)
    refine ⟨_, _, by rw [kvRm, hf, hM]; rfl, hadv, ⟨hadv.ready, ?_, ?_, ?_⟩, fun he => ?_⟩
    · rw [hadv.num_eq]
      exact hres
    · rw [hadv.num_eq]
      exact h.gc_lt
    · exact (kvnodeRm_frame _ _).gcBid_eq.trans h.gcBid
    · have hne : g ≠ i := by
        rintro rfl
        rw [he] at hmem
        exact absurd hmem not_mem_nil
      rw [update_of_ne hne, he]

end Store

end PineVoice.Kv
