import Mathlib.Data.List.GetD
import PineVoice.KvConsistency
import PineVoice.KvMixedCalls
import PineVoice.KvMixedInit

/-!
# Read-only entries

The text lines of a store share their blocks with records. Deleting the last live record of a
block erases the whole block, text lines included. In every run in which no call deletes such a
record the lines stay where they are, and a restart finds them again.
-/

namespace PineVoice.Kv

open NorFlash Transition List Option

/-- The calls that change the store. -/
inductive Request where
  /-- `kv_set`. -/
  | set (key value : List UInt8)
  /-- `kv_rm`. -/
  | rm (key : List UInt8)
  /-- `kv_gc`. -/
  | gc
  /-- `kv_reset`. -/
  | reset
deriving DecidableEq, Repr

/-- The store after a call. -/
def Kvset.request (kv : Kvset) : Request → Option Kvset
  | .set key value => (kvSet kv key value).map Prod.snd
  | .rm key => (kvRm kv key).map Prod.snd
  | .gc => (kvGc kv).map Prod.snd
  | .reset => (kvReset kv).map Prod.snd

/-- A live record of this block is not the only one, or there are no text
lines. -/
def Kvset.Spared (kv : Kvset) (i : ℕ) : Prop :=
  (kv.blocks i).roCount = 0 ∨ (kv.blocks i).roCount+1 < (kv.blocks i).count

/-- A call that does not delete the last live record of a block with text
lines. A `kv_set` may compact the store first, so that the old record of its
key is in the reserve block when it is deleted. -/
def Request.Safe (kv : Kvset) : Request → Prop
  | .set key _ => 0 ∉ key ∧ textQuiet false key = true ∧ kv.gcBid.isSome = true ∧
      ∀ node ∈ (kvFind kv key).join, node.rw = true → kv.Spared node.block ∧
        ∀ g ∈ kv.gcBid, (kv.blocks g).roCount = 0 ∨ (kv.blocks g).roCount < (kv.blocks g).count
  | .rm key => 0 ∉ key ∧ ∀ node ∈ (kvFind kv key).join, node.rw = true → kv.Spared node.block
  | .gc => kv.gcBid.isSome = true
  | .reset => ∀ i, i < kv.num →
      (kv.blocks i).roCount = 0 ∨ (kv.blocks i).count = (kv.blocks i).roCount

instance (kv : Kvset) (i : ℕ) : Decidable (kv.Spared i) := inferInstanceAs (Decidable (_ ∨ _))

instance (kv : Kvset) (r : Request) : Decidable (r.Safe kv) :=
  match r with
  | .set _ _ => inferInstanceAs (Decidable (_ ∧ _ ∧ _ ∧ _))
  | .rm _ => inferInstanceAs (Decidable (_ ∧ _))
  | .gc => inferInstanceAs (Decidable (_ = _))
  | .reset => inferInstanceAs (Decidable (∀ i, i < kv.num → _))

/-- The read-only entries the scanner reports in a block of a flash image. -/
def roNodes (size : ℕ) (flash : Mem) (i : ℕ) : Option (List KvNode) :=
  (kvblockIter size (window flash (i*size)) i false (fun node nodes => (nodes ++ [node], 0))
    iterFuel 0 []).map fun nodes => nodes.filter fun node => !node.rw

/-- The read-only entries of an image are still stored in another one, and
`kv_init` on that finds the same. -/
def ReadOnlyKept (num size : ℕ) (flash flash' : Mem) : Prop :=
  ∃ kv, kvInit flash' num size = some kv ∧ ∀ i, i < num → ∃ nodes,
    roNodes size flash i = some nodes ∧ roNodes size kv.flash i = some nodes ∧
    ∀ node ∈ nodes, Agree flash' flash (i*size+node.headOffset) (i*size+node.nextOffset)

/-- An image whose blocks hold text lines and records and are erased behind
them, with one live record a key. -/
def Tidy (num size : ℕ) (flash : Mem) : Prop :=
  ∃ es : ℕ → List Entry, (∀ j, j < num → EntryImage size (window flash (j*size)) (es j)) ∧
    UniqueKeys num es

section Lines

variable {size : ℕ} {flash : Mem} {i : ℕ} {list : List Entry}

theorem filter_entryNodes (block off : ℕ) (list : List Entry) :
    (entryNodes block off list).filter (fun node => !node.rw) =
      (linesAt off list).map fun p => p.2.node block p.1 := by
  induction list generalizing off with
  | nil => rfl
  | cons e list ih =>
    rw [entryNodes, filter_cons, ih]
    cases e with
    | line l => rfl
    | slot s => rfl

/-- The scanner reports the text lines of a block. -/
theorem roNodes_eq (h : EntryImage size (window flash (i*size)) list) (hlt : size < 65536) :
    roNodes size flash i = some ((linesAt 0 list).map fun p => p.2.node i p.1) := by
  rw [roNodes, kvblockIter_entries i false _ _ h.stored h.room hlt h.blank, iterNodes_collect,
    nil_append, map_some, filter_entryNodes]

/-- The bytes of a text line are stored at its offset. -/
theorem holds_linesAt {m : Mem} {off : ℕ} (h : EntriesAt m off list) :
    ∀ p ∈ linesAt off list, Holds m p.1 p.2.bytes ∧ p.1+p.2.bytes.length ≤ off+span list := by
  induction list generalizing off with
  | nil => exact fun p hp => absurd hp not_mem_nil
  | cons e list ih =>
    intro p hp
    rw [span_cons]
    have hrest := ih h.2 p
    cases e with
    | line l =>
      rcases List.mem_cons.mp hp with rfl | hp
      · exact ⟨h.1, show off+l.bytes.length ≤ off+(l.bytes.length+span list) by omega⟩
      · obtain ⟨hhold, hle⟩ := hrest hp
        exact ⟨hhold, by omega⟩
    | slot s =>
      obtain ⟨hhold, hle⟩ := hrest hp
      exact ⟨hhold, by omega⟩

/-- Blocks with the same text lines store the same bytes for them. -/
theorem agree_lines {flash' : Mem} {list' : List Entry}
    (h : EntryImage size (window flash (i*size)) list)
    (h' : EntryImage size (window flash' (i*size)) list')
    (hlines : linesAt 0 list' = linesAt 0 list) (hlt : size < 65536) :
    ∀ node ∈ (linesAt 0 list).map (fun p => p.2.node i p.1),
      Agree flash' flash (i*size+node.headOffset) (i*size+node.nextOffset) := by
  intro node hnode
  obtain ⟨⟨off, l⟩, hp, rfl⟩ := List.mem_map.mp hnode
  have hroom := h.room
  obtain ⟨hhold, hle⟩ := holds_linesAt h.stored _ hp
  obtain ⟨hhold', -⟩ := holds_linesAt h'.stored _ (hlines ▸ hp)
  dsimp only at hhold hhold' hle
  have hnext : (l.node i off).nextOffset = off+l.bytes.length :=
    Entry.node_next (e := .line l) (show off+l.bytes.length < 65536 by omega)
  have hhead : (l.node i off).headOffset = off+l.zeros :=
    Entry.node_head (e := .line l) (show off+l.bytes.length < 65536 by omega)
  intro a hlo hhi
  rw [hhead] at hlo
  rw [hnext] at hhi
  obtain ⟨k, rfl⟩ : ∃ k, a = i*size+(off+k) := ⟨a-i*size-off, by omega⟩
  have hk : k < l.bytes.length := by omega
  exact (hhold'.getD hk 0).trans (hhold.getD hk 0).symm

end Lines

section Step

variable {kv : Kvset} {es : ℕ → List Entry}

theorem Mixed.spare (h : Mixed kv es) {i : ℕ} (hi : i < kv.num) (hs : kv.Spared i) :
    Spare (es i) := by
  have hb := h.block i hi
  have hsplit := countP_live (es i)
  rw [Kvset.Spared, hb.roCount, hb.count] at hs
  exact hs.imp_right fun hlt => by omega

variable {key : List UInt8} {node : KvNode}

/-- The block of a record that a lookup reports. -/
theorem Mixed.found_lt (h : Mixed kv es) (h0 : 0 ∉ key) (hfind : kvFind kv key = some (some node))
    (hrw : node.rw = true) : node.block < kv.num := by
  obtain ⟨found, hfound, hcases⟩ := kvFind_mixed h h0
  obtain rfl := Option.some.inj (hfind.symm.trans hfound)
  rcases hcases with ⟨j, node', hj, hnode, hin⟩ | ⟨-, hro⟩
  · obtain rfl := Option.some.inj hnode
    rw [hin.block]
    exact hj
  · rw [hro node rfl] at hrw
    cases hrw

/-- A safe call returns and keeps the text lines. -/
theorem request_keeps (h : Mixed kv es) (hkeys : UniqueKeys kv.num es) {r : Request}
    (hsafe : r.Safe kv) : ∃ kv' es', kv.request r = some kv' ∧ Keeps kv es kv' es' := by
  cases r with
  | set key value =>
    obtain ⟨h0, hq, hgc, hspare⟩ := hsafe
    obtain ⟨g, hg⟩ := Option.isSome_iff_exists.mp hgc
    have hb := h.block g (h.gc_lt g hg)
    have hsplit := countP_live (es g)
    obtain ⟨ret, kv', es', hset, hkeeps⟩ := kvSet_mixed h hkeys h0 hq hg (fun node hfind hrw => by
      obtain ⟨hsp, hres⟩ := hspare node (by rw [hfind]; rfl) hrw
      refine ⟨h.spare (h.found_lt h0 hfind hrw) hsp, ?_⟩
      have hg' := hres g hg
      rw [hb.roCount, hb.count] at hg'
      exact hg'.imp_right fun hlt => by omega) value
    exact ⟨kv', es', by rw [Kvset.request, hset]; rfl, hkeeps⟩
  | rm key =>
    obtain ⟨h0, hspare⟩ := hsafe
    obtain ⟨ret, kv', es', hrm, hkeeps⟩ := kvRm_mixed h hkeys h0 fun node hfind hrw =>
      h.spare (h.found_lt h0 hfind hrw) (hspare node (by rw [hfind]; rfl) hrw)
    exact ⟨kv', es', by rw [Kvset.request, hrm]; rfl, hkeeps⟩
  | gc =>
    obtain ⟨g, hg⟩ := Option.isSome_iff_exists.mp hsafe
    obtain ⟨ret, kv', es', hrun, hm, hmoved, hsize, hnum, hsome⟩ := kvGc_mixed h hg
    exact ⟨kv', es', by rw [Kvset.request, hrun]; rfl,
      ⟨hm, hkeys.moved hmoved, hmoved.lines, hsize, hnum, fun _ => hsome⟩⟩
  | reset =>
    obtain ⟨kv', es', hloop, hkeeps⟩ := resetLoop_mixed (i := 0) h hkeys
      (show 0+kv.num ≤ kv.num by omega) fun j _ hj => by
        rw [zero_add] at hj
        have hb := h.block j hj
        have hsplit := countP_live (es j)
        have hj' := hsafe j hj
        rw [hb.roCount, hb.count] at hj'
        exact hj'.imp_right fun he => by omega
    exact ⟨kv', es', by rw [Kvset.request, kvReset, hloop]; rfl, hkeeps⟩

end Step

section Runs

variable {num size : ℕ} {flash : Mem}

/-- A store whose text lines are those of given entries. -/
def Serves (num size : ℕ) (es : ℕ → List Entry) (kv : Kvset) : Prop :=
  ∃ es', Mixed kv es' ∧ UniqueKeys num es' ∧
    (∀ i, i < num → linesAt 0 (es' i) = linesAt 0 (es i)) ∧ kv.size = size ∧ kv.num = num

variable {es : ℕ → List Entry} {kv : Kvset}

theorem Serves.request {r : Request} (hsafe : r.Safe kv) (h : Serves num size es kv)
    : ∃ kv', kv.request r = some kv' ∧ Serves num size es kv' := by
  obtain ⟨es1, hm, hkeys, hlines, hsize, hnum⟩ := h
  obtain ⟨kv', es2, hreq, hkeeps⟩ := request_keeps hm (by rw [hnum]; exact hkeys) hsafe
  refine ⟨kv', hreq, es2, hkeeps.mixed, hnum ▸ hkeeps.keys,
    fun i hi => (hkeeps.lines i).trans (hlines i hi), hkeeps.size_eq.trans hsize,
    hkeeps.num_eq.trans hnum⟩

theorem Mixed.image (h : Mixed kv es) (hsize : kv.size = size) {i : ℕ} (hi : i < kv.num)
    : EntryImage size (window kv.flash (i*size)) (es i) := by
  have hb := (h.block i hi).toEntryImage
  rw [Kvset.mem, hsize] at hb
  exact hb

/-- Text lines that were kept are found by a restart. -/
theorem Serves.readOnlyKept (geo : Geometry num size) (hid : num ≤ 65535)
    (himg : ∀ j, j < num → EntryImage size (window flash (j*size)) (es j))
    (h : Serves num size es kv) : ReadOnlyKept num size flash kv.flash := by
  obtain ⟨es1, hm, hkeys, hlines, hsize, hnum⟩ := h
  have himg1 : ∀ j, j < num → EntryImage size (window kv.flash (j*size)) (es1 j) := fun j hj =>
    hm.image hsize (by rw [hnum]; exact hj)
  obtain ⟨kv', es2, hinit, hm2, -, hlines2, hsize2, hnum2⟩ := kvInit_mixed geo hid himg1 hkeys
  refine ⟨kv', hinit, fun i hi => ⟨_, roNodes_eq (himg i hi) geo.size_lt, ?_,
    agree_lines (himg i hi) (himg1 i hi) (hlines i hi) geo.size_lt⟩⟩
  rw [roNodes_eq (hm2.image hsize2 (by rw [hnum2]; exact hi)) geo.size_lt, hlines2 i hi,
    hlines i hi]

/-- Read-only entries survive every run of safe calls. -/
theorem readOnly_survives (geo : Geometry num size) (hid : num ≤ 65535)
    (htidy : Tidy num size flash) :
    ∃ kv, kvInit flash num size = some kv ∧ ∀ requests : List Request,
      Along Kvset.request (fun kv r => r.Safe kv) kv requests →
      ∃ kv', run Kvset.request kv requests = some kv' ∧ ReadOnlyKept num size flash kv'.flash := by
  obtain ⟨es, himg, hkeys⟩ := htidy
  obtain ⟨kv, es1, hinit, hm, hkeys1, hlines, hsize, hnum⟩ := kvInit_mixed geo hid himg hkeys
  refine ⟨kv, hinit, fun requests hsafe => ?_⟩
  obtain ⟨kv', hrun, hserves⟩ := run_returns (P := Serves num size es)
    (fun kv r hs hp => Serves.request hs hp) hsafe ⟨es1, hm, hkeys1, hlines, hsize, hnum⟩
  exact ⟨kv', hrun, hserves.readOnlyKept geo hid himg⟩

end Runs

section Samples

/-- Flash with some bytes at its start, erased behind them. -/
def startingWith (bytes : List UInt8) : Mem := fun i => bytes.getD i 0xFF

theorem entriesAt_iff_holds (m : Mem) (off : ℕ) (list : List Entry) :
    EntriesAt m off list ↔ Holds m off (list.flatMap Entry.bytes) := by
  induction list generalizing off with
  | nil => rfl
  | cons e list ih => rw [EntriesAt, flatMap_cons, holds_append, ih]

/-- Entries in the first block only. -/
theorem tidy_startingWith {num size : ℕ} {bytes : List UInt8} (list : List Entry)
    (hbytes : list.flatMap Entry.bytes = bytes) (hroom : bytes.length < size)
    (hkeys : ∀ key, list.countP (Entry.hasKey key) ≤ 1) : Tidy num size (startingWith bytes) := by
  have hspan : span list = bytes.length := by
    rw [←hbytes, length_flatMap, span]
  refine ⟨fun j => if j = 0 then list else [], fun j _ => ?_, fun key => ?_⟩
  · dsimp only
    by_cases hj : j = 0
    · subst hj
      rw [if_pos rfl, zero_mul]
      refine ⟨?_, by rw [hspan]; exact hroom, fun i hi _ => ?_⟩
      · rw [entriesAt_iff_holds, hbytes]
        exact holds_of_getD 0xFF fun i _ => by rw [window, startingWith, zero_add, zero_add]
      · exact getD_eq_default _ _ (by omega)
    · rw [if_neg hj]
      refine ⟨trivial, by rw [span_nil]; omega, fun i _ _ => ?_⟩
      have hmul := Nat.le_mul_of_pos_left size (pos_of_ne_zero hj)
      exact getD_eq_default _ _ (by omega)
  · have hzero : ∀ i, i ≠ 0 → ((if i = 0 then list else []).countP (Entry.hasKey key)) = 0 :=
      fun i hi => by rw [if_neg hi, countP_nil]
    refine (Finset.sum_le_sum_of_ne_zero (s := Finset.range num) (t := {0}) fun i _ hne => ?_).trans
      (by rw [Finset.sum_singleton]; exact hkeys key)
    by_contra hi
    exact hne (hzero i fun he => hi (Finset.mem_singleton.mpr he))

theorem storable_k : Storable [0x6B] [7] :=
  ⟨by decide, by decide, by decide, by decide, by decide, by decide⟩

theorem storable_j : Storable [0x6A] [8] :=
  ⟨by decide, by decide, by decide, by decide, by decide, by decide⟩

theorem sampleLine_plain : ∀ b ∈ [(0x31 : UInt8)], b ≠ 0x3D ∧ (isprint b = true ∨ b = 0x0D) :=
  List.forall_mem_singleton.mpr ⟨by decide, .inl rfl⟩

theorem sampleLine_nul : (0 : UInt8) ∉ [(0x61 : UInt8)] := by decide

/-- The text line `a=1`. -/
def sampleLine : Line := ⟨0, [0x61], [0x31], sampleLine_nul, rfl, sampleLine_plain⟩

/-- The line `a=1` and behind it a record with key `k`. -/
def lonelyBytes : List UInt8 :=
  [0x61, 0x3D, 0x31, 0x0A, 0x6B, 0, 1, 4, 1, 0x3D, 7, 4, 0xFF, 0xFF, 0xFF, 0xFF]

/-- The line `a=1` and behind it records with keys `k` and `j`. -/
def pairedBytes : List UInt8 :=
  lonelyBytes ++ [0x6A, 0, 1, 4, 1, 0x3D, 8, 4, 0xFF, 0xFF, 0xFF, 0xFF]

/-- With a second record in the block of the line the first one can be
replaced, and other keys come and go. -/
theorem readOnly_survives_pair :
    ∃ kv, kvInit (startingWith pairedBytes) 3 512 = some kv ∧
      ∃ kv', run Kvset.request kv [.set [0x6B] [9], .set [0x62] [5], .rm [0x62], .gc] = some kv' ∧
        ReadOnlyKept 3 512 (startingWith pairedBytes) kv'.flash := by
  have htidy : Tidy 3 512 (startingWith pairedBytes) := by
    refine tidy_startingWith [.line sampleLine, .slot (.fresh 0 storable_k 1),
      .slot (.fresh 0 storable_j 1)] rfl (by decide) fun key => ?_
    simp only [countP_cons, countP_nil, Entry.hasKey_line, hasKey_fresh, beq_iff_eq,
      Bool.false_eq_true, if_false, zero_add, add_zero]
    by_cases hk : [(0x6B : UInt8)] = key
    · subst hk
      decide
    · split <;> decide
  obtain ⟨kv, hinit, hall⟩ := readOnly_survives
    (show Geometry 3 512 from ⟨by decide, by decide, by decide, by decide⟩) (by decide) htidy
  have hsafe : ((kvInit (startingWith pairedBytes) 3 512).map fun kv =>
      decide (Along Kvset.request (fun kv r => r.Safe kv) kv
        [.set [0x6B] [9], .set [0x62] [5], .rm [0x62], .gc])) = some true := by decide +kernel
  rw [hinit, map_some] at hsafe
  exact ⟨kv, hinit, hall _ (of_decide_eq_true (Option.some.inj hsafe))⟩

/-- Deleting the only record of the block erases the line with it. -/
theorem readOnly_erased :
    ∃ kv kv', kvInit (startingWith lonelyBytes) 2 512 = some kv ∧
      run Kvset.request kv [.rm [0x6B]] = some kv' ∧
      ¬ReadOnlyKept 2 512 (startingWith lonelyBytes) kv'.flash := by
  obtain ⟨kv, hinit, kv', hrun, hbyte⟩ : ∃ kv, kvInit (startingWith lonelyBytes) 2 512 = some kv ∧
      ∃ kv', run Kvset.request kv [.rm [0x6B]] = some kv' ∧ kv'.flash 0 = 0xFF := by
    decide +kernel
  have hnodes : (roNodes 512 (startingWith lonelyBytes) 0).map (fun nodes =>
      nodes.map fun node => (node.headOffset, node.nextOffset)) = some [(0, 4)] := by
    decide +kernel
  refine ⟨kv, kv', hinit, hrun, fun ⟨_, _, hkept⟩ => ?_⟩
  obtain ⟨nodes, hro, -, hagree⟩ := hkept 0 (by decide)
  rw [hro, map_some] at hnodes
  obtain ⟨node, rest, rfl, hnode, -⟩ := List.map_eq_cons_iff.mp (Option.some.inj hnodes)
  obtain ⟨hhead, hnext⟩ := Prod.mk.inj hnode
  have hsame := hagree node mem_cons_self 0 (by rw [hhead]) (by rw [hnext]; decide)
  rw [hbyte] at hsame
  exact absurd hsame (by decide)

end Samples

end PineVoice.Kv
