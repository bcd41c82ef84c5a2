import PineVoice.KvAtomic
import PineVoice.KvRoom

/-!
# Writing after an interrupted compaction

A cut of `kv_gc` that tears no record leaves logs from the way of the compaction, up to a record
that stands twice and whose original the restart deletes. No room is lost then. A torn record is
counted as used space for good.
-/

namespace PineVoice.Kv

open Function NorFlash

section Restart

variable {flash : Mem} {num size g m p : ℕ} {base last logs l l' : ℕ → List Rec} {M : Contents}

theorem StoreReady.congr {kv : Kvset} (h : StoreReady kv logs)
    (he : ∀ i, i < kv.num → l i = logs i) : StoreReady kv l := by
  refine ⟨⟨h.size_ge, h.size_lt, h.size_mod, h.num_ge, fun i hi => ?_⟩, fun i hi => ?_,
    fun i hi => ?_, h.bid_lt⟩
  · rw [he i hi]
    exact h.rep i hi
  · rw [he i hi]
    exact h.clean i hi
  · rw [he i hi]
    exact h.used i hi

theorem ElectedGc.congr {gc : Option ℕ} (h : ElectedGc size num logs gc)
    (he : ∀ i, i < num → l i = logs i) : ElectedGc size num l gc := by
  rcases h with ⟨hgc, hfull⟩|⟨r, hr, hgc, hroom, hmin⟩
  · refine .inl ⟨hgc, fun j hj => ?_⟩
    rw [he j hj]
    exact hfull j hj
  · refine .inr ⟨r, hr, hgc, by rw [he r hr]; exact hroom, fun j hj => ?_⟩
    rw [he r hr, he j hj]
    exact hmin j hj

/-- The start on a clean image with one record a key. -/
theorem kvInit_single (geo : Geometry num size) (himg : FlashImage size num flash logs)
    (hblank : FlashBlank size num flash logs)
    (hused : ∀ i, i < num → liveCount (logs i) = 0 → logs i = []) (hM : Resolved num M logs) :
    ∃ kv, kvInit flash num size = some kv ∧ kv.size = size ∧ kv.num = num ∧
      StoreReady kv logs ∧ ElectedGc size num logs kv.gcBid := by
  obtain ⟨kv, hkv, hsize, hnum, -, -, hall⟩ := kvInit_resolved geo (fun i => i < num) himg
    (fun i hi => .inl (hblank i hi)) hM
  obtain ⟨hready, hel⟩ := hall fun i hi => hi
  refine ⟨kv, hkv, hsize, hnum, hready.congr fun i hi => ?_, hel.congr fun i hi => ?_⟩
  · exact (settled_of_used hused (by omega)).symm
  · exact (settled_of_used hused hi).symm

variable {key value : List UInt8} {version : UInt8} {r : Rec}

/-- The start on a clean image with two records of one key. -/
theorem kvInit_twin (geo : Geometry num size) (hid : num ≤ 65535)
    (himg : FlashImage size num flash logs) (hblank : FlashBlank size num flash logs)
    (hused : ∀ i, i < num → liveCount (logs i) = 0 → logs i = []) {old : List UInt8}
    (htwo : copies num logs key = {(old, version), (value, bump version)})
    (hone : ∀ k, k ≠ key → (copies num logs k).card ≤ 1) :
    ∃ kv x pre post, kvInit flash num size = some kv ∧ kv.size = size ∧ kv.num = num ∧
      Outdated num logs key old version x pre post ∧
      StoreReady kv (update logs x.block (removed pre x.record post)) ∧
      ElectedGc size num logs kv.gcBid := by
  obtain ⟨kv, x, pre, post, hkv, hsize, hnum, hout, -, hall⟩ := kvInit_duplicate geo hid
    (fun i => i < num) himg (fun i hi => .inl (hblank i hi)) htwo hone
  obtain ⟨hready, hel⟩ := hall fun i hi => hi
  have hlog : ∀ i, i < num → logs i = settled logs i := fun i hi =>
    (settled_of_used hused hi).symm
  refine ⟨kv, x, pre, post, hkv, hsize, hnum, ?_, hready.congr fun i hi => ?_, hel.congr hlog⟩
  · exact { hout with log := (hlog _ hout.lt).trans hout.log }
  · by_cases he : i = x.block
    · subst he
      rw [update_self, update_self]
    · rw [update_of_ne he, update_of_ne he]
      exact hlog i (by omega)

theorem bump_ne_self (w : UInt8) : bump w ≠ w := by
  intro he
  by_cases hw : w = 255
  · subst hw
    exact absurd he (by decide)
  · have h := bump_toNat hw
    rw [he] at h
    omega

/-- A copy that occurs once is in one block. -/
theorem block_unique {i j : ℕ} {x : List UInt8 × UInt8} (hi : i < num) (hj : j < num)
    (hx : x ∈ logCopies key (logs i)) (hy : x ∈ logCopies key (logs j))
    (hc : (copies num logs key).count x ≤ 1) : i = j := by
  by_contra hne
  have hupd := copies_update logs hi [] key
  have hle : logCopies key (update logs i [] j) ≤
      copies num (update logs i []) key := logCopies_le_copies hj key
  rw [update_of_ne fun he => hne he.symm] at hle
  have h1 := Multiset.count_le_of_le x hle
  have h2 := congrArg (Multiset.count x) hupd
  rw [Multiset.count_add, Multiset.count_add, logCopies_nil, Multiset.count_zero] at h2
  have h3 := Multiset.count_pos.mpr hx
  have h4 := Multiset.count_pos.mpr hy
  omega

/-- The copies while a record is beside its original. -/
theorem Resolved.twin_copies (hM : Resolved num M logs) (hg : g < num) (hm : m < num)
    (hmem : r ∈ logs m) (hlive : r.live = true) :
    copies num (update logs g (logs g ++ [r.moved])) r.key =
        {(r.value, r.version), (r.value, bump r.version)} ∧
      ∀ k, k ≠ r.key → copies num (update logs g (logs g ++ [r.moved])) k = copies num logs k := by
  refine ⟨?_, fun k hk => ?_⟩
  · rw [copies_append hg r.moved_live, (hM.live hm hmem hlive).1, ←Rec.moved_key, Rec.copy_self]
    rfl
  · rw [copies_append hg r.moved_live, Rec.copy_of_ne (by rw [Rec.moved_key]; exact hk), add_zero]

theorem Parted.congr (h : Parted base g m p logs) (hs : SameSizes l logs) :
    Parted base g m p l := by
  refine ⟨fun i hg hm => ?_, ?_, ?_, ?_, ?_, ?_⟩
  · rw [(hs i).1, (hs i).2]
    exact h.other i hg hm
  · rw [(hs g).1, h.total_reserve]
  · rw [(hs g).2, h.live_reserve]
  · rw [(hs m).1, h.total_source]
  · rw [(hs m).2, h.live_source]
  · rw [(hs m).2]
    exact h.live_pos

/-- The older of two copies is the original. -/
theorem Outdated.block_eq {x : Place} {pre post : List Rec}
    (h : Outdated num logs key value version x pre post) (hm : m < num)
    (htwo : copies num logs key = {(value, version), (value, bump version)})
    (hmem : (value, version) ∈ logCopies key (logs m)) : x.block = m := by
  have hx : (value, version) ∈ logCopies key (logs x.block) := by
    rw [←h.key, ←h.value, ←h.version]
    refine mem_logCopies ?_ h.live
    rw [h.log]
    exact List.mem_append_right _ List.mem_cons_self
  refine block_unique h.lt hm hx hmem ?_
  have hne : (value, version) ≠ (value, bump version) := fun he =>
    bump_ne_self version (Prod.mk.inj he).2.symm
  rw [htwo, Multiset.insert_eq_cons, Multiset.count_cons_self, Multiset.count_singleton, if_neg hne]

theorem copied_twin (h : SameSizes l (update logs g (logs g ++ [r.moved]))) (hne : m ≠ g)
    (log : List Rec) : Copied logs g m r.nodeSize (update l m log) := by
  have hc := copied_update logs hne r log
  have hsame : ∀ i, i ≠ m → total (update l m log i) = total (update
      (update logs g (logs g ++ [r.moved])) m log i) ∧ liveSize (update l m log i) =
      liveSize (update (update logs g (logs g ++ [r.moved])) m log i) := by
    intro i hi
    rw [update_of_ne hi, update_of_ne hi]
    exact h i
  refine ⟨fun i hg hm => ?_, ?_, ?_⟩
  · rw [(hsame i hm).1, (hsame i hm).2]
    exact hc.other i hg hm
  · rw [(hsame g hne.symm).1, hc.total_reserve]
  · rw [(hsame g hne.symm).2, hc.live_reserve]

/-- A start on a clean image of logs on the way of a compaction: the contents
are there, and what would be ample at its end is found. -/
theorem GcWay.recovers (hway : GcWay size num g M last base l) (hbase : Underway num base)
    (hg : g < num) (geo : Geometry num size) (hid : num ≤ 65535)
    (himg : FlashImage size num flash l') (hlike : ∀ i, Alike (l' i) (l i))
    (hblank : FlashBlank size num flash l')
    (hused : ∀ i, i < num → liveCount (l' i) = 0 → l' i = []) :
    ∃ kv c, kvInit flash num size = some kv ∧ kv.size = size ∧ kv.num = num ∧
      StoreReady kv c ∧ Resolved num M c ∧ ∀ n r', EndsAmple size num g last r' n →
        ∃ r, kv.gcBid = some r ∧ r < num ∧ ¬Rejects size num r c n := by
  have hsizes : SameSizes l' l := fun i => ⟨(hlike i).total_eq, (hlike i).liveSize_eq⟩
  have hcopies := copies_congr hlike num
  have hres' : Resolved num M l → Resolved num M l' := fun hres k => by
    rw [hcopies]
    exact hres k
  induction hway with
  | here hres hrun =>
    obtain ⟨kv, hkv, hs, hn, hready, hel⟩ := kvInit_single geo himg hblank hused (hres' hres)
    exact ⟨kv, l', hkv, hs, hn, hready, hres' hres, fun n r' hend =>
      hsizes.not_rejects hrun hend hbase hel⟩
  | later hpick _ ih => exact ih (hbase.next hpick) hlike hsizes hcopies hres'
  | @inside base l newGc m hpick hrun hmove =>
    cases hmove with
    | part hres hpart =>
      obtain ⟨kv, hkv, hs, hn, hready, hel⟩ := kvInit_single geo himg hblank hused (hres' hres)
      exact ⟨kv, l', hkv, hs, hn, hready, hres' hres, fun n r' hend =>
        (hpart.congr hsizes).not_rejects hpick hrun hend hbase hel⟩
    | done hres hdone =>
      obtain ⟨kv, hkv, hs, hn, hready, hel⟩ := kvInit_single geo himg hblank hused (hres' hres)
      have hsame : SameSizes l' (gcMove base g m) := fun i =>
        ⟨(hsizes i).1.trans (hdone i).1, (hsizes i).2.trans (hdone i).2⟩
      exact ⟨kv, l', hkv, hs, hn, hready, hres' hres, fun n r' hend =>
        hsame.not_rejects hrun hend (hbase.next hpick) hel⟩
    | @twin logs p r hres hpart hmem hlive =>
      obtain ⟨htwo, hone⟩ := hres.twin_copies hg hpick.lt hmem hlive
      rw [←hcopies] at htwo
      have hsole : ∀ k, k ≠ r.key → Sole (copies num l' k) (M k) := fun k hk => by
        rw [hcopies, hone k hk]
        exact hres k
      obtain ⟨kv, x, pre, post, hkv, hs, hn, hout, hready, hel⟩ :=
        kvInit_twin geo hid himg hblank hused htwo fun k hk => (hsole k hk).card_le
      have hMr := (hres.live hpick.lt hmem hlive).2
      obtain rfl := hout.block_eq hpick.lt htwo (by
        rw [(hlike m).copies_eq, update_of_ne hpick.ne]
        exact mem_logCopies hmem hlive)
      have hsource : total (l' x.block) = total (logs x.block) ∧
          liveSize (l' x.block) = liveSize (logs x.block) := by
        have hsame := hsizes x.block
        rwa [update_of_ne hpick.ne] at hsame
      have hnode : x.record.nodeSize = r.nodeSize := by
        rw [Rec.nodeSize, hout.key, hout.value, Rec.nodeSize]
      refine ⟨kv, _, hkv, hs, hn, hready, hout.resolved htwo hMr hsole, fun n r' hend =>
        hpart.twin_not_rejects hpick hrun hend hbase (copied_twin hsizes hpick.ne _) ?_
          (fun i hi => by rw [update_of_ne hi]) hsource.1 hel⟩
      rw [update_self, ←hsource.1, ←hsource.2, ←hnode, hout.log]
      by_cases hmore : 1 < liveCount (pre ++ x.record :: post)
      · exact .inl (removed_more hout.live hmore)
      · exact .inr (removed_last hout.live hmore)

end Restart

section Writable

variable {flash : Mem} {num size : ℕ}

variable {g : ℕ} {kv : Kvset} {logs : ℕ → List Rec} {M : Contents}

theorem GcRun.underway {base last : ℕ → List Rec} {newGc newGc' : Option ℕ}
    (h : GcRun size num g base newGc last newGc') (hb : Underway num base) : Underway num last := by
  induction h with
  | stop _ => exact hb
  | move hpick _ ih => exact ih (hb.next hpick)

theorem Alike.nil_of_used {log log' : List Rec} (h : Alike log log')
    (hused : liveCount log' = 0 → log' = []) (hz : liveCount log = 0) : log = [] := by
  have h1 := @liveSize_pos log
  have h2 := @liveSize_pos log'
  have h3 := h.liveSize_eq
  refine eq_nil_of_total ?_
  rw [h.total_eq, hused (by omega), total_nil]

theorem Serving.underway (h : Serving kv logs M g) : Underway kv.num logs := by
  refine ⟨fun i hi hz => ?_, g, h.gc_lt, by rw [h.reserve, total_nil]⟩
  have hpos := @liveSize_pos (logs i)
  rw [h.ready.used i hi (by omega), total_nil]

/-- The flash traffic of a `kv_gc`. -/
theorem Serving.gc_traffic (h : Serving kv logs M g) :
    ∃ ret kv' ops last, kvGc kv = some (ret, kv') ∧
      (∃ newGc, GcRun kv.size kv.num g logs none last newGc) ∧
      kv'.trace = kv.trace ++ ops ∧ StoreReady kv' last ∧ Resolved kv.num M last ∧
      kv'.size = kv.size ∧ kv'.num = kv.num ∧
      LogRun kv.size kv.num (GcWay kv.size kv.num g M last logs) logs ops last := by
  obtain ⟨newGc, kv', last, hrun, hadv, hres, hb, -, hkv⟩ :=
    kvGc_run h.ready h.resolved h.gc_lt h.gcBid
  obtain ⟨ops, ht, -, hlog⟩ := hadv.run
  have hbid : kv'.bid < kv'.num := hadv.ready.bid_lt
  cases newGc with
  | none => exact ⟨_, _, ops, last, hkv, ⟨_, hrun⟩, ht, hadv.ready, hres, hadv.size_eq,
      hadv.num_eq, hlog⟩
  | some x => exact ⟨_, _, ops, last, hkv, ⟨_, hrun⟩, ht, hadv.ready.withBids hbid (some x), hres,
      hadv.size_eq, hadv.num_eq, hlog⟩

/-- A `kv_set` that succeeds with an empty reserve, and is not rejected in
another store of the same contents, succeeds there as well. -/
theorem kvSet_transfer {kv' : Kvset} {logs' : ℕ → List Rec} {g' : ℕ} (h : Holding kv logs M g)
    (hg : total (logs g) = 0) (h' : StoreReady kv' logs') (hM' : Resolved kv'.num M logs')
    (hroom : ∀ n, EndsAmple kv.size kv.num g' logs g n →
      ∃ r, kv'.gcBid = some r ∧ r < kv'.num ∧ ¬Rejects kv'.size kv'.num r logs' n)
    (hg' : g' < kv.num) {key value : List UInt8} (h0 : 0 ∉ key) (hq : textQuiet false key = true)
    (hset : ∃ ret s, kvSet kv key value = some (ret, s) ∧ 0 ≤ ret) :
    ∃ ret s, kvSet kv' key value = some (ret, s) ∧ 0 ≤ ret := by
  obtain ⟨ret, s, hset, hret⟩ := hset
  have hst := kvSet_storable_of_success h h0 hq hset hret
  rcases kvSet_storable h hst with ⟨_, _, _, -, -, hacc⟩|⟨_, _, _, hfail, -⟩
  · rcases hacc with hM|hacc
    · exact ⟨_, _, kvSet_same h'.toStoreRep hM' hst hM, Int.natCast_nonneg _⟩
    · have hge := h.ready.size_ge
      have hmod := h.ready.size_mod
      have hle := recSize_add_le hst.size_lt
      obtain ⟨r, hgc, hr, hrej⟩ := hroom _ ⟨hmod, by rw [recSize]; omega, by omega, hg', h.gc_lt,
        hg, hacc.ample hg hmod⟩
      rcases kvSet_storable ⟨h', hM', hr, hgc⟩ hst with ⟨s', _, _, hok, -⟩|⟨_, _, _, -, -, -, hno⟩
      · exact ⟨_, s', hok, Int.natCast_nonneg _⟩
      · exact absurd hno hrej
  · have hneg := congrArg Prod.fst (Option.some.inj (hset.symm.trans hfail))
    omega

/-- After a cut of `kv_gc` that tears no record, every `kv_set` that succeeds
after the completed `kv_gc` and a restart succeeds as well. -/
theorem kvGc_cut_writable (geo : Geometry num size) (hid : num ≤ 65535)
    (hb : Blank flash 0 (num*size)) {calls : List Call} (hc : ∀ c ∈ calls, c.Quiet)
    {kv kv' : Kvset} {replies : List Reply} (hinit : kvInit flash num size = some kv)
    (hrun : runCalls kv calls = some (replies, kv')) :
    ∃ ret whole ops after, kvGc kv' = some (ret, whole) ∧ whole.trace = kv'.trace ++ ops ∧
      kvInit whole.flash num size = some after ∧
      ∀ n b, Untorn ops n b → ∃ cut, kvInit (cutImage kv'.flash ops n b) num size = some cut ∧
        ∀ key value, 0 ∉ key → textQuiet false key = true →
          (∃ r s, kvSet after key value = some (r, s) ∧ 0 ≤ r) →
          ∃ r s, kvSet cut key value = some (r, s) ∧ 0 ≤ r := by
  obtain ⟨kv0, g0, hkv0, hserve0, hs0, hn0⟩ := kvInit_blank geo hb
  obtain rfl := Option.some.inj (hinit.symm.trans hkv0)
  obtain ⟨replies', kv1, logs, g, hrun', hserve, hs, hn⟩ := hserve0.run hc
  obtain ⟨rfl, rfl⟩ := Prod.mk.inj (Option.some.inj (hrun.symm.trans hrun'))
  obtain rfl : kv'.size = size := hs.trans hs0
  obtain rfl : kv'.num = num := hn.trans hn0
  generalize recorded (fun _ => none) calls replies = M at hserve
  obtain ⟨ret, whole, ops, last, hgc, ⟨newGc, hgcrun⟩, htrace, hlast, hres, hsz, hnm, hlog⟩ :=
    hserve.gc_traffic
  have hgl := hserve.gc_lt
  obtain ⟨x, hx, hxz⟩ := (hgcrun.underway hserve.underway).spare
  obtain ⟨after, hafter, hsa, hna, hready, hel⟩ := kvInit_single geo
    (fun i hi => by rw [←hsz]; exact hlast.image (by omega))
    (fun i hi => by rw [←hsz]; exact (hlast.clean i (by omega)).blank)
    (fun i hi => hlast.used i (by omega)) hres
  obtain ⟨r, hr, hrgc, hempty⟩ := hel.empty geo.size_ge hx (eq_nil_of_total hxz)
  refine ⟨ret, whole, ops, after, hgc, htrace, hafter, fun n b hun => ?_⟩
  obtain ⟨l, l', hway, hused, himg, hlike, hblank⟩ :=
    hlog.cut hserve.ready rfl rfl n b fun ht => absurd hun ht
  obtain ⟨cut, c, hcut, hsc, hnc, hreadyc, hresc, hroom⟩ := hway.recovers hserve.underway hgl geo
    hid himg hlike (hblank hun) fun i hi => (hlike i).nil_of_used (hused i hi)
  refine ⟨cut, hcut, fun key value h0 hq hset => ?_⟩
  have hhold : Holding after last M r :=
    ⟨hready, by rw [hna]; exact hres, by omega, hrgc⟩
  refine kvSet_transfer hhold (by rw [hempty, total_nil]) hreadyc (by rw [hnc]; exact hresc)
    (fun n hend => ?_) (by omega : g < after.num) h0 hq hset
  rw [hsa, hna] at hend
  rw [hsc, hnc]
  exact hroom n r hend

/-- A compaction of two values in a two-block store. -/
theorem kvGc_cut_writable_short :
    ∃ kv replies kv', kvInit (fun _ => 0xFF) 2 512 = some kv ∧
      runCalls kv [.set [107] [1, 2], .set [120] [3], .set [107] [4]] = some (replies, kv') ∧
      ∃ ret whole ops after, kvGc kv' = some (ret, whole) ∧ whole.trace = kv'.trace ++ ops ∧
        kvInit whole.flash 2 512 = some after ∧
        ∀ n b, Untorn ops n b → ∃ cut, kvInit (cutImage kv'.flash ops n b) 2 512 = some cut ∧
          ∀ key value, 0 ∉ key → textQuiet false key = true →
            (∃ r s, kvSet after key value = some (r, s) ∧ 0 ≤ r) →
            ∃ r s, kvSet cut key value = some (r, s) ∧ 0 ≤ r := by
  have geo : Geometry 2 512 := ⟨by decide, by decide, by decide, by decide⟩
  have hblank : Blank (fun _ => 0xFF) 0 (2*512) := fun _ _ _ => rfl
  have hquiet : ∀ c ∈ [Call.set [107] [1, 2], Call.set [120] [3], Call.set [107] [4]],
      c.Quiet := by
    intro c hc
    have hplain : ∀ c ∈ [Call.set [107] [1, 2], Call.set [120] [3], Call.set [107] [4]],
        c.Plain := by decide
    exact (hplain c hc).quiet
  obtain ⟨kv, g, hinit, hserve, -, -⟩ := kvInit_blank geo hblank
  obtain ⟨replies, kv', -, -, hrun, -, -, -⟩ := hserve.run hquiet
  exact ⟨kv, replies, kv', hinit, hrun,
    kvGc_cut_writable geo (by decide) hblank hquiet hinit hrun⟩

/-- A cut inside the second copy: its 250 bytes count as used, so the rest of
the source does not fit any more, and a value of 217 bytes that the completed
compaction leaves room for is refused. -/
theorem kvGc_cut_unwritable :
    ∃ kv replies kv' ret whole ops after cut, kvInit (fun _ => 0xFF) 2 512 = some kv ∧
      runCalls kv [.set [49] [1], .set [50] (List.replicate 250 7), .set [51] [1], .rm [51]] =
        some (replies, kv') ∧
      kvGc kv' = some (ret, whole) ∧ whole.trace = kv'.trace ++ ops ∧
      kvInit whole.flash 2 512 = some after ∧
      kvInit (cutImage kv'.flash ops 2 250) 2 512 = some cut ∧
      (∃ s, kvSet after [52] (List.replicate 217 7) = some (217, s)) ∧
      ∃ s, kvSet cut [52] (List.replicate 217 7) = some (-1, s) := by
  obtain ⟨kv, hinit, ⟨replies, kv'⟩, hcalls, ⟨ret, whole⟩, hgc, after, hafter, cut, hcut, htrace,
      ⟨good, s⟩, hgood, hret, ⟨bad, s'⟩, hbad, hret'⟩ :
      ∃ kv, kvInit (fun _ => 0xFF) 2 512 = some kv ∧
      ∃ r, runCalls kv [.set [49] [1], .set [50] (List.replicate 250 7), .set [51] [1],
        .rm [51]] = some r ∧
      ∃ w, kvGc r.2 = some w ∧ ∃ after, kvInit w.2.flash 2 512 = some after ∧
      ∃ cut, kvInit (cutImage r.2.flash (w.2.trace.drop r.2.trace.length) 2 250) 2 512 = some cut ∧
        w.2.trace = r.2.trace ++ w.2.trace.drop r.2.trace.length ∧
        ∃ s, kvSet after [52] (List.replicate 217 7) = some s ∧ s.1 = 217 ∧
        ∃ s, kvSet cut [52] (List.replicate 217 7) = some s ∧ s.1 = -1 := by
    decide +kernel
  cases hret
  cases hret'
  exact ⟨kv, replies, kv', ret, whole, _, after, cut, hinit, hcalls, hgc, htrace, hafter, hcut,
    ⟨s, hgood⟩, s', hbad⟩

end Writable

end PineVoice.Kv
