import PineVoice.KvStore

/-!
# Room after an interrupted compaction

Whether `kv_set` finds room depends on the sizes of the logs only. With an empty reserve there is
room exactly if the live records of some block leave it or those of two blocks fit into one. Sizes
from the middle of a compaction leave as much room as the sizes at its end.
-/

namespace PineVoice.Kv

/-- Enough space for `n` bytes when the reserve `r` is empty: the live records
of a block leave it, or those of two blocks fit into one. -/
def Ample (size num r : ℕ) (logs : ℕ → List Rec) (n : ℕ) : Prop :=
  (∃ i, i < num ∧ i ≠ r ∧ liveSize (logs i)+n+4 ≤ size) ∨
    ∃ a b, a < num ∧ b < num ∧ a ≠ b ∧ a ≠ r ∧ b ≠ r ∧
      liveSize (logs a)+liveSize (logs b)+4 ≤ size

section Sizes

variable {size num g m r n : ℕ} {logs logs' base : ℕ → List Rec} {newGc newGc' : Option ℕ}

theorem liveSize_le_total (log : List Rec) : liveSize log ≤ total log := by
  have h := liveSize_add_deadSize log
  omega

/-- A block that fits leaves the last word free. -/
theorem GcPick.fits_word (h : GcPick size num g logs m) (hmod : size % 4 = 0) :
    liveSize (logs m)+total (logs g)+4 ≤ size := by
  have h1 := h.fits
  have h2 := liveSize_mod (logs m)
  have h3 := total_mod (logs g)
  omega

/-- The block of the second round is a third one, untouched by the first. -/
theorem GcPick.second {k : ℕ} (h : GcPick size num g (gcMove logs g m) k) :
    k ≠ m ∧ gcMove logs g m k = logs k := by
  have hne : k ≠ m := by
    rintro rfl
    have hpos := h.pos
    rw [gcMove_source] at hpos
    exact absurd hpos (lt_irrefl 0)
  exact ⟨hne, gcMove_other logs hne h.ne⟩

/-- After two rounds a block is empty that is not the reserve. -/
theorem GcRun.second {k : ℕ} (h1 : GcPick size num g logs m)
    (h2 : GcPick size num g (gcMove logs g m) k)
    (hrun : GcRun size num g (gcMove (gcMove logs g m) g k) (some k) logs' newGc)
    (hn : n+4 ≤ size) : ∃ g', newGc = some g' ∧ HasRoom size num g' logs' n := by
  have hne := h2.second.1
  obtain ⟨hempty, hkeep⟩ := hrun.keeps_empty h1.ne
    (by rw [gcMove_other _ hne.symm h1.ne, gcMove_source])
  obtain ⟨g', hg'⟩ := Option.isSome_iff_exists.mp (hrun.isSome rfl)
  refine ⟨g', hg', m, h1.lt, ?_, ?_⟩
  · rintro rfl
    exact hne (Option.some.inj (hkeep hg'))
  · rw [hempty, total_nil]
    omega

/-- Room with an empty reserve, now or after a compaction, is ample space. -/
theorem Accepts.ample (h : Accepts size num r logs n) (hr : total (logs r) = 0)
    (hmod : size % 4 = 0) : Ample size num r logs n := by
  rcases h with ⟨i, hi, hne, hroom⟩|⟨logs', g', hrun, i, hi, hne, hroom⟩
  · have hle := liveSize_le_total (logs i)
    exact .inl ⟨i, hi, hne, by omega⟩
  · cases hrun with
    | @move _ _ _ _ m hpick hrun =>
      cases hrun with
      | stop _ =>
        by_cases hir : i = r
        · subst hir
          rw [total_gcMove logs hpick.ne] at hroom
          exact .inl ⟨_, hpick.lt, hpick.ne, by omega⟩
        · rw [gcMove_other logs hne hir] at hroom
          have hle := liveSize_le_total (logs i)
          exact .inl ⟨i, hi, hir, by omega⟩
      | @move _ _ _ _ k hpick2 _ =>
        obtain ⟨hkm, hk⟩ := hpick2.second
        have hfit := hpick2.fits_word hmod
        rw [total_gcMove logs hpick.ne, hk] at hfit
        exact .inr ⟨m, k, hpick.lt, hpick2.lt, hkm.symm, hpick.ne, hpick2.ne, by omega⟩

/-- Next to the block with the fewest live bytes, ample space is in that block, or
another one fits into it. -/
theorem Ample.least (h : Ample size num r logs n)
    (hleast : ∀ i, i < num → i ≠ r → liveSize (logs m) ≤ liveSize (logs i)) :
    liveSize (logs m)+n+4 ≤ size ∨
      ∃ c, c < num ∧ c ≠ r ∧ c ≠ m ∧ liveSize (logs c)+liveSize (logs m)+4 ≤ size := by
  rcases h with ⟨i, hi, hne, hroom⟩|⟨a, b, ha, hb, hab, har, hbr, hroom⟩
  · have hle := hleast i hi hne
    exact .inl (by omega)
  · by_cases ham : a = m
    · subst ham
      exact .inr ⟨b, hb, hbr, hab.symm, by omega⟩
    · have hle := hleast b hb hbr
      exact .inr ⟨a, ha, har, ham, by omega⟩

/-- What is ample behind a round of a compaction is ample before it. -/
theorem Ample.before (h : Ample size num m (gcMove base g m) n) (hm : m < num) (hne : m ≠ g) :
    Ample size num g base n := by
  have hlive := liveSize_gcMove base hne
  rcases h with ⟨i, hi, him, hroom⟩|⟨a, b, hal, hbl, hab, ham, hbm, hroom⟩
  · by_cases hig : i = g
    · subst hig
      exact .inl ⟨m, hm, hne, by omega⟩
    · rw [gcMove_other base him hig] at hroom
      exact .inl ⟨i, hi, hig, hroom⟩
  · by_cases hag : a = g
    · subst hag
      rw [gcMove_other base hbm hab.symm] at hroom
      exact .inr ⟨m, b, hm, hbl, hbm.symm, hne, hab.symm, by omega⟩
    · by_cases hbg : b = g
      · subst hbg
        rw [gcMove_other base ham hag] at hroom
        exact .inr ⟨a, m, hal, hm, ham, hag, hne, by omega⟩
      · rw [gcMove_other base ham hag, gcMove_other base hbm hbg] at hroom
        exact .inr ⟨a, b, hal, hbl, hab, hag, hbg, hroom⟩

/-- Ample space with an empty reserve is found. -/
theorem Ample.not_rejects (h : Ample size num r logs n) (hlt : r < num) (hr : total (logs r) = 0)
    (hused : ∀ i, i < num → liveSize (logs i) = 0 → total (logs i) = 0) (hn : n+4 ≤ size) :
    ¬Rejects size num r logs n := by
  rintro ⟨hfull, logs', newGc, hrun, hnone⟩
  have hpos : ∀ i, i < num → i ≠ r → 0 < liveSize (logs i) := by
    intro i hi hne
    refine pos_of_ne_zero fun hz => hfull ⟨i, hi, hne, ?_⟩
    rw [hused i hi hz]
    omega
  cases hrun with
  | stop hstop =>
    rcases h with ⟨i, hi, hne, hroom⟩|⟨a, b, ha, -, -, hne, -, hroom⟩
    · have hbig := hstop i hi hne (hpos i hi hne)
      omega
    · have hbig := hstop a ha hne (hpos a ha hne)
      omega
  | @move _ _ _ _ m hpick hrun =>
    cases hrun with
    | stop hstop =>
      refine hnone m rfl ?_
      rcases h.least fun i hi hne => hpick.least i hi hne (hpos i hi hne) with
        hroom|⟨c, hc, hcr, hcm, hfit⟩
      · refine ⟨r, hlt, hpick.ne.symm, ?_⟩
        rw [total_gcMove logs hpick.ne]
        omega
      · have hbig := hstop c hc hcr (by rw [gcMove_other logs hcm hcr]; exact hpos c hc hcr)
        rw [gcMove_other logs hcm hcr, total_gcMove logs hpick.ne] at hbig
        omega
    | move hpick2 hrun2 =>
      obtain ⟨g', hg', hroom⟩ := GcRun.second hpick hpick2 hrun2 hn
      exact hnone g' hg' hroom

/-- A compaction that ends with an empty reserve and ample space for `n`
bytes. -/
structure EndsAmple (size num g : ℕ) (last : ℕ → List Rec) (r n : ℕ) : Prop where
  /-- Blocks consist of words. -/
  size_mod : size % 4 = 0
  /-- There is something to store. -/
  pos : 0 < n
  /-- It fits into an empty block. -/
  fits : n+4 ≤ size
  /-- The block filled by the compaction. -/
  gc_lt : g < num
  /-- The reserve at the end. -/
  reserve_lt : r < num
  /-- It is empty. -/
  empty : total (last r) = 0
  /-- There is space. -/
  ample : Ample size num r last n

/-- What is ample behind the rounds of a compaction is ample before them. -/
theorem GcRun.ample {r' : ℕ} (h : GcRun size num g base newGc logs newGc')
    (hend : EndsAmple size num g logs r' n) (hr : total (base r) = 0) :
    Ample size num r base n := by
  obtain ⟨hmod, -, hn, hg, hlt', hr', ha⟩ := hend
  have hspare : ∀ i, i < num → total (base i) = 0 → i ≠ r → Ample size num r base n := by
    intro i hi hz hne
    have hle := liveSize_le_total (base i)
    exact .inl ⟨i, hi, hne, by omega⟩
  cases h with
  | stop _ =>
    by_cases he : r' = r
    · rw [←he]
      exact ha
    · exact hspare r' hlt' hr' he
  | @move _ _ _ _ m hpick hrun =>
    have hfit := hpick.fits_word hmod
    have hpos := hpick.pos
    have hmr : m ≠ r := by
      rintro rfl
      have hle := liveSize_le_total (base m)
      omega
    by_cases hgr : g = r
    · subst hgr
      cases hrun with
      | stop _ =>
        by_cases hm : r' = m
        · subst hm
          exact ha.before hlt' hpick.ne
        · have hrg : r' ≠ g := by
            rintro rfl
            rw [total_gcMove base hpick.ne] at hr'
            omega
          rw [gcMove_other base hm hrg] at hr'
          exact hspare r' hlt' hr' hrg
      | @move _ _ _ _ k hpick2 _ =>
        obtain ⟨hkm, hk⟩ := hpick2.second
        have hfit2 := hpick2.fits_word hmod
        rw [total_gcMove base hpick.ne, hk] at hfit2
        exact .inr ⟨m, k, hpick.lt, hpick2.lt, hkm.symm, hpick.ne, hpick2.ne, by omega⟩
    · have hle := liveSize_le_total (base g)
      exact .inr ⟨g, m, hg, hpick.lt, hpick.ne.symm, hgr, hmr, by omega⟩

end Sizes

/-- Sizes between two rounds: blocks without live records are empty, and there
is one. -/
structure Underway (num : ℕ) (base : ℕ → List Rec) : Prop where
  /-- Blocks without live records are erased. -/
  used : ∀ i, i < num → liveSize (base i) = 0 → total (base i) = 0
  /-- There is an empty block. -/
  spare : ∃ x, x < num ∧ total (base x) = 0

theorem Underway.next {size num g m : ℕ} {base : ℕ → List Rec} (h : Underway num base)
    (hpick : GcPick size num g base m) : Underway num (gcMove base g m) := by
  refine ⟨fun i hi h0 => ?_, m, hpick.lt, by rw [gcMove_source, total_nil]⟩
  by_cases him : i = m
  · rw [him, gcMove_source, total_nil]
  · by_cases hig : i = g
    · subst hig
      rw [liveSize_gcMove base hpick.ne] at h0
      have hpos := hpick.pos
      omega
    · rw [gcMove_other base him hig] at h0 ⊢
      exact h.used i hi h0

section Interrupted

variable {size num g m p r r' n : ℕ} {base last logs c : ℕ → List Rec}
  {newGc newGc' gc : Option ℕ}

/-- With no empty block left, the reserve is the one the records were moved
to, and every other block has as many live bytes as the one moved. -/
theorem Parted.reserve (h : Parted base g m p c) (hpick : GcPick size num g base m)
    (hbase : Underway num base) (hr : r < num) (hz : total (c r) ≠ 0)
    (hmin : ∀ j, j < num → total (c r) ≤ total (c j)) (hg : g < num) :
    total (base g) = 0 ∧ r = g ∧ ∀ i, i < num → i ≠ g → liveSize (base m) ≤ liveSize (base i) := by
  have hlive := h.live_source
  have hleft := h.live_pos
  have hleast : ∀ i, i < num → i ≠ g → liveSize (base m) ≤ liveSize (base i) := by
    intro i hi hig
    by_cases him : i = m
    · rw [him]
    refine hpick.least i hi hig (pos_of_ne_zero fun h0 => ?_)
    have htot := (h.other i hig him).1
    have hle := hmin i hi
    rw [hbase.used i hi h0] at htot
    omega
  have hgz : total (base g) = 0 := by
    obtain ⟨x, hx, hxz⟩ := hbase.spare
    by_cases hxg : x = g
    · rwa [hxg] at hxz
    · have hxm : x ≠ m := by
        rintro rfl
        have hle := liveSize_le_total (base x)
        omega
      have htot := (h.other x hxg hxm).1
      have hle := hmin x hx
      omega
  refine ⟨hgz, ?_, hleast⟩
  by_contra hrg
  have hle := hmin g hg
  have hres := h.total_reserve
  by_cases hrm : r = m
  · subst hrm
    have htot := h.total_source
    have hlt := liveSize_le_total (base r)
    omega
  · have htot := (h.other r hrg hrm).1
    have hlt := liveSize_le_total (base r)
    have hmin' := hleast r hr hrg
    omega

/-- The compaction goes on where it was cut. -/
theorem Parted.resume (h : Parted base g m p c) (hpick : GcPick size num g base m)
    (hrun : GcRun size num g (gcMove base g m) newGc last newGc')
    (hend : EndsAmple size num g last r' n) (hbase : total (base g) = 0)
    (hleast : ∀ i, i < num → i ≠ g → liveSize (base m) ≤ liveSize (base i)) (hp : 0 < p) :
    ¬Rejects size num g c n := by
  obtain ⟨-, -, hn, hg, hlt', hr', ha⟩ := hend
  rintro ⟨-, logs', newGc, hrun', hnone⟩
  have hne := hpick.ne
  have hres := h.total_reserve
  have hsrc := h.live_source
  have hfits := hpick.fits
  cases hrun' with
  | stop hstop =>
    have hbig := hstop m hpick.lt hne h.live_pos
    omega
  | @move _ _ _ _ k hpick' hrest =>
    obtain rfl : k = m := by
      by_contra hkm
      have h1 := hpick'.least m hpick.lt hne h.live_pos
      have h2 := hleast k hpick'.lt hpick'.ne
      have h3 := (h.other k hpick'.ne hkm).2
      omega
    have htot := total_gcMove c hne
    cases hrest with
    | move hpick2 hrest2 =>
      obtain ⟨g', hg', hroom⟩ := GcRun.second hpick' hpick2 hrest2 hn
      exact hnone g' hg' hroom
    | stop hstop =>
      have hstop' : ∀ i, i < num → i ≠ g → i ≠ k → size ≤ liveSize (base i)+liveSize (base k) := by
        intro i hi hig hik
        have hlive := (h.other i hig hik).2
        have hle := hleast i hi hig
        have hbig := hstop i hi hig (by rw [gcMove_other c hik hig]; omega)
        rw [gcMove_other c hik hig] at hbig
        omega
      cases hrun with
      | move hpick2 _ =>
        obtain ⟨hkm, hk⟩ := hpick2.second
        have hfit := hpick2.fits
        rw [hk, total_gcMove base hne] at hfit
        have hbig := hstop' _ hpick2.lt hpick2.ne hkm
        omega
      | stop _ =>
        refine hnone k rfl ⟨g, hg, hne.symm, ?_⟩
        suffices hroom : liveSize (base k)+n+4 ≤ size by omega
        have hrk : r' = k := by
          by_contra hrk
          have hrg : r' ≠ g := by
            rintro rfl
            rw [total_gcMove base hne] at hr'
            omega
          rw [gcMove_other base hrk hrg] at hr'
          have hle := hleast r' hlt' hrg
          have hlt := liveSize_le_total (base r')
          omega
        subst hrk
        rcases (ha.before hlt' hne).least hleast with hroom|⟨c, hc, hcg, hcr, hroom⟩
        · exact hroom
        · have hbig := hstop' c hc hcg hcr
          omega

/-- A cut between two rounds loses no room. -/
theorem SameSizes.not_rejects (h : SameSizes c base)
    (hrun : GcRun size num g base newGc last newGc') (hend : EndsAmple size num g last r' n)
    (hbase : Underway num base) (hel : ElectedGc size num c gc) :
    ∃ r, gc = some r ∧ r < num ∧ ¬Rejects size num r c n := by
  obtain ⟨x, hx, hxz⟩ := hbase.spare
  have hxc := (h x).1
  rcases hel with ⟨-, hfull⟩|⟨r, hr, hgc, -, hmin⟩
  · have hbig := hfull x hx
    have hpos := hend.pos
    have hfits := hend.fits
    omega
  · have hz : total (c r) = 0 := by
      have hle := hmin x hx
      omega
    refine ⟨r, hgc, hr, Ample.not_rejects ?_ hr hz (fun i hi h0 => ?_) hend.fits⟩
    · have hample := hrun.ample hend (by rw [←(h r).1, hz])
      simp only [Ample, (h _).2]
      exact hample
    · rw [(h i).1]
      exact hbase.used i hi (by rw [←(h i).2, h0])

variable (hpick : GcPick size num g base m)
  (hrun : GcRun size num g (gcMove base g m) (some m) last newGc')
  (hend : EndsAmple size num g last r' n) (hbase : Underway num base)
include hpick hrun hend hbase

/-- A cut inside a round loses no room. -/
theorem Parted.not_rejects (h : Parted base g m p c) (hel : ElectedGc size num c gc) :
    ∃ r, gc = some r ∧ r < num ∧ ¬Rejects size num r c n := by
  have hg := hend.gc_lt
  have hfit := hpick.fits_word hend.size_mod
  have hres := h.total_reserve
  have hlive := h.live_reserve
  have hsrc := h.live_source
  have hleft := h.live_pos
  rcases eq_zero_or_pos p with rfl|hp
  · have hall : GcRun size num g base none last newGc' := .move hpick hrun
    refine SameSizes.not_rejects (fun i => ?_) hall hend hbase hel
    by_cases hig : i = g
    · subst hig
      exact ⟨hres, hlive⟩
    · by_cases him : i = m
      · subst him
        exact ⟨h.total_source, hsrc⟩
      · exact h.other i hig him
  · have hused : ∀ i, i < num → liveSize (c i) = 0 → total (c i) = 0 := by
      intro i hi h0
      by_cases hig : i = g
      · subst hig
        omega
      · by_cases him : i = m
        · subst him
          omega
        · obtain ⟨h1, h2⟩ := h.other i hig him
          rw [h1]
          exact hbase.used i hi (by omega)
    rcases hel with ⟨-, hfull⟩|⟨r, hr, hgc, -, hmin⟩
    · have hbig := hfull g hg
      omega
    · refine ⟨r, hgc, hr, ?_⟩
      by_cases hz : total (c r) = 0
      · have hle := liveSize_le_total (base g)
        have hrg : g ≠ r := by
          rintro rfl
          omega
        have hrm : m ≠ r := by
          rintro rfl
          have hlt := liveSize_le_total (c m)
          omega
        exact Ample.not_rejects (.inr ⟨g, m, hg, hpick.lt, hpick.ne.symm, hrg, hrm, by omega⟩) hr
          hz hused hend.fits
      · obtain ⟨hzero, rfl, hleast⟩ := h.reserve hpick hbase hr hz hmin hg
        exact h.resume hpick hrun hend hzero hleast hp

/-- If no block has more than the last word free, the last record was being
moved and the blocks are full of live records. -/
theorem Parted.not_full (h : Parted base g m p logs) {s : ℕ} (hc : Copied logs g m s c)
    (hs : s ≤ liveSize (logs m)) (hfull : ∀ j, j < num → j ≠ m → size ≤ total (c j)+4) : False := by
  have hpos := hend.pos
  have hsize := hend.fits
  have h1 := h.total_reserve
  have h2 := hc.total_reserve
  have h3 := h.live_source
  have hbig := hfull g hend.gc_lt hpick.ne.symm
  have hother : ∀ i, i < num → i ≠ g → i ≠ m → size ≤ total (base i)+4 := by
    intro i hi hig him
    have h4 := (h.other i hig him).1
    have h5 := (hc.other i hig him).1
    have h6 := hfull i hi him
    omega
  have hlive : ∀ i, i < num → i ≠ g → liveSize (base m) ≤ liveSize (base i) := by
    intro i hi hig
    by_cases him : i = m
    · rw [him]
    · refine hpick.least i hi hig (pos_of_ne_zero fun h0 => ?_)
      have h4 := hother i hi hig him
      rw [hbase.used i hi h0] at h4
      omega
  have hzero : total (base g) = 0 := by
    obtain ⟨x, hx, hxz⟩ := hbase.spare
    by_cases hxg : x = g
    · rwa [hxg] at hxz
    · have hle := hlive x hx hxg
      have hlt := liveSize_le_total (base x)
      have hm := hpick.pos
      omega
  have hall : GcRun size num g base none last newGc' := .move hpick hrun
  rcases (hall.ample hend hzero).least hlive with hroom|⟨c, hc, hcg, -, hroom⟩
  · omega
  · have hle := hlive c hc hcg
    omega

/-- A cut between a copy and the deletion of its original loses no room: the
restart deletes the original. The reserve was elected before. -/
theorem Parted.twin_not_rejects (h : Parted base g m p logs) {s : ℕ} (hc : Copied logs g m s c)
    (hm : (total (c m) = total (logs m) ∧ liveSize (c m)+s = liveSize (logs m) ∧
      0 < liveSize (c m)) ∨ (c m = [] ∧ liveSize (logs m) = s))
    {l : ℕ → List Rec} (hl : ∀ i, i ≠ m → total (l i) = total (c i))
    (hlm : total (l m) = total (logs m)) (hel : ElectedGc size num l gc) :
    ∃ r, gc = some r ∧ r < num ∧ ¬Rejects size num r c n := by
  rcases hm with ⟨ht, hlive, hpos⟩|⟨hempty, hs⟩
  · refine (h.next hc ht hlive hpos).not_rejects hpick hrun hend hbase ?_
    have htot : ∀ i, total (l i) = total (c i) := by
      intro i
      by_cases him : i = m
      · rw [him, hlm, ht]
      · exact hl i him
    simp only [ElectedGc, htot] at hel
    exact hel
  · have hsame := h.last hc hpick.ne hs hempty
    have hzero : total (c m) = 0 := by rw [hempty, total_nil]
    rcases hel with ⟨-, hfull⟩|⟨r, hr, hgc, -, -⟩
    · refine (h.not_full hpick hrun hend hbase hc hs.ge fun j hj hjm => ?_).elim
      rw [←hl j hjm]
      exact hfull j hj
    · refine ⟨r, hgc, hr, ?_⟩
      by_cases hrm : r = m
      · subst hrm
        have hample := hrun.ample hend (by rw [gcMove_source, total_nil] : total _ = 0)
        refine Ample.not_rejects ?_ hr hzero (fun i hi h0 => ?_) hend.fits
        · simp only [Ample, (hsame _).2]
          exact hample
        · rw [(hsame i).1]
          exact (hbase.next hpick).used i hi (by rw [←(hsame i).2, h0])
      · rintro ⟨hfull, -⟩
        have hn := hend.fits
        exact hfull ⟨m, hpick.lt, fun he => hrm he.symm, by omega⟩

end Interrupted

end PineVoice.Kv
