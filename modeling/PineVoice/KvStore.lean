import PineVoice.KvRestart
import PineVoice.Transition

/-!
# Runs of the store

From blank flash on, any sequence of calls keeps the store in a state that
holds contents with one record a key and an erased reserve block. The
contents are those of a map that is updated by the calls that succeed.
-/

namespace PineVoice.Kv

open NorFlash List Option

/-- The calls of an application. -/
inductive Call where
  /-- `kv_set`. -/
  | set (key value : List UInt8)
  /-- `kv_rm`. -/
  | rm (key : List UInt8)
  /-- `kv_get` with a buffer of some size. -/
  | get (key : List UInt8) (size : ℕ)
  /-- `kv_gc`. -/
  | gc
deriving DecidableEq, Repr

/-- What a call returns: the return value and the bytes put into the buffer. -/
abbrev Reply := ℤ × List UInt8

/-- One call. -/
def Kvset.call (kv : Kvset) : Call → Option (Reply × Kvset)
  | .set key value => (kvSet kv key value).map fun r => ((r.1, []), r.2)
  | .rm key => (kvRm kv key).map fun r => ((r.1, []), r.2)
  | .get key size => (kvGet kv key size).map fun r => (r, kv)
  | .gc => (kvGc kv).map fun r => ((r.1, []), r.2)

/-- Calls one after the other, with all replies. -/
def runCalls : Kvset → List Call → Option (List Reply × Kvset)
  | kv, [] => some ([], kv)
  | kv, c :: calls => (kv.call c).bind fun r =>
      (runCalls r.2 calls).map fun q => (r.1 :: q.1, q.2)

/-- The map a call leaves: a successful `kv_set` sets its key, a `kv_rm`
removes it. -/
def Call.record (M : Contents) (reply : Reply) : Call → Contents
  | .set key value => if 0 ≤ reply.1 then Function.update M key (some value) else M
  | .rm key => Function.update M key none
  | .get _ _ => M
  | .gc => M

/-- The map after calls with their replies. -/
def recorded (M : Contents) : List Call → List Reply → Contents
  | c :: calls, reply :: replies => recorded (c.record M reply) calls replies
  | _, _ => M

/-- Keys are C strings without a line end. -/
def Call.Plain : Call → Prop
  | .set key _ => 0 ∉ key ∧ 0x0A ∉ key
  | .rm key => 0 ∉ key ∧ 0x0A ∉ key
  | .get key _ => 0 ∉ key ∧ 0x0A ∉ key
  | .gc => True

instance : DecidablePred Call.Plain := fun c =>
  match c with
  | .set _ _ => inferInstanceAs (Decidable (_ ∧ _))
  | .rm _ => inferInstanceAs (Decidable (_ ∧ _))
  | .get _ _ => inferInstanceAs (Decidable (_ ∧ _))
  | .gc => inferInstanceAs (Decidable True)

/-- Keys are C strings, and the scanner passes those that are stored. -/
def Call.Quiet : Call → Prop
  | .set key _ => 0 ∉ key ∧ textQuiet false key = true
  | .rm key => 0 ∉ key
  | .get key _ => 0 ∉ key
  | .gc => True

theorem Call.Plain.quiet {c : Call} (h : c.Plain) : c.Quiet := by
  cases c with
  | set key value => exact ⟨h.1, textQuiet_of_not_mem h.2 false⟩
  | rm key => exact h.1
  | get key size => exact h.1
  | gc => trivial

/-- A store between two calls: it holds contents and its reserve is empty. -/
structure Serving (kv : Kvset) (logs : ℕ → List Rec) (M : Contents) (g : ℕ) : Prop
    extends Holding kv logs M g where
  /-- The reserve block has no records. -/
  reserve : logs g = []

section Serve

variable {kv : Kvset} {logs : ℕ → List Rec} {M : Contents} {g : ℕ}

theorem Reaches.serving {Q : (ℕ → List Rec) → Prop} {kv' : Kvset} {logs' : ℕ → List Rec}
    {M' : Contents} {g' : ℕ} (h : Reaches Q kv logs g kv' logs' M' g') (hg : logs g = []) :
    Serving kv' logs' M' g' := ⟨h.holding, h.reserve hg⟩

/-- Every call returns, and the store then holds the recorded contents. -/
theorem Serving.call (h : Serving kv logs M g) {c : Call} (hc : c.Quiet) :
    ∃ reply kv' logs' g', kv.call c = some (reply, kv') ∧
      Serving kv' logs' (c.record M reply) g' ∧ kv'.size = kv.size ∧ kv'.num = kv.num := by
  cases c with
  | set key value =>
    rcases kvSet_reaches h.toHolding hc.1 hc.2 value with
      ⟨kv', logs', g', hkv, hr⟩|⟨kv', logs', g', hkv, hr⟩
    · refine ⟨_, kv', logs', g', by rw [Kvset.call, hkv]; rfl, ?_, hr.advance.size_eq,
        hr.advance.num_eq⟩
      exact hr.serving h.reserve
    · refine ⟨_, kv', logs', g', by rw [Kvset.call, hkv]; rfl, ?_, hr.advance.size_eq,
        hr.advance.num_eq⟩
      exact hr.serving h.reserve
  | rm key =>
    obtain ⟨kv', logs', hkv, hr⟩ := kvRm_reaches h.toHolding hc
    exact ⟨_, kv', logs', g, by rw [Kvset.call, hkv]; rfl, hr.serving h.reserve,
      hr.advance.size_eq, hr.advance.num_eq⟩
  | get key size =>
    refine ⟨answer (M key) size, kv, logs, g, ?_, h, rfl, rfl⟩
    rw [Kvset.call, kvGet_resolved h.ready.toStoreRep h.resolved hc, map_some]
  | gc =>
    obtain ⟨newGc, kv', logs', -, hkv, hr⟩ := kvGc_reaches h.toHolding
    exact ⟨_, kv', logs', _, by rw [Kvset.call, hkv]; rfl, hr.serving h.reserve,
      hr.advance.size_eq, hr.advance.num_eq⟩

/-- Every run returns, and the store then holds the recorded contents. -/
theorem Serving.run (h : Serving kv logs M g) {calls : List Call}
    (hc : ∀ c ∈ calls, c.Quiet) :
    ∃ replies kv' logs' g', runCalls kv calls = some (replies, kv') ∧
      Serving kv' logs' (recorded M calls replies) g' ∧ kv'.size = kv.size ∧ kv'.num = kv.num := by
  induction calls generalizing kv logs M g with
  | nil => exact ⟨[], kv, logs, g, rfl, h, rfl, rfl⟩
  | cons c calls ih =>
    obtain ⟨reply, kv1, logs1, g1, hcall, h1, hs1, hn1⟩ := h.call (hc c mem_cons_self)
    obtain ⟨replies, kv2, logs2, g2, hrun, h2, hs2, hn2⟩ :=
      ih h1 fun d hd => hc d (mem_cons_of_mem _ hd)
    refine ⟨reply :: replies, kv2, logs2, g2, ?_, h2, hs2.trans hs1, hn2.trans hn1⟩
    rw [runCalls, hcall, bind_some, hrun, map_some]

end Serve

section Start

variable {flash : Mem} {num size : ℕ} {logs : ℕ → List Rec} {M : Contents}

theorem eq_nil_of_total {log : List Rec} (h : total log = 0) : log = [] := by
  have hlen := length_mul_le_total log
  exact List.length_eq_zero_iff.mp (by omega)

/-- A start elects an empty block as the reserve if there is one. -/
theorem ElectedGc.empty {gc : Option ℕ} {i : ℕ} (h : ElectedGc size num logs gc)
    (hs : 512 ≤ size) (hi : i < num) (he : logs i = []) :
    ∃ g, g < num ∧ gc = some g ∧ logs g = [] := by
  have hzero : total (logs i) = 0 := by rw [he, total_nil]
  rcases h with ⟨-, hfull⟩|⟨g, hg, hgc, -, hmin⟩
  · have := hfull i hi
    omega
  · refine ⟨g, hg, hgc, eq_nil_of_total ?_⟩
    have := hmin i hi
    omega

theorem blockImage_blank {m : Mem} (hs : 4 ≤ size) (hb : Blank m 0 size) :
    BlockImage size m [] :=
  ⟨trivial, by rw [total_nil]; omega, tailQuiet_of_blank hb, hb.mono (Nat.zero_le _) le_rfl⟩

/-- The start on blank flash serves the empty map. -/
theorem kvInit_blank (geo : Geometry num size) (hb : Blank flash 0 (num*size)) :
    ∃ kv g, kvInit flash num size = some kv ∧ Serving kv (fun _ => []) (fun _ => none) g ∧
      kv.size = size ∧ kv.num = num := by
  have hge := geo.size_ge
  have hnum := geo.num_ge
  have hblock : ∀ j, j < num → Blank (window flash (j*size)) 0 size := by
    intro j hj i _ hi
    have hmul := Nat.mul_le_mul_right size hj
    rw [Nat.succ_mul] at hmul
    exact hb _ (Nat.zero_le _) (by omega)
  have hM : Resolved num (fun _ => none) (fun _ => []) := fun key =>
    Finset.sum_eq_zero fun _ _ => rfl
  obtain ⟨kv, hkv, hsize, hn, hrep, hres, hready⟩ := kvInit_resolved geo (fun j => j < num)
    (fun j hj => blockImage_blank (by omega) (hblock j hj))
    (fun j hj => Or.inr rfl) hM
  obtain ⟨hready, helect⟩ := hready fun j hj => hj
  obtain ⟨g, hg, hgc, -⟩ := helect.empty hge (show 0 < num by omega) rfl
  exact ⟨kv, g, hkv, ⟨⟨hready, by rw [hn]; exact hres, by rw [hn]; exact hg, hgc⟩, rfl⟩, hsize, hn⟩

/-- A run from blank flash. -/
theorem run_blank (geo : Geometry num size) (hb : Blank flash 0 (num*size)) {calls : List Call}
    (hc : ∀ c ∈ calls, c.Quiet) :
    ∃ kv replies kv' logs g, kvInit flash num size = some kv ∧
      runCalls kv calls = some (replies, kv') ∧
      Serving kv' logs (recorded (fun _ => none) calls replies) g ∧ kv'.size = size ∧
      kv'.num = num := by
  obtain ⟨kv, g, hkv, hserve, hs, hn⟩ := kvInit_blank geo hb
  obtain ⟨replies, kv', logs', g', hrun, h', hs', hn'⟩ := hserve.run hc
  exact ⟨kv, replies, kv', logs', g', hkv, hrun, h', hs'.trans hs, hn'.trans hn⟩

/-- The store behaves as a map: after any run from blank flash `kv_get`
returns the last value that was set and not removed since. -/
theorem kvGet_run (geo : Geometry num size) (hb : Blank flash 0 (num*size)) {calls : List Call}
    (hc : ∀ c ∈ calls, c.Plain) :
    ∃ kv replies kv', kvInit flash num size = some kv ∧
      runCalls kv calls = some (replies, kv') ∧
      ∀ key n, 0 ∉ key →
        kvGet kv' key n = some (answer (recorded (fun _ => none) calls replies key) n) := by
  obtain ⟨kv, replies, kv', logs, g, hkv, hrun, hserve, -, -⟩ :=
    run_blank geo hb fun c hc' => (hc c hc').quiet
  exact ⟨kv, replies, kv', hkv, hrun, fun key n hk =>
    kvGet_resolved hserve.ready.toStoreRep hserve.resolved hk n⟩

/-- A run with a set, a replacement, a removal and a compaction. -/
theorem kvGet_run_short :
    ∃ kv replies kv', kvInit (fun _ => 0xFF) 2 512 = some kv ∧
      runCalls kv [.set [107] [1, 2], .set [107] [3], .rm [120], .gc, .get [107] 8] =
        some (replies, kv') ∧
      ∀ key n, 0 ∉ key → kvGet kv' key n = some (answer (recorded (fun _ => none)
        [.set [107] [1, 2], .set [107] [3], .rm [120], .gc, .get [107] 8] replies key) n) :=
  kvGet_run ⟨by decide, by decide, by decide, by decide⟩ (fun _ _ _ => rfl) (by decide)

end Start

section Full

variable {size num g n : ℕ} {logs logs' : ℕ → List Rec} {newGc newGc' : Option ℕ}

/-- A block emptied in an earlier round stays empty and is not the last one. -/
theorem GcRun.keeps_empty (h : GcRun size num g logs newGc logs' newGc') {x : ℕ} (hx : x ≠ g)
    (he : logs x = []) : logs' x = [] ∧ (newGc' = some x → newGc = some x) := by
  induction h with
  | stop _ => exact ⟨he, id⟩
  | @move logs logs' newGc newGc' m hpick _ ih =>
    have hm : x ≠ m := by
      rintro rfl
      have hpos := hpick.pos
      rw [he] at hpos
      exact absurd hpos (Nat.lt_irrefl 0)
    obtain ⟨h1, h2⟩ := ih (by rw [gcMove_other logs hm hx, he])
    exact ⟨h1, fun hc => absurd (Option.some.inj (h2 hc)).symm hm⟩

/-- A record that is rejected although the reserve was empty does not fit
behind the live records of any other block. -/
theorem Rejects.full (h : Rejects size num g logs n) (hlt : g < num) (hg : logs g = [])
    (hused : ∀ i, i < num → liveCount (logs i) = 0 → logs i = []) (hn : n+4 ≤ size) :
    ∀ i, i < num → i ≠ g → size < liveSize (logs i)+n+4 := by
  intro i hi hne
  obtain ⟨hno, logs', newGc, hrun, hafter⟩ := h
  have hzero : total (logs g) = 0 := by rw [hg, total_nil]
  have hpos : 0 < liveSize (logs i) := by
    rw [liveSize_pos, Nat.pos_iff_ne_zero]
    intro hz
    refine hno ⟨i, hi, hne, ?_⟩
    rw [hused i hi hz, total_nil]
    omega
  cases hrun with
  | stop hfull =>
    have := hfull i hi hne hpos
    omega
  | @move _ _ _ _ m hpick hrun =>
    have hleast := hpick.least i hi hne hpos
    have hempty := gcMove_source logs g m
    cases hrun with
    | stop _ =>
      have hfull := hafter m rfl
      by_contra hle
      refine hfull ⟨g, hlt, hpick.ne.symm, ?_⟩
      rw [gcMove_reserve logs hpick.ne, total_append, total_moved]
      omega
    | @move _ _ _ _ m2 hpick2 hrun =>
      have hm : m ≠ m2 := by
        rintro rfl
        have hpos2 := hpick2.pos
        rw [hempty] at hpos2
        exact absurd hpos2 (Nat.lt_irrefl 0)
      obtain ⟨hkeep, hlast⟩ := hrun.keeps_empty hpick.ne (by
        rw [gcMove_other _ hm hpick.ne, hempty])
      obtain ⟨g', hg'⟩ := Option.isSome_iff_exists.mp (hrun.isSome rfl)
      refine absurd ⟨m, hpick.lt, ?_, ?_⟩ (hafter g' hg')
      · rintro rfl
        exact hm (Option.some.inj (hlast hg')).symm
      · rw [hkeep, total_nil]
        omega

end Full

section Capacity

variable {flash : Mem} {num size : ℕ}

theorem recSize_add_le {key value : List UInt8} (h : key.length+value.length < 498) :
    recSize key value+4 ≤ 512 := by
  have ha := align4_spec (key.length+value.length+6)
  rw [recSize]
  omega

/-- A `kv_set` that fails although its sizes are valid found every block but
the reserve so full of live records that the new one does not fit. -/
theorem kvSet_reports_full (geo : Geometry num size) (hb : Blank flash 0 (num*size))
    {calls : List Call} (hc : ∀ c ∈ calls, c.Plain) {kv kv' kv'' : Kvset} {replies : List Reply}
    (hinit : kvInit flash num size = some kv) (hrun : runCalls kv calls = some (replies, kv'))
    {key value : List UInt8} (h0 : 0 ∉ key) (hnl : 0x0A ∉ key) (hk : 1 ≤ key.length)
    (hk' : key.length ≤ 63) (hv : 1 ≤ value.length) (hsum : key.length+value.length < 498)
    (hset : kvSet kv' key value = some (-1, kv'')) :
    ∀ i, i < num → kv'.gcBid ≠ some i →
      (size : ℤ)-4 < (kv'.blocks i).kvSize+(align4 (key.length+value.length+6)+4) := by
  obtain ⟨kv0, replies0, kv1, logs, g, hinit0, hrun0, hserve, hsize, hnum⟩ :=
    run_blank geo hb fun c hc' => (hc c hc').quiet
  obtain rfl := Option.some.inj (hinit.symm.trans hinit0)
  obtain ⟨rfl, rfl⟩ := Prod.mk.inj (Option.some.inj (hrun.symm.trans hrun0))
  have hst : Storable key value := ⟨hk, hk', h0, textQuiet_of_not_mem hnl false, hv, hsum⟩
  intro i hi hne
  rcases kvSet_storable hserve.toHolding hst with
    ⟨_, _, _, hkv, -⟩|⟨_, _, _, -, -, -, hrej⟩
  · have hret := congrArg Prod.fst (Option.some.inj (hset.symm.trans hkv))
    omega
  · have hready := hserve.ready
    have hig : i ≠ g := by
      rintro rfl
      exact hne hserve.gcBid
    have hle := recSize_add_le hsum
    have hge := geo.size_ge
    have hfull := hrej.full hserve.gc_lt hserve.reserve
      hready.used (by omega) i (by omega) hig
    rw [(hready.rep i (by omega)).kvSize]
    rw [recSize, hsize] at hfull
    omega

/-- One short record in the only usable block leaves no room for the longest
one. -/
theorem kvSet_reports_full_small :
    ∃ kv kv' kv'' replies, kvInit (fun _ => 0xFF) 2 512 = some kv ∧
      runCalls kv [.set [97] [1]] = some (replies, kv') ∧
      kvSet kv' [98] (List.replicate 496 7) = some (-1, kv'') ∧
      ∀ i, i < 2 → kv'.gcBid ≠ some i → ((512 : ℕ) : ℤ)-4 <
        (kv'.blocks i).kvSize+((align4 (([98] : List UInt8).length+
          (List.replicate 496 (7 : UInt8)).length+6) : ℕ)+4) := by
  obtain ⟨kv, hinit, ⟨replies, kv'⟩, hrun, ⟨ret, kv''⟩, hset, hret⟩ :
      ∃ kv, kvInit (fun _ => 0xFF) 2 512 = some kv ∧
        ∃ r, runCalls kv [.set [97] [1]] = some r ∧
          ∃ s, kvSet r.2 [98] (List.replicate 496 7) = some s ∧ s.1 = -1 := by
    decide +kernel
  cases hret
  exact ⟨kv, kv', kv'', replies, hinit, hrun, hset,
    kvSet_reports_full ⟨by decide, by decide, by decide, by decide⟩ (fun _ _ _ => rfl)
      (by decide) hinit hrun (by decide) (by decide) (by decide) (by decide)
      (by rw [length_replicate]; decide) (by rw [length_replicate]; decide) hset⟩

end Capacity

end PineVoice.Kv
