import PineVoice.KvMixedCompact

/-!
# Calls on a store with entries of both formats

`kv_set`, `kv_rm`, `kv_gc` and `kv_reset` return and keep the text lines of
the store, as long as the record that is deleted has company in its block or
its block has no lines.
-/

namespace PineVoice.Kv

open Function NorFlash List Option

/-- A record of such entries may be deleted: there are no text lines, or other
live records. -/
def Spare (list : List Entry) : Prop :=
  list.countP Entry.isLine = 0 ∨ 1 < list.countP Entry.stored

/-- What every call leaves: a store of entries with the same text lines. -/
structure Keeps (kv : Kvset) (es : ℕ → List Entry) (kv' : Kvset) (es' : ℕ → List Entry) :
    Prop where
  /-- The blocks hold entries. -/
  mixed : Mixed kv' es'
  /-- No key is stored twice. -/
  keys : UniqueKeys kv.num es'
  /-- The text lines stay. -/
  lines : ∀ i, linesAt 0 (es' i) = linesAt 0 (es i)
  /-- The block size stays. -/
  size_eq : kv'.size = kv.size
  /-- The number of blocks stays. -/
  num_eq : kv'.num = kv.num
  /-- There is still a reserve block. -/
  reserve : kv.gcBid.isSome = true → kv'.gcBid.isSome = true

section Calls

variable {kv kv' kv'' : Kvset} {es es' es'' : ℕ → List Entry} {key value : List UInt8}

theorem Keeps.refl (h : Mixed kv es) (hkeys : UniqueKeys kv.num es) : Keeps kv es kv es :=
  ⟨h, hkeys, fun _ => rfl, rfl, rfl, id⟩

theorem Keeps.trans (h : Keeps kv es kv' es') (h' : Keeps kv' es' kv'' es'') :
    Keeps kv es kv'' es'' :=
  ⟨h'.mixed, by rw [←h.num_eq]; exact h'.keys, fun i => (h'.lines i).trans (h.lines i),
    h'.size_eq.trans h.size_eq, h'.num_eq.trans h.num_eq, fun hg => h'.reserve (h.reserve hg)⟩

variable {g i j num : ℕ}

theorem UniqueKeys.moved (h : UniqueKeys num es) (hm : Moved num g es es') :
    UniqueKeys num es' := fun key => by
  rw [hm.keys]
  exact h key

/-- A key is stored in one block only. -/
theorem UniqueKeys.block_eq (h : UniqueKeys num es) (hi : i < num) (hj : j < num)
    (hpi : 0 < (es i).countP (Entry.hasKey key)) (hpj : 0 < (es j).countP (Entry.hasKey key)) :
    i = j := by
  by_contra hne
  have hone := h key
  have hup := keyCount_update es hi [] key
  have hle := le_keyCount (update es i []) hj key
  rw [update_of_ne (Ne.symm hne)] at hle
  rw [countP_nil] at hup
  omega

section

variable (h : Mixed kv es)
include h

/-- Deleting a live record that may be deleted. -/
theorem kvnodeRm_keeps (key : List UInt8)
    (hkeys : ∀ k, keyCount kv.num es k ≤ 1+(if key = k then 1 else 0)) (hj : j < kv.num)
    {node : KvNode} (hin : FoundIn key j 0 (es j) node) (hspare : Spare (es j)) :
    ∃ es', Keeps kv es (kvnodeRm kv node) es' := by
  obtain ⟨pre, s, post, hes, hlive, hkey, rfl⟩ := hin
  have hframe := kvnodeRm_frame kv (s.node j (0+span pre))
  rw [zero_add] at hframe ⊢
  refine ⟨_, kvnodeRm_mixed h hj hes hlive hspare, fun k => ?_, fun i => ?_, hframe.size_eq,
    hframe.num_eq, fun hg => by rw [hframe.gcBid_eq]; exact hg⟩
  · have hrm := keyCount_survivors hj hes hlive k
    have hk := hkeys k
    rw [hkey] at hrm
    omega
  · by_cases hi : i = j
    · subst hi
      rw [hes] at hspare
      rw [update_self, survivors_lines hspare, hes]
    · rw [update_of_ne hi]

/-- `kv_rm` of a record that may be deleted. -/
theorem kvRm_mixed (hkeys : UniqueKeys kv.num es) (hk : 0 ∉ key)
    (hspare : ∀ node, kvFind kv key = some (some node) → node.rw = true → Spare (es node.block)) :
    ∃ ret kv' es', kvRm kv key = some (ret, kv') ∧ Keeps kv es kv' es' := by
  obtain ⟨found, hfind, hcases⟩ := kvFind_mixed h hk
  rw [kvRm, hfind]
  rcases hcases with ⟨j, node, hj, rfl, hin⟩ | ⟨-, hro⟩
  · have hblock : node.block = j := hin.block
    have hs := hspare node hfind hin.rw
    rw [hblock] at hs
    obtain ⟨es', hkeeps⟩ := kvnodeRm_keeps h key (fun k => (hkeys k).trans (Nat.le_add_right _ _))
      hj hin hs
    exact ⟨0, _, es', rfl, hkeeps⟩
  · cases found with
    | none => exact ⟨-1, kv, es, rfl, .refl h hkeys⟩
    | some node =>
      refine ⟨0, kvnodeRm kv node, es, rfl, ?_⟩
      rw [kvnodeRm_line kv (hro node rfl)]
      exact .refl h hkeys

theorem Mixed.withBid (hi : i < kv.num) : Mixed { kv with bid := i } es :=
  ⟨h.size_ge, h.size_lt, h.size_mod, hi, h.gc_lt, h.block⟩

/-- The block loop of `kv_set` appends the record to a block without text
lines, or changes nothing. -/
theorem setLoop_mixed (h0 : 0 ∉ key) (hq : textQuiet false key = true) (hv : 0 < value.length)
    (hsum : key.length+value.length < 498) (version : ℕ) :
    setLoop key value version kv.bid kv.num kv = some (false, kv) ∨
      ∃ (b : ℕ) (hst : Storable key value) (kv' : Kvset),
        setLoop key value version kv.bid kv.num kv = some (true, kv') ∧ b < kv.num ∧
        (es b).countP Entry.isLine = 0 ∧
        Mixed kv' (update es b
          (appended (es b) hst (UInt8.ofNat (version &&& 0xFF)))) ∧
        kv'.size = kv.size ∧ kv'.num = kv.num ∧ kv'.gcBid = kv.gcBid := by
  have hattempt : ∀ i, i < kv.num →
      setAttempt kv key value version i = (-1, { kv with bid := i }) ∨
      ∃ (hst : Storable key value) (kv' : Kvset), setAttempt kv key value version i =
          (((align4 (span (es i)) : ℕ) : ℤ), kv') ∧ (es i).countP Entry.isLine = 0 ∧
        Mixed kv' (update es i
          (appended (es i) hst (UInt8.ofNat (version &&& 0xFF)))) ∧
        SameFrame { kv with bid := i } kv' := by
    intro i hi
    rw [setAttempt]
    split
    · next hc =>
      rcases kvblockSet_mixed (h.withBid hi) hi h0 hq hv hsum version with
        ⟨hset, -⟩ | ⟨hst, kv', hset, hmixed, hframe⟩
      · exact .inl hset
      · exact .inr ⟨hst, kv', hset, (h.block i hi).roCount ▸ hc.1, hmixed, hframe⟩
    · exact .inl rfl
  have hstay : ∀ i, i < kv.num → 0 ≤ (setAttempt kv key value version i).1 ∨
      setAttempt kv key value version i = (-1, { kv with bid := i }) := by
    intro i hi
    rcases hattempt i hi with hmiss | ⟨hst, kv', hhit, -⟩
    · exact .inr hmiss
    · exact .inl (by rw [hhit]; exact Int.natCast_nonneg _)
  rcases setLoop_cases h.bid_lt hstay with ⟨i, hi, hpos, hloop⟩ | ⟨-, hloop⟩
  · rcases hattempt i hi with hmiss | ⟨hst, kv', hhit, hro, hmixed, hframe⟩
    · rw [hmiss] at hpos
      exact absurd hpos (show ¬(0 : ℤ) ≤ -1 by decide)
    · rw [hhit] at hloop
      exact .inr ⟨i, hst, kv', hloop, hi, hro, hmixed, hframe.size_eq, hframe.num_eq,
        hframe.gcBid_eq⟩
  · exact .inl hloop

/-- Label `start2` of `kv_set` with what the lookup reported. -/
theorem setStart2_mixed (hkeys : UniqueKeys kv.num es) (h0 : 0 ∉ key)
    (hq : textQuiet false key = true) (hv : 0 < value.length) (hsum : key.length+value.length < 498)
    (version : ℕ) {found : Option KvNode} (hfound : Reported kv.num es key found)
    (hspare : ∀ node, found = some node → node.rw = true → Spare (es node.block)) :
    setStart2 kv key value version found = some (false, kv) ∨
      ∃ kv' es', setStart2 kv key value version found = some (true, kv') ∧ Keeps kv es kv' es' := by
  rw [setStart2]
  rcases setLoop_mixed h h0 hq hv hsum version with
    hloop | ⟨b, hst, kv1, hloop, hb, hro, h1, hsize, hnum, hgc⟩
  · rw [hloop]
    exact .inl rfl
  right
  rw [hloop]
  have hcount := keyCount_appended es hb hst (UInt8.ofNat (version &&& 0xFF))
  have hlines : ∀ i, linesAt 0 (update es b (appended (es b) hst
      (UInt8.ofNat (version &&& 0xFF))) i) = linesAt 0 (es i) := by
    intro i
    by_cases hi : i = b
    · subst hi
      rw [update_self, appended_lines]
    · rw [update_of_ne hi]
  rcases hfound with ⟨j, node, hj, rfl, hin⟩ | ⟨hnone, hro'⟩
  · have hsp : Spare (update es b (appended (es b) hst
        (UInt8.ofNat (version &&& 0xFF))) j) := by
      by_cases hjb : j = b
      · subst hjb
        refine .inl ?_
        rw [←linesAt_length 0, hlines, linesAt_length, hro]
      · have hs := hspare node rfl hin.rw
        rw [hin.block] at hs
        rw [update_of_ne hjb]
        exact hs
    have hin' : FoundIn key j 0 (update es b (appended (es b) hst
        (UInt8.ofNat (version &&& 0xFF))) j) node := by
      by_cases hjb : j = b
      · subst hjb
        rw [update_self]
        exact hin.append _
      · rw [update_of_ne hjb]
        exact hin
    obtain ⟨es', hkeeps⟩ := kvnodeRm_keeps h1 key (fun k => by
      rw [hnum, hcount]
      exact Nat.add_le_add_right (hkeys k) _) (by rw [hnum]; exact hj) hin' hsp
    refine ⟨_, es', rfl, hkeeps.mixed, hnum ▸ hkeeps.keys,
      fun i => (hkeeps.lines i).trans (hlines i), hkeeps.size_eq.trans hsize,
      hkeeps.num_eq.trans hnum, fun hg => hkeeps.reserve (by rw [hgc]; exact hg)⟩
  · have hrm : ∀ node, found = some node → kvnodeRm kv1 node = kv1 := fun node hnode =>
      kvnodeRm_line kv1 (hro' node hnode)
    have hone : UniqueKeys kv.num (update es b (appended (es b) hst
        (UInt8.ofNat (version &&& 0xFF)))) := by
      intro k
      rw [hcount]
      by_cases hk : key = k
      · have hzero := keyCount_eq_zero hnone
        rw [if_pos hk, ←hk, hzero]
      · rw [if_neg hk]
        exact hkeys k
    refine ⟨kv1, _, ?_, h1, hone, hlines, hsize, hnum, fun hg => by rw [hgc]; exact hg⟩
    cases found with
    | none => rfl
    | some node => exact congrArg (fun kv' => some (true, kv')) (hrm node rfl)

/-- Label `start1` of `kv_set` returns what the lookup reported, or finds the
value stored already. -/
theorem setStart1_mixed (h0 : 0 ∉ key) (value : List UInt8) (version : ℕ) :
    setStart1 kv key value version = some none ∨
      ∃ v found, setStart1 kv key value version = some (some (v, found)) ∧
        kvFind kv key = some found ∧ Reported kv.num es key found := by
  obtain ⟨found, hfind, hfound⟩ := kvFind_mixed h h0
  rw [setStart1, hfind, map_some]
  cases found with
  | none => exact .inr ⟨_, none, rfl, rfl, hfound⟩
  | some node =>
    dsimp only
    split
    · exact .inl rfl
    · exact .inr ⟨_, some node, rfl, rfl, hfound⟩

end

/-- A record may still be deleted after a compaction, if the reserve had no
text lines or had records before. -/
theorem Moved.spare (hm : Moved num g es es') (hj : j < num)
    (hin : 0 < (es' j).countP (Entry.hasKey key))
    (hspare : ∀ i, i < num → 0 < (es i).countP (Entry.hasKey key) → Spare (es i))
    (hreserve : (es g).countP Entry.isLine = 0 ∨ 0 < (es g).countP Entry.stored) :
    Spare (es' j) := by
  by_cases hline : (es' j).countP Entry.isLine = 0
  · exact .inl hline
  rw [hm.isLine] at hline
  by_cases hjg : j = g
  · subst hjg
    obtain ⟨xs, hxs⟩ := hm.reserve
    rw [hxs, countP_append] at hin
    refine .inr ?_
    rw [hxs, countP_append]
    by_cases hold : 0 < (es j).countP (Entry.hasKey key)
    · have hmore := (hspare j hj hold).resolve_left hline
      omega
    · have hmoved := hasKey_le_stored xs key
      omega
  · rw [hm.kept j hjg hline] at hin ⊢
    exact hspare j hj hin

/-- `kv_set` of a key that the scanner passes over. -/
theorem kvSet_mixed (h : Mixed kv es) (hkeys : UniqueKeys kv.num es) (h0 : 0 ∉ key)
    (hq : textQuiet false key = true) (hgc : kv.gcBid = some g)
    (hspare : ∀ node, kvFind kv key = some (some node) → node.rw = true →
      Spare (es node.block) ∧
        ((es g).countP Entry.isLine = 0 ∨ 0 < (es g).countP Entry.stored)) (value : List UInt8) :
    ∃ ret kv' es', kvSet kv key value = some (ret, kv') ∧ Keeps kv es kv' es' := by
  by_cases hlen : value.length ≤ 0 ∨ 498 ≤ key.length+value.length
  · exact ⟨-1, kv, es, if_pos hlen, .refl h hkeys⟩
  have hv : 0 < value.length := by omega
  have hsum : key.length+value.length < 498 := by omega
  rcases setStart1_mixed h h0 value 0 with hsame | ⟨version, found, h1, hfind, hfound⟩
  · refine ⟨value.length, kv, es, ?_, .refl h hkeys⟩
    rw [kvSet, if_neg hlen, hsame]
    rfl
  rcases setStart2_mixed h hkeys h0 hq hv hsum version hfound
    (fun node hnode hrw => (hspare node (by rw [hfind, hnode]) hrw).1) with
    h2 | ⟨kv', es', h2, hkeeps⟩
  swap
  · refine ⟨value.length, kv', es', ?_, hkeeps⟩
    rw [kvSet, if_neg hlen, h1]
    simp [h2]
  obtain ⟨ret, kv1, es1, hrun, hm1, hmoved, hsize1, hnum1, hsome1⟩ := kvGc_mixed h hgc
  have hkeeps1 : Keeps kv es kv1 es1 :=
    ⟨hm1, hkeys.moved hmoved, hmoved.lines, hsize1, hnum1, fun _ => hsome1⟩
  have hkeys1 : UniqueKeys kv1.num es1 := by
    rw [hnum1]
    exact hkeeps1.keys
  by_cases hret : ret = 0
  swap
  · refine ⟨-1, kv1, es1, ?_, hkeeps1⟩
    rw [kvSet, if_neg hlen, h1]
    simp [h2, hrun, hret]
  have hspare1 : ∀ j, j < kv.num → 0 < (es1 j).countP (Entry.hasKey key) → Spare (es1 j) := by
    intro j hj hin
    rcases hfound with ⟨i, node, hi, rfl, hini⟩ | ⟨hnone, -⟩
    · obtain ⟨hs, hres⟩ := hspare node hfind hini.rw
      rw [hini.block] at hs
      exact hmoved.spare hj hin
        (fun i' hi' hp => hkeys.block_eq hi' hi hp hini.pos ▸ hs) hres
    · have hzero := hmoved.keys key
      rw [keyCount_eq_zero hnone] at hzero
      have hle := le_keyCount es1 hj key
      omega
  have hfinish : ∀ v again, Reported kv1.num es1 key again →
      ∃ stored kv2 es2, setStart2 kv1 key value v again = some (stored, kv2) ∧
        Keeps kv es kv2 es2 := by
    intro v again hagain
    have hsp : ∀ node, again = some node → node.rw = true → Spare (es1 node.block) := by
      intro node hnode hrw
      rcases hagain with ⟨j, node', hj, hnode', hin⟩ | ⟨-, hro⟩
      · rw [hnode] at hnode'
        obtain rfl := Option.some.inj hnode'
        rw [hin.block]
        exact hspare1 j (by rw [←hnum1]; exact hj) hin.pos
      · rw [hro node hnode] at hrw
        exact absurd hrw (by decide)
    rcases setStart2_mixed hm1 hkeys1 h0 hq hv hsum v hagain hsp with
      h2' | ⟨kv2, es2, h2', hkeeps2⟩
    · exact ⟨false, kv1, es1, h2', hkeeps1⟩
    · exact ⟨true, kv2, es2, h2', hkeeps1.trans hkeeps2⟩
  cases found with
  | none =>
    have hnone : Reported kv1.num es1 key none := by
      rcases hfound with ⟨_, _, _, hno, _⟩ | ⟨hnone, -⟩
      · cases hno
      · refine .inr ⟨fun j hj => ?_, by simp⟩
        have hzero := hmoved.keys key
        rw [keyCount_eq_zero hnone] at hzero
        have hle := le_keyCount es1 (show j < kv.num by rw [←hnum1]; exact hj) key
        omega
    obtain ⟨stored, kv2, es2, h2', hkeeps2⟩ := hfinish version none hnone
    refine ⟨if stored then value.length else -1, kv2, es2, ?_, hkeeps2⟩
    rw [kvSet, if_neg hlen, h1]
    simp [h2, hrun, hret, h2']
  | some node =>
    rcases setStart1_mixed hm1 h0 value version with hsame | ⟨v, again, h1', -, hagain⟩
    · refine ⟨value.length, kv1, es1, ?_, hkeeps1⟩
      rw [kvSet, if_neg hlen, h1]
      simp [h2, hrun, hret, hsame]
    · obtain ⟨stored, kv2, es2, h2', hkeeps2⟩ := hfinish v again hagain
      refine ⟨if stored then value.length else -1, kv2, es2, ?_, hkeeps2⟩
      rw [kvSet, if_neg hlen, h1]
      simp [h2, hrun, hret, h1', h2']

/-- `kvblock_reset` on a block that has no text lines or no records. -/
theorem kvblockReset_mixed (h : Mixed kv es) (hkeys : UniqueKeys kv.num es) (hi : i < kv.num)
    (hsafe : (es i).countP Entry.isLine = 0 ∨ (es i).countP Entry.stored = 0) :
    ∃ kv' es', kvblockReset kv i = some kv' ∧ Keeps kv es kv' es' ∧ ∀ j, j ≠ i → es' j = es j := by
  have hb := h.block i hi
  have hline : ∀ (l : Line) off kv, iterRmAllRwNode (l.node i off) kv = (kv, 0) :=
    fun l off kv => congrArg (·, 0) (kvnodeRm_line kv rfl)
  have hiter : kvblockReset kv i =
      some (iterNodes true iterRmAllRwNode (entryNodes i 0 (es i)) kv) :=
    kvblockIter_entries i true _ kv hb.stored hb.room h.size_lt hb.blank
  let P : List Entry → Kvset → (ℕ → List Entry) → Prop := fun rest kv' es' =>
    Keeps kv es kv' es' ∧ (∀ j, j ≠ i → es' j = es j) ∧
      ((es i).countP Entry.isLine = 0 ∨ rest.countP Entry.stored = 0)
  have hskip : ∀ e rest kv' es', Entry.stored e = false → P (e :: rest) kv' es' →
      P rest kv' es' := by
    rintro e rest kv' es' he ⟨hk, hother, hsafe⟩
    exact ⟨hk, hother, by simpa [he] using hsafe⟩
  have hslot : ∀ pre s rest kv' es', P (.slot s :: rest) kv' es' →
      es' i = pre ++ .slot s :: rest → s.record.live = true → Holds (kv.mem i) (span pre) s.bytes →
      ∃ kv'' es'', iterRmAllRwNode (s.node i (span pre)) kv' = (kv'', 0) ∧ P rest kv'' es'' ∧
        (es'' i = pre ++ .slot s.kill :: rest ∨ rest.countP Entry.stored = 0) := by
    rintro pre s rest kv' es' ⟨hk, hother, hsafe⟩ hes hlive -
    have hro := hsafe.resolve_right (by simp [hlive])
    have hro' : (es' i).countP Entry.isLine = 0 := by
      rw [←linesAt_length 0, hk.lines, linesAt_length, hro]
    have hi' : i < kv'.num := by
      rw [hk.num_eq]
      exact hi
    have hframe := kvnodeRm_frame kv' (s.node i (span pre))
    refine ⟨_, _, rfl, ⟨hk.trans ⟨kvnodeRm_mixed hk.mixed hi' hes hlive (.inl hro'),
      fun k => ?_, fun j => ?_, hframe.size_eq, hframe.num_eq,
      fun hg => by rw [hframe.gcBid_eq]; exact hg⟩, fun j hj => ?_, .inl hro⟩, ?_⟩
    · have hrm := keyCount_survivors hi' hes hlive k
      have hone := hk.keys k
      rw [←hk.num_eq] at hone
      omega
    · by_cases hj : j = i
      · subst hj
        rw [update_self, survivors_lines (.inl (by rw [←hes]; exact hro')), hes]
      · rw [update_of_ne hj]
    · rw [update_of_ne hj, hother j hj]
    · rw [update_self]
      exact survivors_cases hlive
  obtain ⟨es', hk, hother, -⟩ := iterNodes_sweep hline hskip hslot
    (show P (es i) kv es from ⟨.refl h hkeys, fun _ _ => rfl, hsafe⟩) (.inl (nil_append _).symm)
    hb.stored
  exact ⟨_, es', hiter, hk, hother⟩

/-- The loop of `kv_reset` over blocks that have no text lines or no records. -/
theorem resetLoop_mixed {n : ℕ} (h : Mixed kv es) (hkeys : UniqueKeys kv.num es) (hn : i+n ≤ kv.num)
    (hsafe : ∀ j, i ≤ j → j < i+n → (es j).countP Entry.isLine = 0 ∨ (es j).countP Entry.stored = 0)
    : ∃ kv' es', resetLoop n i kv = some kv' ∧ Keeps kv es kv' es' := by
  induction n generalizing i kv es with
  | zero => exact ⟨kv, es, rfl, .refl h hkeys⟩
  | succ n ih =>
    obtain ⟨kv1, es1, hreset, hk1, hother⟩ :=
      kvblockReset_mixed h hkeys (by omega) (hsafe i le_rfl (by omega))
    obtain ⟨kv2, es2, hloop, hk2⟩ := ih (i := i+1) hk1.mixed (by rw [hk1.num_eq]; exact hk1.keys)
      (by rw [hk1.num_eq]; omega) (fun j h1 h2 => by
        rw [hother j (by omega)]
        exact hsafe j (by omega) (by omega))
    refine ⟨kv2, es2, ?_, hk1.trans hk2⟩
    rw [resetLoop, hreset, bind_some, hloop]

end Calls

end PineVoice.Kv
