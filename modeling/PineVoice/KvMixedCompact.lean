import PineVoice.KvMixedFind

/-!
# Compaction of a store with entries of both formats

`kv_gc` only moves records out of blocks without text lines. It appends them
to the reserve block, so the lines of the reserve stay where they are.
-/

namespace PineVoice.Kv

open Function NorFlash List Option

theorem SameFrame.refl (kv : Kvset) : SameFrame kv kv := ⟨rfl, rfl, rfl, rfl⟩

theorem SameFrame.trans {kv kv' kv'' : Kvset} (h : SameFrame kv kv') (h' : SameFrame kv' kv'') :
    SameFrame kv kv'' :=
  ⟨h'.size_eq.trans h.size_eq, h'.num_eq.trans h.num_eq, h'.bid_eq.trans h.bid_eq,
    h'.gcBid_eq.trans h.gcBid_eq⟩

section Sweep

variable {m : ℕ} {fn : KvNode → Kvset → Kvset × ℤ}

/-- A record is deleted in place, or it was the last one of its block. -/
theorem survivors_cases {pre post : List Entry} {s : Slot} (hlive : s.record.live = true) :
    survivors pre s post = pre ++ .slot s.kill :: post ∨ post.countP Entry.stored = 0 := by
  rw [survivors]
  split
  · exact .inl rfl
  · next hone =>
    rw [countP_around, Entry.stored_slot, if_pos hlive] at hone
    exact .inr (by omega)

/-- A call on every live record of a block: `pre` is dealt with, and a call
may change the record in place or empty the block if it was the last one. -/
theorem iterNodes_sweep {P : List Entry → Kvset → (ℕ → List Entry) → Prop} {snapshot : Mem}
    (hline : ∀ (l : Line) off kv, fn (l.node m off) kv = (kv, 0))
    (hskip : ∀ e rest kv es, Entry.stored e = false → P (e :: rest) kv es → P rest kv es)
    (hslot : ∀ pre s rest kv es, P (.slot s :: rest) kv es → es m = pre ++ .slot s :: rest →
      s.record.live = true → Holds snapshot (span pre) s.bytes →
      ∃ kv' es', fn (s.node m (span pre)) kv = (kv', 0) ∧ P rest kv' es' ∧
        (es' m = pre ++ .slot s.kill :: rest ∨ rest.countP Entry.stored = 0))
    {pre post : List Entry} {kv : Kvset} {es : ℕ → List Entry} (hP : P post kv es)
    (hes : es m = pre ++ post ∨ post.countP Entry.stored = 0)
    (hold : EntriesAt snapshot (span pre) post) :
    ∃ es', P [] (iterNodes true fn (entryNodes m (span pre) post) kv) es' := by
  induction post generalizing pre kv es with
  | nil => exact ⟨es, hP⟩
  | cons e post ih =>
    have hpre : span (pre ++ [e]) = span pre+e.bytes.length := by
      rw [span_append, span_cons, span_nil, add_zero]
    have hpass : es m = (pre ++ [e]) ++ post ∨ post.countP Entry.stored = 0 := by
      refine hes.imp (fun hes => by rw [hes, append_assoc]; rfl) fun hnone => ?_
      rw [countP_cons] at hnone
      omega
    have hlater := hold.2
    rw [←hpre] at hlater
    rw [entryNodes, iterNodes, Entry.node_valid, ←hpre]
    cases e with
    | line l =>
      rw [Entry.node, hline]
      exact ih (hskip _ _ _ _ rfl hP) hpass hlater
    | slot s =>
      rw [Entry.live_slot]
      cases hlive : s.record.live with
      | false =>
        exact ih (hskip (.slot s) _ _ _ hlive hP) hpass hlater
      | true =>
        have hhere := hes.resolve_right (by simp [hlive])
        obtain ⟨kv', es', hfn, hP', hnext⟩ := hslot pre s post kv es hP hhere hlive hold.1
        have hkill : span (pre ++ [.slot s.kill]) = span (pre ++ [.slot s]) := span_kill
        rw [←hkill] at hlater ⊢
        rw [Entry.node, hfn]
        exact ih hP' (hnext.imp_left fun h => h.trans (by rw [append_assoc]; rfl)) hlater

end Sweep

/-- What a compaction into block `g` does to the entries. -/
structure Moved (num g : ℕ) (es es' : ℕ → List Entry) : Prop where
  /-- The text lines stay. -/
  lines : ∀ i, linesAt 0 (es' i) = linesAt 0 (es i)
  /-- Other blocks with text lines stay. -/
  kept : ∀ i, i ≠ g → (es i).countP Entry.isLine ≠ 0 → es' i = es i
  /-- The reserve only grows. -/
  reserve : ∃ xs, es' g = es g ++ xs
  /-- Every key keeps its records. -/
  keys : ∀ key, keyCount num es' key = keyCount num es key

theorem Moved.refl (num g : ℕ) (es : ℕ → List Entry) : Moved num g es es :=
  ⟨fun _ => rfl, fun _ _ _ => rfl, ⟨[], (append_nil _).symm⟩, fun _ => rfl⟩

variable {g num : ℕ} {es es' : ℕ → List Entry}

theorem Moved.isLine (h : Moved num g es es') (i : ℕ) :
    (es' i).countP Entry.isLine = (es i).countP Entry.isLine := by
  rw [←linesAt_length 0, h.lines, linesAt_length]

theorem Moved.trans {es'' : ℕ → List Entry} (h : Moved num g es es') (h' : Moved num g es' es'')
    : Moved num g es es'' := by
  obtain ⟨xs, hxs⟩ := h.reserve
  obtain ⟨ys, hys⟩ := h'.reserve
  refine ⟨fun i => (h'.lines i).trans (h.lines i), fun i hi hline => ?_, ⟨xs ++ ys, ?_⟩,
    fun key => (h'.keys key).trans (h.keys key)⟩
  · rw [h'.kept i hi (by rw [h.isLine]; exact hline), h.kept i hi hline]
  · rw [hys, hxs, append_assoc]

section Move

variable {kv : Kvset} {es : ℕ → List Entry} {g m : ℕ} {snapshot : Mem}

variable {post pre : List Entry} {s : Slot}

/-- The entries after one record was copied and then deleted. -/
theorem moved_step {num : ℕ} (hg : g < num) (hm : m < num) (hne : m ≠ g)
    (hro : (es m).countP Entry.isLine = 0) (hes : es m = pre ++ .slot s :: post)
    (hlive : s.record.live = true) (hst : Storable s.record.key s.record.value) (version : UInt8) :
    Moved num g es (update (update es g (appended (es g) hst version)) m
      (survivors pre s post)) := by
  have hmid : update es g (appended (es g) hst version) m = pre ++ .slot s :: post := by
    rw [update_of_ne hne, hes]
  have hlines : linesAt 0 (survivors pre s post) = linesAt 0 (es m) := by
    rw [survivors_lines (.inl (by rw [←hes]; exact hro)), hes]
  refine ⟨fun i => ?_, fun i hi hline => ?_, ?_, fun key => ?_⟩
  · by_cases him : i = m
    · subst him
      rw [update_self, hlines]
    · rw [update_of_ne him]
      by_cases hig : i = g
      · subst hig
        rw [update_self, appended_lines]
      · rw [update_of_ne hig]
  · have him : i ≠ m := by
      rintro rfl
      exact hline hro
    rw [update_of_ne him, update_of_ne hi]
  · rw [update_of_ne hne.symm, update_self]
    exact ⟨_, rfl⟩
  · have hadd := keyCount_appended es hg hst version key
    have hrm := keyCount_survivors hm hmid hlive key
    omega

/-- `_kvblock_deep_gc` on a live record that fits into the reserve. -/
theorem kvblockDeepGc_mixed (h : Mixed kv es) (hg : g < kv.num) (hm : m < kv.num) (hne : m ≠ g)
    (hro : (es m).countP Entry.isLine = 0) (hes : es m = pre ++ .slot s :: post)
    (hlive : s.record.live = true) (hold : Holds snapshot (span pre) s.bytes)
    (hroom : align4 (span (es g))+s.record.nodeSize+4 ≤ kv.size) :
    ∃ kv' es', kvblockDeepGc kv.size snapshot g (s.node m (span pre)) kv = (kv', 0) ∧
      Mixed kv' es' ∧ Moved kv.num g es es' ∧ SameFrame kv kv' ∧ es' m = survivors pre s post ∧
      span (es' g) = align4 (span (es g))+s.record.nodeSize := by
  have hge := h.size_ge
  have hrec := Slot.holds_record hold
  have hkey : cstrAt snapshot (s.node m (span pre)).headOffset kv.size = s.record.key :=
    Rec.cstrAt_key hrec (by omega)
  have hvalue : readBytes snapshot (s.node m (span pre)).valueOffset
      (s.node m (span pre)).valSize = s.record.value := by
    have hread := readBytes_value hrec s.record.value.length
    rwa [Nat.min_self, take_length] at hread
  rw [kvblockDeepGc]
  simp only [hkey, hvalue]
  rcases kvblockSet_mixed h hg s.record.key_nul s.record.key_quiet s.record.value_pos
    s.record.size_lt (nextVersion (s.node m (span pre)).version) with
    ⟨-, hfull⟩ | ⟨hst, kv1, hset, h1, hframe⟩
  · have hlt := hfull s.record.key_pos s.record.key_le
    rw [Rec.nodeSize] at hroom
    omega
  · have hmid : update es g (appended (es g) hst
        (UInt8.ofNat (nextVersion (s.node m (span pre)).version &&& 0xFF))) m =
          pre ++ .slot s :: post := by
      rw [update_of_ne hne, hes]
    have h2 := kvnodeRm_mixed h1 (by rw [hframe.num_eq]; exact hm) hmid hlive
      (.inl (by rw [hmid, ←hes]; exact hro))
    rw [hset]
    refine ⟨_, _, rfl, h2, moved_step hg hm hne hro hes hlive hst _,
      hframe.trans (kvnodeRm_frame _ _), update_self _ _ _, ?_⟩
    rw [update_of_ne hne.symm, update_self, appended_bytes_length]
    rfl

theorem weight_mod {list : List Entry} (h : list.countP Entry.isLine = 0) :
    weight list % 4 = 0 := by
  induction list with
  | nil => rfl
  | cons e list ih =>
    rw [countP_cons] at h
    rw [weight_cons]
    cases e with
    | line l =>
      rw [Entry.isLine_line, if_pos rfl] at h
      omega
    | slot s =>
      have hal := align4_spec (s.record.key.length+s.record.value.length+6)
      rw [Entry.weight]
      split
      · rw [Rec.nodeSize]
        omega
      · omega

/-- Live bytes belong to live records where there are no text lines. -/
theorem weight_of_stored {e : Entry} (hl : e.isLine = false) (hs : e.stored = false) :
    e.weight = 0 := by
  cases e with
  | line l => cases hl
  | slot s => exact if_neg (by rw [show s.record.live = false from hs]; decide)

/-- A round of `kv_gc`: a block without text lines whose live records fit into
the reserve is moved there. -/
theorem deepGc_mixed (h : Mixed kv es) (hg : g < kv.num) (hm : m < kv.num) (hne : m ≠ g)
    (hro : (es m).countP Entry.isLine = 0)
    (hfit : weight (es m)+align4 (span (es g)) < kv.size) :
    ∃ kv' es', kvblockIter kv.size (kv.mem m) m true (kvblockDeepGc kv.size (kv.mem m) g)
        iterFuel 0 kv = some kv' ∧
      Mixed kv' es' ∧ Moved kv.num g es es' ∧ SameFrame kv kv' ∧
      align4 (span (es g))+weight (es m) ≤ align4 (span (es' g)) := by
  have hb := h.block m hm
  have hmod := weight_mod hro
  have hal := align4_spec (span (es g))
  have hsize := h.size_mod
  let P : List Entry → Kvset → (ℕ → List Entry) → Prop := fun rest kv' es' =>
    Mixed kv' es' ∧ Moved kv.num g es es' ∧ SameFrame kv kv' ∧
      rest.countP Entry.isLine = 0 ∧ align4 (span (es' g))+weight rest+4 ≤ kv.size ∧
      align4 (span (es g))+weight (es m) ≤ align4 (span (es' g))+weight rest
  have hstart : P (es m) kv es :=
    ⟨h, .refl _ _ _, .refl _, hro, by omega, le_rfl⟩
  have hskip : ∀ e rest kv' es', Entry.stored e = false → P (e :: rest) kv' es' →
      P rest kv' es' := by
    rintro e rest kv' es' he ⟨h1, h2, h3, h4, h5, h6⟩
    obtain ⟨hl, h4⟩ : e.isLine = false ∧ rest.countP Entry.isLine = 0 := by
      simpa [and_comm] using h4
    rw [weight_cons, weight_of_stored hl he] at h5 h6
    exact ⟨h1, h2, h3, h4, by omega, by omega⟩
  have hslot : ∀ pre s rest kv' es', P (.slot s :: rest) kv' es' →
      es' m = pre ++ .slot s :: rest → s.record.live = true →
      Holds (kv.mem m) (span pre) s.bytes →
      ∃ kv'' es'', kvblockDeepGc kv.size (kv.mem m) g (s.node m (span pre)) kv' = (kv'', 0) ∧
        P rest kv'' es'' ∧
        (es'' m = pre ++ .slot s.kill :: rest ∨ rest.countP Entry.stored = 0) := by
    rintro pre s rest kv' es' ⟨h1, h2, h3, h4, h5, h6⟩ hes hlive hold
    have hw : (Entry.slot s).weight = s.record.nodeSize := if_pos hlive
    have hs := align4_spec (s.record.key.length+s.record.value.length+6)
    have hal' := align4_spec (span (es' g))
    rw [weight_cons] at h5 h6
    obtain ⟨kv'', es'', hdeep, h1', h2', h3', hm', hg'⟩ := kvblockDeepGc_mixed h1
      (by rw [h3.num_eq]; exact hg) (by rw [h3.num_eq]; exact hm) hne
      (by rw [h2.isLine]; exact hro) hes hlive hold (by rw [h3.size_eq]; omega)
    rw [h3.size_eq] at hdeep
    rw [h3.num_eq] at h2'
    have halign : align4 (span (es'' g)) = align4 (span (es' g))+s.record.nodeSize := by
      rw [hg']
      exact align4_of_mod (by rw [Rec.nodeSize]; omega)
    refine ⟨kv'', es'', hdeep, ⟨h1', h2.trans h2', h3.trans h3', ?_, by omega, by omega⟩, ?_⟩
    · simpa [countP_cons] using h4
    · rw [hm']
      exact survivors_cases hlive
  obtain ⟨es', h1, h2, h3, -, -, h6⟩ := iterNodes_sweep
    (fun l off kv' => by rw [kvblockDeepGc, if_neg (by exact Bool.false_ne_true)]) hskip hslot
    hstart (.inl (nil_append _).symm) hb.stored
  refine ⟨_, es', ?_, h1, h2, h3, h6⟩
  exact kvblockIter_entries m true _ kv hb.stored hb.room h.size_lt hb.blank

end Move

section Loop

variable {kv : Kvset} {es : ℕ → List Entry} {g : ℕ}

/-- The loop of `kv_gc` ends: each round fills the reserve further. -/
theorem gcLoop_mixed (h : Mixed kv es) (hg : g < kv.num) (n : ℕ) (newGc : Option ℕ)
    (hnew : ∀ x, newGc = some x → x < kv.num) (hn : kv.size-align4 (span (es g)) < n) :
    ∃ newGc' kv' es', gcLoop g n newGc kv = some (newGc', kv') ∧
      (∀ x, newGc' = some x → x < kv.num) ∧ Mixed kv' es' ∧ Moved kv.num g es es' ∧
      SameFrame kv kv' := by
  induction n generalizing kv es newGc with
  | zero => exact absurd hn (Nat.not_lt_zero _)
  | succ n ih =>
    rw [gcLoop]
    rcases minBlock_spec kv g kv.num 0 none (kv.size-(kv.blocks g).writeOffset) with
      ⟨hr, -⟩ | ⟨m, hr, -, hm, hro, hne, hpos, hlt, -⟩
    · rw [hr]
      exact ⟨newGc, kv, es, rfl, hnew, h, .refl _ _ _, .refl _⟩
    · rw [zero_add] at hm
      have hb := h.block m hm
      rw [hb.roCount] at hro
      rw [hb.kvSize] at hpos hlt
      rw [(h.block g hg).writeOffset] at hlt
      obtain ⟨kv1, es1, hiter, h1, hmoved, hframe, hgrow⟩ :=
        deepGc_mixed h hg hm hne hro (by omega)
      have hnew1 : ∀ x, (if (kv1.blocks m).count = 0 then some m else newGc) = some x →
          x < kv1.num := by
        intro x hx
        rw [hframe.num_eq]
        split at hx
        · rw [←Option.some.inj hx]
          exact hm
        · exact hnew x hx
      obtain ⟨newGc', kv2, es2, hloop, hnew2, h2, hmoved2, hframe2⟩ :=
        ih h1 (by rw [hframe.num_eq]; exact hg) _ hnew1 (by rw [hframe.size_eq]; omega)
      rw [hframe.num_eq] at hnew2 hmoved2
      rw [hr]
      refine ⟨newGc', kv2, es2, ?_, hnew2, h2, hmoved.trans hmoved2, hframe.trans hframe2⟩
      dsimp only
      rw [hiter]
      exact hloop

/-- `kv_gc` keeps the entries of a store up to the place of its records. -/
theorem kvGc_mixed (h : Mixed kv es) (hgc : kv.gcBid = some g) :
    ∃ ret kv' es', kvGc kv = some (ret, kv') ∧ Mixed kv' es' ∧ Moved kv.num g es es' ∧
      kv'.size = kv.size ∧ kv'.num = kv.num ∧ kv'.gcBid.isSome = true := by
  have hlt := h.size_lt
  obtain ⟨newGc, kv', es', hloop, hnew, h', hmoved, hframe⟩ :=
    gcLoop_mixed h (h.gc_lt g hgc) gcFuel none (by simp) (by rw [gcFuel]; omega)
  rw [kvGc, hgc, bind_some, hloop]
  cases newGc with
  | none =>
    exact ⟨_, kv', es', rfl, h', hmoved, hframe.size_eq, hframe.num_eq,
      by rw [hframe.gcBid_eq, hgc]; rfl⟩
  | some x =>
    refine ⟨_, { kv' with gcBid := some x }, es', rfl, ?_, hmoved, hframe.size_eq, hframe.num_eq,
      rfl⟩
    refine ⟨h'.size_ge, h'.size_lt, h'.size_mod, h'.bid_lt, fun y hy => ?_, h'.block⟩
    rw [←Option.some.inj hy]
    exact hframe.num_eq.symm ▸ hnew x rfl

end Loop

end PineVoice.Kv
