import PineVoice.KvMixed

/-!
# Lookups in a store with entries of both formats

`kv_find` reports a live record with the key if there is one, and otherwise
nothing or a text line. Appending a record and deleting one change the number
of live records of a key by one.
-/

namespace PineVoice.Kv

open Function NorFlash List

section Find

variable {m : Mem} {key : List UInt8} {off : ℕ}

theorem Slot.holds_record {s : Slot} (h : Holds m off s.bytes) :
    Holds m (off+s.zeros+s.junk.length) s.record.bytes := by
  rw [Slot.bytes, holds_append, length_replicate, holds_append] at h
  exact h.2.2

/-- A live record with the key among entries, and its node. -/
def FoundIn (key : List UInt8) (block off : ℕ) (es : List Entry) (node : KvNode) : Prop :=
  ∃ pre s post, es = pre ++ .slot s :: post ∧ s.record.live = true ∧ s.record.key = key ∧
    node = s.node block (off+span pre)

theorem FoundIn.cons {block : ℕ} {e : Entry} {es : List Entry} {node : KvNode}
    (h : FoundIn key block (off+e.bytes.length) es node) :
    FoundIn key block off (e :: es) node := by
  obtain ⟨pre, s, post, rfl, hlive, hkey, rfl⟩ := h
  exact ⟨e :: pre, s, post, rfl, hlive, hkey, by rw [span_cons, add_assoc]⟩

theorem hasKey_of_not_live {es : List Entry} (h : es.countP Entry.live = 0) :
    es.countP (Entry.hasKey key) = 0 := by
  have hsplit := countP_live es
  have hle := hasKey_le_stored es key
  omega

/-- What a search for a key among entries may report: a live record with the
key, or, if there is none, nothing or a text line. -/
def FindSpec (key : List UInt8) (block off : ℕ) (es : List Entry) (found : Option KvNode) : Prop :=
  (∃ node, found = some node ∧ FoundIn key block off es node) ∨
    es.countP (Entry.hasKey key) = 0 ∧ ∀ node, found = some node → node.rw = false

theorem FindSpec.cons {block : ℕ} {e : Entry} {es : List Entry} {found : Option KvNode}
    (h : FindSpec key block (off+e.bytes.length) es found) (he : e.hasKey key = false) :
    FindSpec key block off (e :: es) found := by
  rcases h with ⟨node, hnode, hin⟩ | ⟨hnone, hro⟩
  · exact .inl ⟨node, hnode, hin.cons⟩
  · refine .inr ⟨?_, hro⟩
    rw [countP_cons, he, hnone]
    rfl

/-- `_iter_find` on a live entry: a record with the key ends the search, and
everything else counts down. -/
theorem iterFind_entry (block : ℕ) {e : Entry} (hk : 0 ∉ key) (he : Holds m off e.bytes)
    (hl : e.live = true) (count : ℤ) {found : Option KvNode}
    (hfound : ∀ node, found = some node → node.rw = false) :
    (iterFind m key (e.node block off) (count, found) = ((count, some (e.node block off)), -1) ∧
      ∃ s, e = .slot s ∧ s.record.key = key) ∨
    e.hasKey key = false ∧ ∃ found', (∀ node, found' = some node → node.rw = false) ∧
      iterFind m key (e.node block off) (count, found) =
        ((count-1, found'), if 0 < count-1 then 0 else -1) := by
  cases e with
  | line l =>
    refine .inr ⟨rfl, if kvnodeCmpName m (l.node block off) key = 0 then
      some (l.node block off) else found, fun node hnode => ?_, ?_⟩
    · split at hnode
      · rw [←Option.some.inj hnode]
        rfl
      · exact hfound node hnode
    · rw [iterFind, if_neg fun hc => Bool.false_ne_true hc.2]
      rfl
  | slot s =>
    have hcmp := kvnodeCmpName_rec block (Slot.holds_record he) hk
    by_cases hkey : s.record.key = key
    · exact .inl ⟨iterFind_hit (hcmp.mpr hkey.symm) rfl, s, rfl, hkey⟩
    · refine .inr ⟨?_, found, hfound, iterFind_miss fun hc => hkey (hcmp.mp hc).symm⟩
      simp only [Entry.hasKey, Bool.and_eq_false_imp, beq_eq_false_iff_ne]
      exact fun _ => hkey

/-- `_iter_find` over entries with the counter of their block. -/
theorem iterFind_entries (block : ℕ) {es : List Entry} (hk : 0 ∉ key) (he : EntriesAt m off es)
    {found : Option KvNode} (hfound : ∀ node, found = some node → node.rw = false) :
    FindSpec key block off es (iterNodes true (iterFind m key) (entryNodes block off es)
      ((es.countP Entry.live : ℤ), found)).2 := by
  induction es generalizing off found with
  | nil => exact .inr ⟨rfl, hfound⟩
  | cons e es ih =>
    have hvalid : (e.node block off).valid = e.live := e.node_valid
    rw [entryNodes, iterNodes, hvalid, countP_cons]
    cases hl : e.live with
    | false =>
      have hkey : e.hasKey key = false := by
        cases e with
        | line l => cases hl
        | slot s => simp [Entry.hasKey, show s.record.live = false from hl]
      exact (ih he.2 hfound).cons hkey
    | true =>
      rw [if_pos rfl]
      rcases iterFind_entry block hk he.1 hl ((es.countP Entry.live+1 : ℕ) : ℤ) hfound with
        ⟨hhit, s, rfl, hkey⟩ | ⟨hno, found', hro, hpass⟩
      · rw [hhit]
        exact .inl ⟨_, rfl, [], s, es, rfl, hl, hkey, rfl⟩
      · rw [hpass, show ((es.countP Entry.live+1 : ℕ) : ℤ)-1 = es.countP Entry.live by
          push_cast; ring]
        by_cases hpos : 0 < es.countP Entry.live
        · rw [if_pos (show 0 < (es.countP Entry.live : ℤ) by omega)]
          exact (ih he.2 hro).cons hno
        · rw [if_neg (show ¬0 < (es.countP Entry.live : ℤ) by omega)]
          exact FindSpec.cons (.inr ⟨hasKey_of_not_live (by omega), hro⟩) hno

/-- `kvblock_find` over the entries of a block. -/
theorem kvblockFind_mixed {size : ℕ} {b : KvBlock} {es : List Entry} (id : ℕ)
    (h : MixedBlock size m b es) (hsize : size < 65536) (hk : 0 ∉ key) :
    ∃ found, kvblockFind size m id b key = some found ∧ FindSpec key id 0 es found := by
  have hspec := iterFind_entries id hk h.stored
    (show ∀ node, (none : Option KvNode) = some node → node.rw = false by simp)
  refine ⟨_, ?_, hspec⟩
  rw [kvblockFind, h.count, kvblockIter_entries id true _ _ h.stored h.room hsize h.blank,
    Option.map_some]

theorem FoundIn.rw {block : ℕ} {es : List Entry} {node : KvNode}
    (h : FoundIn key block off es node) : node.rw = true := by
  obtain ⟨pre, s, post, -, -, -, rfl⟩ := h
  rfl

theorem FoundIn.block {block : ℕ} {es : List Entry} {node : KvNode}
    (h : FoundIn key block off es node) : node.block = block := by
  obtain ⟨pre, s, post, -, -, -, rfl⟩ := h
  rfl

theorem FoundIn.append {block : ℕ} {es : List Entry} {node : KvNode}
    (h : FoundIn key block off es node) (xs : List Entry) :
    FoundIn key block off (es ++ xs) node := by
  obtain ⟨pre, s, post, rfl, hlive, hkey, rfl⟩ := h
  exact ⟨pre, s, post ++ xs, by rw [append_assoc]; rfl, hlive, hkey, rfl⟩

variable {kv : Kvset} {es : ℕ → List Entry}

/-- What a lookup may report: a live record with the key, or, if there is none
in the store, nothing or a text line. -/
def Reported (num : ℕ) (es : ℕ → List Entry) (key : List UInt8) (found : Option KvNode) : Prop :=
  (∃ j node, j < num ∧ found = some node ∧ FoundIn key j 0 (es j) node) ∨
    (∀ j, j < num → (es j).countP (Entry.hasKey key) = 0) ∧
      ∀ node, found = some node → node.rw = false

/-- The loop of `kv_find` over the blocks from `i` on. -/
theorem findLoop_mixed (h : Mixed kv es) (hk : 0 ∉ key) {n i : ℕ} (hn : i+n ≤ kv.num)
    {prev : Option KvNode} (hprev : ∀ node, prev = some node → node.rw = false) :
    ∃ found, findLoop kv key n i prev = some found ∧
      ((∃ j node, j < kv.num ∧ found = some node ∧ FoundIn key j 0 (es j) node) ∨
        (∀ j, i ≤ j → j < i+n → (es j).countP (Entry.hasKey key) = 0) ∧
          ∀ node, found = some node → node.rw = false) := by
  induction n generalizing i prev with
  | zero => exact ⟨prev, rfl, .inr ⟨fun j h1 h2 => by omega, hprev⟩⟩
  | succ n ih =>
    obtain ⟨found, hfind, hspec⟩ := kvblockFind_mixed i (h.block i (by omega)) h.size_lt hk
    rw [findLoop, hfind, Option.bind_some]
    rcases hspec with ⟨node, rfl, hin⟩ | ⟨hnone, hro⟩
    · dsimp only
      rw [if_pos hin.rw]
      exact ⟨_, rfl, .inl ⟨i, node, by omega, rfl, hin⟩⟩
    · have hnext : ∀ next : Option KvNode, (∀ node, next = some node → node.rw = false) →
          ∃ r, findLoop kv key n (i+1) next = some r ∧
            ((∃ j node, j < kv.num ∧ r = some node ∧ FoundIn key j 0 (es j) node) ∨
              (∀ j, i ≤ j → j < i+(n+1) → (es j).countP (Entry.hasKey key) = 0) ∧
                ∀ node, r = some node → node.rw = false) := by
        intro next hnext
        obtain ⟨r, hr, hcases⟩ := ih (show i+1+n ≤ kv.num by omega) hnext
        refine ⟨r, hr, hcases.imp_right fun hrest => ⟨fun j h1 h2 => ?_, hrest.2⟩⟩
        rcases eq_or_lt_of_le h1 with rfl | hlt
        · exact hnone
        · exact hrest.1 j hlt (by omega)
      cases found with
      | none => exact hnext prev hprev
      | some node =>
        dsimp only
        rw [if_neg (by rw [hro node rfl]; decide)]
        exact hnext _ hro

/-- `kv_find` returns what a lookup may report. -/
theorem kvFind_mixed (h : Mixed kv es) (hk : 0 ∉ key) :
    ∃ found, kvFind kv key = some found ∧ Reported kv.num es key found := by
  obtain ⟨found, hfound, hcases⟩ := findLoop_mixed h hk (show 0+kv.num ≤ kv.num by omega)
    (show ∀ node, (none : Option KvNode) = some node → node.rw = false by simp)
  exact ⟨found, hfound, hcases.imp_right fun hnone =>
    ⟨fun j hj => hnone.1 j (Nat.zero_le j) (by omega), hnone.2⟩⟩

end Find

section Keys

variable {num : ℕ} {es : ℕ → List Entry}

/-- Number of live records with a key in the store. -/
def keyCount (num : ℕ) (es : ℕ → List Entry) (key : List UInt8) : ℕ :=
  ∑ i ∈ Finset.range num, (es i).countP (Entry.hasKey key)

/-- Every key has at most one live record. -/
def UniqueKeys (num : ℕ) (es : ℕ → List Entry) : Prop := ∀ key, keyCount num es key ≤ 1

theorem keyCount_update (es : ℕ → List Entry) {id : ℕ} (hid : id < num) (list : List Entry)
    (key : List UInt8) :
    keyCount num (update es id list) key+(es id).countP (Entry.hasKey key) =
      keyCount num es key+list.countP (Entry.hasKey key) := by
  have hmem : id ∈ Finset.range num := Finset.mem_range.mpr hid
  have hsum : ∀ f : ℕ → List Entry, keyCount num f key = (f id).countP (Entry.hasKey key)+
        ∑ i ∈ (Finset.range num).erase id, (f i).countP (Entry.hasKey key) := fun f =>
    (Finset.add_sum_erase _ _ hmem).symm
  have hrest : ∑ i ∈ (Finset.range num).erase id,
      (update es id list i).countP (Entry.hasKey key) =
        ∑ i ∈ (Finset.range num).erase id, (es i).countP (Entry.hasKey key) :=
    Finset.sum_congr rfl fun i hi => by rw [update_of_ne (Finset.ne_of_mem_erase hi)]
  rw [hsum, hsum es, update_self]
  omega

theorem le_keyCount (es : ℕ → List Entry) {i : ℕ} (hi : i < num) (key : List UInt8) :
    (es i).countP (Entry.hasKey key) ≤ keyCount num es key :=
  Finset.single_le_sum (f := fun i => (es i).countP (Entry.hasKey key)) (fun _ _ => Nat.zero_le _)
    (Finset.mem_range.mpr hi)

theorem keyCount_eq_zero {key : List UInt8}
    (h : ∀ i, i < num → (es i).countP (Entry.hasKey key) = 0) : keyCount num es key = 0 :=
  Finset.sum_eq_zero fun i hi => h i (Finset.mem_range.mp hi)

theorem FoundIn.pos {key : List UInt8} {block off : ℕ} {list : List Entry} {node : KvNode}
    (h : FoundIn key block off list node) : 0 < list.countP (Entry.hasKey key) := by
  obtain ⟨pre, s, post, rfl, hlive, hkey, -⟩ := h
  have hself : Entry.hasKey key (.slot s) = true := by
    simp [Entry.hasKey, hlive, hkey]
  rw [countP_around, if_pos hself]
  omega

/-- Appending a record to a block. -/
theorem keyCount_appended (es : ℕ → List Entry) {id : ℕ} (hid : id < num)
    {key value : List UInt8} (hst : Storable key value) (version : UInt8) (k : List UInt8) :
    keyCount num (update es id (appended (es id) hst version)) k =
      keyCount num es k+(if key = k then 1 else 0) := by
  have hup := keyCount_update es hid (appended (es id) hst version) k
  rw [appended_hasKey] at hup
  omega

/-- Deleting a record of a block. -/
theorem keyCount_survivors {id : ℕ} (hid : id < num) {pre post : List Entry} {s : Slot}
    (hes : es id = pre ++ .slot s :: post) (hlive : s.record.live = true) (k : List UInt8) :
    keyCount num (update es id (survivors pre s post)) k+
      (if s.record.key = k then 1 else 0) = keyCount num es k := by
  have hup := keyCount_update es hid (survivors pre s post) k
  have hrm := survivors_hasKey pre post hlive k
  rw [hes] at hup
  omega

end Keys

end PineVoice.Kv
