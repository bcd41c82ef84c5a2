import PineVoice.AosHash

/-!
# The hash table as a finite map, and its iterator

A run of `hash_set` and `hash_del` leaves the table that a finite map describes, and `keys_nb`
counts the keys. The iterator of the caller is cleared by `hash_iter_init`, which then sets the
table of another one.
-/

namespace PineVoice.AosHash

open Function

variable {α : Type}

/-- The loop of `hash_del`: the chain without the first entry with this key. -/
def chainDel (key : List UInt8) : List (List UInt8 × α) → List (List UInt8 × α)
  | [] => []
  | (k, v) :: chain => if key = k then chain else (k, v) :: chainDel key chain

/-- `hash_key_is_valid`. -/
def hashKeyIsValid (table : HashTable α) (key : List UInt8) : Bool :=
  (chainGet key (table.entries (hashKey table.size key))).isSome

/-- `hash_del`, with its result. -/
def hashDel (table : HashTable α) (key : List UInt8) : HashTable α × ℤ :=
  let idx := hashKey table.size key
  let chain := table.entries idx
  match chainGet key chain with
  | some _ => ({ table with
      entries := update table.entries idx (chainDel key chain)
      keysNb := table.keysNb-1 }, 0)
  | none => (table, -1)

/-- A call that changes the table. -/
inductive Call (α : Type) where
  | set (key : List UInt8) (data : α)
  | del (key : List UInt8)

/-- The table after a call. -/
def Call.run (table : HashTable α) : Call α → HashTable α
  | .set key data => hashSet table key data
  | .del key => (hashDel table key).1

/-- The map after a call. -/
def Call.apply (map : List UInt8 → Option α) : Call α → List UInt8 → Option α
  | .set key data => update map key (some data)
  | .del key => update map key none

section Chains

variable {key : List UInt8} {data : α} {chain : List (List UInt8 × α)}

theorem chainGet_isSome : (chainGet key chain).isSome ↔ key ∈ chain.map Prod.fst := by
  induction chain with
  | nil => simp [chainGet]
  | cons entry chain ih =>
    by_cases h : key = entry.1
    · simp [chainGet, h]
    · simp [chainGet, h, ih]

theorem chainPut_keys : (chainPut key data chain).map Prod.fst = chain.map Prod.fst := by
  induction chain with
  | nil => rfl
  | cons entry chain ih =>
    by_cases h : key = entry.1
    · simp [chainPut, h]
    · simp [chainPut, h, ih]

theorem chainDel_sublist : (chainDel key chain).Sublist chain := by
  induction chain with
  | nil => exact List.Sublist.slnil
  | cons entry chain ih =>
    by_cases h : key = entry.1
    · simp [chainDel, h]
    · simpa [chainDel, h] using ih

/-- In a chain without doubles the key is gone afterwards. -/
theorem chainGet_chainDel (h : (chain.map Prod.fst).Nodup) (k : List UInt8) :
    chainGet k (chainDel key chain) = if k = key then none else chainGet k chain := by
  induction chain with
  | nil => simp [chainDel, chainGet]
  | cons entry chain ih =>
    obtain ⟨k0, v0⟩ := entry
    rw [List.map_cons, List.nodup_cons] at h
    by_cases hk : key = k0
    · subst hk
      have hgone : chainGet key chain = none := by
        rw [← Option.not_isSome_iff_eq_none, chainGet_isSome]
        exact h.1
      by_cases he : k = key
      · simp [chainDel, he, hgone]
      · simp [chainDel, chainGet, he]
    · by_cases he : k = k0
      · simp [chainDel, chainGet, hk, he, Ne.symm hk]
      · simp [chainDel, chainGet, hk, he, ih h.2]

end Chains

/-- The table holds this map: no chain has a key twice, and the keys are counted. -/
structure Holds (table : HashTable α) (map : List UInt8 → Option α) : Prop where
  /-- A key is in its chain once. -/
  nodup : ∀ i, ((table.entries i).map Prod.fst).Nodup
  /-- A lookup gives the value of the map. -/
  get : ∀ key, hashGet2 table key = map key
  /-- `keys_nb` is the number of keys. -/
  count : ∃ keys : List (List UInt8), keys.Nodup ∧ (∀ key, key ∈ keys ↔ (map key).isSome) ∧
    table.keysNb = keys.length

theorem Holds.init (size : ℕ) : Holds (hashInit size : HashTable α) fun _ => none :=
  ⟨fun _ => List.nodup_nil, fun _ => rfl, [], List.nodup_nil, by simp, rfl⟩

variable {table : HashTable α} {map : List UInt8 → Option α}

/-- The chain of a key decides whether the map has it. -/
theorem Holds.chain (h : Holds table map) (key : List UInt8) :
    chainGet key (table.entries (hashKey table.size key)) = map key := h.get key

/-- Each chain keeps its keys once if the changed one does. -/
theorem Holds.nodup_update (h : Holds table map) (idx : ℕ) {chain : List (List UInt8 × α)}
    (hchain : (chain.map Prod.fst).Nodup) (i : ℕ) :
    ((update table.entries idx chain i).map Prod.fst).Nodup :=
  (forall_update_iff table.entries fun _ c => (c.map Prod.fst).Nodup).mpr
    ⟨hchain, fun i _ => h.nodup i⟩ i

theorem Holds.set (h : Holds table map) (key : List UInt8) (data : α) :
    Holds (hashSet table key data) (update map key (some data)) := by
  have hget : ∀ k, hashGet2 (hashSet table key data) k = update map key (some data) k := fun k => by
    rw [hashGet2_hashSet, h.get, update_apply]
  have hchain := h.chain key
  obtain ⟨keys, hnodup, hmem, hcount⟩ := h.count
  cases hc : map key with
  | some v =>
    rw [hc] at hchain
    refine ⟨?_, hget, keys, hnodup, fun k => ?_, by simp [hashSet, hchain, hcount]⟩
    · simp only [hashSet, hchain]
      exact h.nodup_update _ (by rw [chainPut_keys]; exact h.nodup _)
    · by_cases hk : k = key
      · rw [hk, hmem, hc, update_self]
        rfl
      · rw [hmem, update_of_ne hk]
  | none =>
    rw [hc] at hchain
    have hfresh : key ∉ keys := by simp [hmem, hc]
    refine ⟨?_, hget, key :: keys, List.nodup_cons.mpr ⟨hfresh, hnodup⟩, fun k => ?_,
      by simp [hashSet, hchain, hcount]⟩
    · simp only [hashSet, hchain]
      refine h.nodup_update _ (List.nodup_cons.mpr ⟨?_, h.nodup _⟩)
      rw [← chainGet_isSome, hchain]
      exact Bool.false_ne_true
    · by_cases hk : k = key
      · rw [hk, update_self]
        exact iff_of_true List.mem_cons_self rfl
      · rw [List.mem_cons, or_iff_right hk, hmem, update_of_ne hk]

theorem Holds.del (h : Holds table map) (key : List UInt8) :
    Holds (hashDel table key).1 (update map key none) := by
  have hchain := h.chain key
  cases hc : map key with
  | none =>
    rw [hc] at hchain
    rw [← hc, update_eq_self]
    simpa only [hashDel, hchain] using h
  | some v =>
    rw [hc] at hchain
    obtain ⟨keys, hnodup, hmem, hcount⟩ := h.count
    have hin : key ∈ keys := by simp [hmem, hc]
    refine ⟨?_, fun k => ?_, keys.erase key, hnodup.erase key, fun k => ?_,
      by simp [hashDel, hchain, hcount, List.length_erase_of_mem hin]⟩
    · simp only [hashDel, hchain]
      exact h.nodup_update _ ((h.nodup _).sublist (chainDel_sublist.map _))
    · simp only [hashDel, hchain, hashGet2]
      by_cases hb : hashKey table.size k = hashKey table.size key
      · rw [hb, update_self, chainGet_chainDel (h.nodup _), ← hb, h.chain, update_apply]
      · rw [update_of_ne hb, h.chain, update_of_ne fun hk => hb (by rw [hk])]
    · rw [hnodup.mem_erase_iff, hmem]
      by_cases hk : k = key
      · rw [hk, update_self]
        exact iff_of_false (fun hne => hne.1 rfl) Bool.false_ne_true
      · rw [and_iff_right hk, update_of_ne hk]

/-- Any calls keep the table and the map together. -/
theorem Holds.foldl (h : Holds table map) (calls : List (Call α)) :
    Holds (calls.foldl Call.run table) (calls.foldl Call.apply map) := by
  induction calls generalizing table map with
  | nil => exact h
  | cons call calls ih =>
    cases call with
    | set key data => exact ih (h.set key data)
    | del key => exact ih (h.del key)

/-- After any calls on a new table the lookups report exactly the keys set and not deleted
since, with their last values, `hash_del` succeeds for these keys only, and `keys_nb` is their
number. -/
theorem hash_is_map (size : ℕ) (calls : List (Call α)) :
    let table := calls.foldl Call.run (hashInit size)
    let map := calls.foldl Call.apply fun _ => none
    (∀ key, hashGet2 table key = map key ∧ (hashKeyIsValid table key ↔ (map key).isSome) ∧
      ((hashDel table key).2 = 0 ↔ (map key).isSome)) ∧
    ∃ keys : List (List UInt8), keys.Nodup ∧ (∀ key, key ∈ keys ↔ (map key).isSome) ∧
      table.keysNb = keys.length := by
  intro table map
  have h : Holds table map := (Holds.init size).foldl calls
  refine ⟨fun key => ⟨h.get key, ?_, ?_⟩, h.count⟩
  · rw [hashKeyIsValid, h.chain]
  · have hchain := h.chain key
    cases hc : map key with
    | none => simp [hashDel, hchain, hc]
    | some v => simp [hashDel, hchain, hc]

section Iterator

/-- `hash_iter_t`. The entry is the rest of its chain from there on, empty for `NULL`. -/
structure HashIter (α : Type) where
  /-- `table`, or `NULL`. -/
  table : Option (HashTable α)
  /-- `entry`. -/
  entry : List (List UInt8 × α)
  /-- `idx`. -/
  idx : ℕ

/-- `hash_iter_init`: the iterator of the caller, and the one that is allocated. -/
def hashIterInit (table : HashTable α) (malloc : HashIter α) : HashIter α × HashIter α :=
  let iter : HashIter α := ⟨none, [], 0⟩
  (iter, { malloc with table := some table })

/-- The loop over the buckets: the first chain that is not empty, and the next `idx`. -/
def iterSeek (table : HashTable α) : ℕ → ℕ → List (List UInt8 × α) × ℕ
  | 0, idx => ([], idx)
  | left+1, idx =>
    match table.entries idx with
    | [] => iterSeek table left (idx+1)
    | entry => (entry, idx+1)

/-- `hash_iter_foreach`: the key, or `none` for `NULL`. -/
def hashIterForeach (iter : HashIter α) : Option (List UInt8) × HashIter α :=
  match iter.table with
  | none => (none, iter)
  | some table =>
    let (entry, idx) := match iter.entry with
      | _ :: next => (next, iter.idx)
      | [] => iterSeek table (table.size-iter.idx) iter.idx
    match entry with
    | [] => (none, { iter with idx := idx })
    | (key, _) :: _ =>
      if table.size < idx then (none, { iter with idx := idx })
      else (some key, { iter with entry := entry, idx := idx })

/-- The result of the call after `n` others. -/
def iterNth (iter : HashIter α) : ℕ → Option (List UInt8)
  | 0 => (hashIterForeach iter).1
  | n+1 => iterNth (hashIterForeach iter).2 n

/-- Without a table nothing is visited. -/
theorem iterNth_init (table : HashTable α) (malloc : HashIter α) (n : ℕ) :
    iterNth (hashIterInit table malloc).1 n = none := by
  induction n with
  | zero => rfl
  | succ n ih => exact ih

/-- The iterator visits every key of a table once and then gives `NULL`, if and only if the
table has no key. -/
theorem iter_visits_iff (size : ℕ) (calls : List (Call α)) (malloc : HashIter α) :
    let table := calls.foldl Call.run (hashInit size)
    (∃ keys : List (List UInt8), keys.Nodup ∧ (∀ key, key ∈ keys ↔ hashKeyIsValid table key) ∧
      ∀ n, iterNth (hashIterInit table malloc).1 n = keys[n]?) ↔
      ∀ key, hashKeyIsValid table key = false := by
  intro table
  constructor
  · rintro ⟨keys, -, hmem, hvisit⟩ key
    have hnil : keys = [] := by
      rw [← List.head?_eq_none_iff, List.head?_eq_getElem?, ← hvisit 0, iterNth_init]
    rw [hnil] at hmem
    simpa using (hmem key).symm
  · intro h
    exact ⟨[], List.nodup_nil, fun key => by simp [h key], fun n => by simp [iterNth_init]⟩

/-- One key is set and none is visited. -/
theorem iter_visits_none :
    let table : HashTable ℕ := hashSet (hashInit 1) [97] 0
    hashKeyIsValid table [97] = true ∧
      ∀ n, iterNth (hashIterInit table ⟨none, [], 0⟩).1 n = none :=
  ⟨by decide, iterNth_init _ _⟩

end Iterator

end PineVoice.AosHash
