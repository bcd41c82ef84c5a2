import Mathlib.Tactic

/-!
# The string hash table of the operating-system layer

A table is an array of chains, newest entry first. Keys are the bytes of a
C string without its terminator. Allocation always succeeds.
-/

namespace PineVoice.AosHash

open Function

/-- `hash_t`: the bucket count, the number of keys and the chains. -/
structure HashTable (α : Type) where
  /-- Number of buckets. -/
  size : ℕ
  /-- Number of stored keys. -/
  keysNb : ℕ
  /-- Chain of every bucket. -/
  entries : ℕ → List (List UInt8 × α)

variable {α : Type}

/-- `hash_init` on a positive table size. -/
def hashInit (size : ℕ) : HashTable α := ⟨size, 0, fun _ => []⟩

/-- The loop of `_hash_key`: every byte is shifted by 0, 4, .., 24 in turn. -/
def hashKeyLoop : List UInt8 → ℕ → ℕ → ℕ
  | [], _, hash => hash
  | c :: key, shift, hash =>
    hashKeyLoop key (if 24 < shift+4 then 0 else shift+4) (hash ^^^ (c.toNat <<< shift) % 2^32)

/-- `_hash_key`: the bucket of a key. -/
def hashKey (size : ℕ) (key : List UInt8) : ℕ :=
  if size = 1 then 0 else hashKeyLoop key 0 0 % size

/-- First entry of a chain with this key. -/
def chainGet (key : List UInt8) : List (List UInt8 × α) → Option α
  | [] => none
  | (k, v) :: chain => if key = k then some v else chainGet key chain

/-- Overwrite the first entry of a chain with this key. -/
def chainPut (key : List UInt8) (data : α) : List (List UInt8 × α) → List (List UInt8 × α)
  | [] => []
  | (k, v) :: chain => if key = k then (k, data) :: chain else (k, v) :: chainPut key data chain

/-- `hash_get2`: the value of a key, `none` where `valid` is cleared. -/
def hashGet2 (table : HashTable α) (key : List UInt8) : Option α :=
  chainGet key (table.entries (hashKey table.size key))

/-- `hash_set`: overwrite an entry or push a new one in front of its chain. -/
def hashSet (table : HashTable α) (key : List UInt8) (data : α) : HashTable α :=
  let idx := hashKey table.size key
  let chain := table.entries idx
  match chainGet key chain with
  | some _ => { table with entries := update table.entries idx (chainPut key data chain) }
  | none => { table with
      entries := update table.entries idx ((key, data) :: chain)
      keysNb := table.keysNb+1 }

theorem chainGet_chainPut {key : List UInt8} {data : α} {chain : List (List UInt8 × α)}
    (h : (chainGet key chain).isSome) (k : List UInt8) :
    chainGet k (chainPut key data chain) = if k = key then some data else chainGet k chain := by
  induction chain with
  | nil => simp only [chainGet, Option.isSome_none, Bool.false_eq_true] at h
  | cons entry chain ih =>
    obtain ⟨k0, v0⟩ := entry
    by_cases hk : key = k0
    · subst hk
      simp only [chainPut, if_true, chainGet]
      split <;> rfl
    · simp only [chainGet, if_neg hk] at h
      simp only [chainPut, if_neg hk, chainGet, ih h]
      by_cases he : k = k0
      · subst he
        rw [if_pos rfl, if_neg fun h => hk h.symm, if_pos rfl]
      · rw [if_neg he, if_neg he]

@[simp] theorem hashGet2_hashInit (size : ℕ) (key : List UInt8) :
    hashGet2 (hashInit size : HashTable α) key = none := rfl

/-- A lookup sees the last value set under its key and nothing else. -/
theorem hashGet2_hashSet (table : HashTable α) (key k : List UInt8) (data : α) :
    hashGet2 (hashSet table key data) k = if k = key then some data else hashGet2 table k := by
  cases hc : chainGet key (table.entries (hashKey table.size key)) with
  | none =>
    simp only [hashSet, hc, hashGet2]
    by_cases hb : hashKey table.size k = hashKey table.size key
    · rw [hb, update_self, chainGet]
    · rw [update_of_ne hb, if_neg fun h => hb (by rw [h])]
  | some v =>
    simp only [hashSet, hc, hashGet2]
    by_cases hb : hashKey table.size k = hashKey table.size key
    · rw [hb, update_self, chainGet_chainPut (by rw [hc]; rfl)]
    · rw [update_of_ne hb, if_neg fun h => hb (by rw [h])]

end PineVoice.AosHash
