import Mathlib.Data.List.Basic
import Mathlib.Data.List.Count

/-!
# Accounting for allocated blocks

A heap hands out numbered blocks and remembers what was freed. Every block it handed out is
freed, still owned by somebody, or lost: freed exactly once are all of them if and only if
nothing is owned any more and nothing was lost.
-/

namespace PineVoice.Ledger

open List

/-- The blocks below `next` have been handed out. -/
structure Heap where
  /-- The next block to be handed out. -/
  next : ℕ
  /-- The blocks freed so far, the last one first. -/
  freed : List ℕ
deriving Repr, DecidableEq

/-- An allocation that succeeds or fails. -/
def Heap.alloc (h : Heap) : Bool → Option ℕ × Heap
  | true => (some h.next, { h with next := h.next+1 })
  | false => (none, h)

/-- Free a block; the null pointer is ignored. -/
def Heap.free (h : Heap) : Option ℕ → Heap
  | none => h
  | some b => { h with freed := b :: h.freed }

/-- Every block that was handed out has been freed exactly once. -/
def Heap.AllFreedOnce (h : Heap) : Prop :=
  ∀ b < h.next, h.freed.count b = 1

instance (h : Heap) : Decidable h.AllFreedOnce :=
  inferInstanceAs (Decidable (∀ b < h.next, h.freed.count b = 1))

/-- Every block that was handed out is counted once among the freed, the owned and the lost
ones, and no other block is. -/
def Accounts (h : Heap) (owned lost : List ℕ) : Prop :=
  ∀ b, h.freed.count b+owned.count b+lost.count b = if b < h.next then 1 else 0

variable {h : Heap} {owned owned' lost : List ℕ}

theorem Accounts.perm (ha : Accounts h owned lost) (hperm : owned.Perm owned') :
    Accounts h owned' lost := by
  intro b
  rw [← hperm.count_eq b]
  exact ha b

/-- Nothing has been handed out by an empty heap. -/
theorem accounts_empty : Accounts ⟨0, []⟩ [] [] :=
  fun _ => rfl

/-- An allocated block is owned. -/
theorem Accounts.alloc (ha : Accounts h owned lost) (ok : Bool) :
    Accounts (h.alloc ok).2 ((h.alloc ok).1.toList++owned) lost := by
  intro b
  have hb := ha b
  cases ok with
  | false => exact hb
  | true =>
    change h.freed.count b+(h.next :: owned).count b+lost.count b = if b < h.next+1 then 1 else 0
    rw [count_cons]
    by_cases heq : h.next = b
    · rw [if_neg (by omega)] at hb
      rw [if_pos (beq_iff_eq.mpr heq), if_pos (by omega)]
      omega
    · have hiff : b < h.next+1 ↔ b < h.next := by omega
      rw [if_neg (mt beq_iff_eq.mp heq), if_congr hiff rfl rfl]
      exact hb

/-- A freed block was owned. -/
theorem Accounts.free {p : Option ℕ} (ha : Accounts h (p.toList++owned) lost) :
    Accounts (h.free p) owned lost := by
  intro b
  have hb := ha b
  cases p with
  | none => exact hb
  | some q =>
    change h.freed.count b+(q :: owned).count b+lost.count b = _ at hb
    change (q :: h.freed).count b+owned.count b+lost.count b = if b < h.next then 1 else 0
    rw [count_cons] at hb ⊢
    omega

/-- An owned block that nobody remembers is lost. -/
theorem Accounts.lose (forgotten : List ℕ) (ha : Accounts h (forgotten++owned) lost) :
    Accounts h owned (forgotten++lost) := by
  intro b
  have hb := ha b
  rw [count_append] at hb ⊢
  omega

/-- Once nothing is owned, all blocks are freed exactly once unless one was lost. -/
theorem allFreedOnce_iff (ha : Accounts h [] lost) : h.AllFreedOnce ↔ lost = [] := by
  constructor
  · intro hall
    rw [eq_nil_iff_forall_not_mem]
    intro b hmem
    have hpos := List.count_pos_iff.mpr hmem
    have hb := ha b
    by_cases hlt : b < h.next
    · have hone := hall b hlt
      rw [if_pos hlt] at hb
      omega
    · rw [if_neg hlt] at hb
      omega
  · rintro rfl b hlt
    have hb := ha b
    rwa [if_pos hlt] at hb

end PineVoice.Ledger
