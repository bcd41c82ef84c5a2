import Mathlib.Algebra.BigOperators.Group.List.Basic
import Mathlib.Algebra.Order.Ring.Nat

/-!
# Counting threads

The threads of a system are a list of program points. A weight says how much a thread at a program
point contributes to a count; the totals change by the weights of the one thread that moves.
-/

namespace PineVoice.Threads

open List

variable {P : Type*} {threads : List P} {i : ℕ} {p : P}

/-- The total of a weight. -/
def total (f : P → ℕ) (threads : List P) : ℕ := (threads.map f).sum

@[simp]
theorem total_nil (f : P → ℕ) : total f [] = 0 := rfl

@[simp]
theorem total_cons (f : P → ℕ) (p : P) (threads : List P) :
    total f (p :: threads) = f p+total f threads := by
  rw [total, map_cons, sum_cons, total]

/-- A new thread. -/
@[simp]
theorem total_concat (f : P → ℕ) (threads : List P) (p : P) :
    total f (threads ++ [p]) = total f threads+f p := by
  rw [total, total]
  simp

/-- A thread moves. -/
theorem total_set (h : threads[i]? = some p) (f : P → ℕ) (q : P) :
    total f (threads.set i q)+f p = total f threads+f q := by
  induction threads generalizing i with
  | nil => cases h
  | cons r threads ih =>
    cases i with
    | zero =>
      cases h
      rw [set_cons_zero, total_cons, total_cons]
      omega
    | succ i =>
      have hrest := ih (i := i) h
      rw [set_cons_succ, total_cons, total_cons]
      omega

/-- A thread contributes its weight. -/
theorem le_total (h : threads[i]? = some p) (f : P → ℕ) : f p ≤ total f threads := by
  induction threads generalizing i with
  | nil => cases h
  | cons r threads ih =>
    rw [total_cons]
    cases i with
    | zero =>
      cases h
      exact Nat.le_add_right ..
    | succ i => exact Nat.le_trans (ih (i := i) h) (Nat.le_add_left ..)

/-- A positive total has a thread that contributes to it. -/
theorem exists_of_total_pos {f : P → ℕ} (h : 0 < total f threads) :
    ∃ (i : ℕ) (p : P), threads[i]? = some p ∧ 0 < f p := by
  induction threads with
  | nil => cases h
  | cons r threads ih =>
    rw [total_cons] at h
    by_cases hr : 0 < f r
    · exact ⟨0, r, rfl, hr⟩
    · rcases ih (by omega) with ⟨i, p, hp, hpos⟩
      exact ⟨i+1, p, hp, hpos⟩

/-- Two weights bound a third one. -/
theorem total_le_add {f g h : P → ℕ} (hle : ∀ p, f p ≤ g p+h p) (threads : List P) :
    total f threads ≤ total g threads+total h threads := by
  induction threads with
  | nil => exact Nat.le_refl 0
  | cons r threads ih =>
    have := hle r
    rw [total_cons, total_cons, total_cons]
    omega

/-- A weight inside the lock is zero while nobody is there. -/
theorem total_eq_zero {f holds : P → ℕ} (hf : ∀ q, 0 < f q → 0 < holds q)
    (hnone : total holds threads = 0) : total f threads = 0 := by
  by_contra hne
  rcases exists_of_total_pos (Nat.pos_of_ne_zero hne) with ⟨i, q, hq, hpos⟩
  have hle := le_total hq holds
  have hinside := hf q hpos
  omega

/-- A weight inside the lock is that of the thread inside. -/
theorem total_eq_of_holder {f holds : P → ℕ} (hf : ∀ q, 0 < f q → 0 < holds q)
    (hone : total holds threads ≤ 1) (h : threads[i]? = some p) (hp : 0 < holds p) :
    total f threads = f p := by
  induction threads generalizing i with
  | nil => cases h
  | cons r threads ih =>
    rw [total_cons] at hone ⊢
    cases i with
    | zero =>
      cases h
      have hrest : total f threads = 0 := total_eq_zero hf (by omega)
      omega
    | succ i =>
      have hle := le_total (i := i) h holds
      have hr : ¬0 < f r := fun hpos => by
        have := hf r hpos
        omega
      have hrest := ih (by omega) (i := i) h
      omega

end PineVoice.Threads
