import Mathlib.Data.Int.Notation
import PineVoice.Threads
import PineVoice.Transition

/-!
# Condition variables

Any number of threads wait for a condition variable, with or without a time limit, and signal it.
A waiter that gave up may answer for another one. The threads are interleaved statement by
statement: the lock protects `waiting` and `signals`, but not the two semaphores. The mutex of the
caller may be obtained at any time.
-/

namespace PineVoice.CondVar

open Threads Transition List

/-- `ETIMEDOUT`. -/
def etimedout : ℤ := 110

/-- `pthread_cond_t`, initialised by `pthread_cond_init`. -/
structure PthreadCond where
  /-- `lock` is held. -/
  lock : Bool
  /-- `waiting`. -/
  waiting : ℤ
  /-- `signals`. -/
  signals : ℤ
  /-- The value of `wait_sem`. -/
  waitSem : ℕ
  /-- The value of `wait_done`. -/
  waitDone : ℕ
deriving DecidableEq

/-- What a thread does next. -/
inductive Pc where
  /-- `pthread_cond_timedwait_ms`: the first lock, with a time limit or without. -/
  | waitLock (timed : Bool)
  /-- `waiting++`. -/
  | waitCount (timed : Bool)
  /-- The first unlock. -/
  | waitUnlock (timed : Bool)
  /-- `aos_sem_wait` of `wait_sem`. -/
  | waitSem (timed : Bool)
  /-- The second lock, with the result of `aos_sem_wait`. -/
  | waitLeft (ret : ℤ)
  /-- `if (cond->signals > 0)`. -/
  | waitCheck (ret : ℤ)
  /-- `aos_sem_wait` with `AOS_NO_WAIT`. -/
  | waitEat (ret : ℤ)
  /-- `aos_sem_signal` of `wait_done`; `ate` says if the thread has eaten a signal. -/
  | waitNotify (ret : ℤ) (ate : Bool)
  /-- `signals--`. -/
  | waitAnswered (ret : ℤ) (ate : Bool)
  /-- `waiting--`. -/
  | waitLeave (ret : ℤ)
  /-- The second unlock, and the return. -/
  | waitRelease (ret : ℤ)
  /-- `pthread_cond_signal`: the lock. -/
  | signalLock
  /-- `if (cond->waiting > cond->signals)`. -/
  | signalCheck
  /-- `pthread_cond_broadcast`: the lock. -/
  | broadcastLock
  /-- `if (cond->waiting > cond->signals)`. -/
  | broadcastCheck
  /-- The signals of `wait_sem` that are left, of those to collect; then the unlock. -/
  | post (left num : ℕ)
  /-- The waits for `wait_done` that are left. -/
  | collect (left : ℕ)
  /-- The unlock when there is nobody to signal. -/
  | skip
  /-- The call has returned. -/
  | done
deriving DecidableEq

/-- The next statement of a thread; nothing while it blocks. -/
def move (c : PthreadCond) : Pc → Option (PthreadCond × Pc)
  | .waitLock timed =>
    if c.lock then none else some ({ c with lock := true }, .waitCount timed)
  | .waitCount timed => some ({ c with waiting := c.waiting+1 }, .waitUnlock timed)
  | .waitUnlock timed => some ({ c with lock := false }, .waitSem timed)
  | .waitSem _ =>
    if c.waitSem > 0 then some ({ c with waitSem := c.waitSem-1 }, .waitLeft 0) else none
  | .waitLeft ret => if c.lock then none else some ({ c with lock := true }, .waitCheck ret)
  | .waitCheck ret =>
    let ret := if ret = -etimedout then etimedout else ret
    if c.signals > 0 then
      if ret = etimedout then some (c, .waitEat ret) else some (c, .waitNotify ret false)
    else some (c, .waitLeave ret)
  | .waitEat ret =>
    if c.waitSem > 0 then some ({ c with waitSem := c.waitSem-1 }, .waitNotify ret true)
    else some (c, .waitNotify ret false)
  | .waitNotify ret ate => some ({ c with waitDone := c.waitDone+1 }, .waitAnswered ret ate)
  | .waitAnswered ret _ => some ({ c with signals := c.signals-1 }, .waitLeave ret)
  | .waitLeave ret => some ({ c with waiting := c.waiting-1 }, .waitRelease ret)
  | .waitRelease _ => some ({ c with lock := false }, .done)
  | .signalLock => if c.lock then none else some ({ c with lock := true }, .signalCheck)
  | .signalCheck =>
    if c.waiting > c.signals then some ({ c with signals := c.signals+1 }, .post 1 1)
    else some (c, .skip)
  | .broadcastLock => if c.lock then none else some ({ c with lock := true }, .broadcastCheck)
  | .broadcastCheck =>
    if c.waiting > c.signals then
      some ({ c with signals := c.waiting },
        .post (c.waiting-c.signals).toNat (c.waiting-c.signals).toNat)
    else some (c, .skip)
  | .post (left+1) num => some ({ c with waitSem := c.waitSem+1 }, .post left num)
  | .post 0 num => some ({ c with lock := false }, .collect num)
  | .collect (left+1) =>
    if c.waitDone > 0 then some ({ c with waitDone := c.waitDone-1 }, .collect left) else none
  | .collect 0 => some (c, .done)
  | .skip => some ({ c with lock := false }, .done)
  | .done => none

/-- The condition variable and its threads. -/
structure Sys where
  /-- The condition variable. -/
  cond : PthreadCond
  /-- The threads. -/
  threads : List Pc
deriving DecidableEq

/-- After `pthread_cond_init`. -/
def Sys.init : Sys := ⟨⟨false, 0, 0, 0, 0⟩, []⟩

/-- What happens. -/
inductive Act where
  /-- A thread calls `pthread_cond_wait` or `pthread_cond_timedwait`. -/
  | wait (timed : Bool)
  /-- A thread calls `pthread_cond_signal`. -/
  | signal
  /-- A thread calls `pthread_cond_broadcast`. -/
  | broadcast
  /-- A thread executes its next statement. -/
  | go (i : ℕ)
  /-- The time limit of a thread is over; what `aos_sem_wait` returns then depends on the
  kernel. -/
  | timeout (i : ℕ) (ret : ℤ)

/-- One step. -/
def step (s : Sys) : Act → Option Sys
  | .wait timed => some { s with threads := s.threads ++ [.waitLock timed] }
  | .signal => some { s with threads := s.threads ++ [.signalLock] }
  | .broadcast => some { s with threads := s.threads ++ [.broadcastLock] }
  | .go i =>
    s.threads[i]?.bind fun p =>
      (move s.cond p).map fun r => ⟨r.1, s.threads.set i r.2⟩
  | .timeout i ret =>
    if s.threads[i]? = some (.waitSem true) ∧ ret ≠ 0 then
      some { s with threads := s.threads.set i (.waitLeft ret) }
    else none

/-! ## Weights -/

/-- The thread holds the lock. -/
def Pc.holds : Pc → ℕ
  | .waitCount _ | .waitUnlock _ | .waitCheck _ | .waitEat _ | .waitNotify _ _
  | .waitAnswered _ _ | .waitLeave _ | .waitRelease _ | .signalCheck | .broadcastCheck
  | .post _ _ | .skip => 1
  | _ => 0

/-- The thread is counted in `waiting`. -/
def Pc.counted : Pc → ℕ
  | .waitUnlock _ | .waitSem _ | .waitLeft _ | .waitCheck _ | .waitEat _ | .waitNotify _ _
  | .waitAnswered _ _ | .waitLeave _ => 1
  | _ => 0

/-- The waiter has left `wait_sem` and not yet obtained the lock again. -/
def Pc.left : Pc → ℕ
  | .waitLeft _ => 1
  | _ => 0

/-- The handshakes that a signaller still has to collect. -/
def Pc.owes : Pc → ℕ
  | .post _ num => num
  | .collect left => left
  | _ => 0

/-- The waiter has posted `wait_done` and not yet counted `signals` down. -/
def Pc.posted : Pc → ℕ
  | .waitAnswered _ _ => 1
  | _ => 0

/-- The signals of `wait_sem` that a signaller has counted and not yet posted. -/
def Pc.unposted : Pc → ℕ
  | .post left _ => left
  | _ => 0

/-- The waiter has taken a signal from `wait_sem`, and has the lock again. -/
def Pc.answering : Pc → ℕ
  | .waitCheck ret => if ret = 0 then 1 else 0
  | .waitNotify ret ate | .waitAnswered ret ate => if ret = 0 ∨ ate = true then 1 else 0
  | _ => 0

/-- The waiter has taken a signal from `wait_sem`. -/
def Pc.token : Pc → ℕ
  | .waitLeft ret => if ret = 0 then 1 else 0
  | p => p.answering

/-- The waiter has seen that `signals` is positive. -/
def Pc.answers : Pc → ℕ
  | .waitEat _ | .waitNotify _ _ | .waitAnswered _ _ => 1
  | _ => 0

/-- The waiter counts `waiting` down next. -/
def Pc.leaving : Pc → ℕ
  | .waitLeave _ => 1
  | _ => 0

/-- What holds in every state, also inside the lock. -/
structure Sys.Inv (s : Sys) : Prop where
  /-- At most one thread holds the lock. -/
  lock : total Pc.holds s.threads = if s.cond.lock then 1 else 0
  /-- The waiters are counted. -/
  waiting : s.cond.waiting = total Pc.counted s.threads
  /-- Who answers has a signal to count down. -/
  answers : total Pc.answers s.threads ≤ s.cond.signals
  /-- There are no more signals than waiters. -/
  bound : s.cond.signals+total Pc.leaving s.threads ≤ s.cond.waiting
  /-- The handshakes are those of the signals, and those that wait in `wait_done`. -/
  handshake : (total Pc.owes s.threads : ℤ)+total Pc.posted s.threads =
    s.cond.signals+s.cond.waitDone
  /-- Each signal is in `wait_sem`, or a waiter has it, or it will be posted. -/
  supply : s.cond.signals ≤
    s.cond.waitSem+total Pc.token s.threads+total Pc.unposted s.threads

theorem init_inv : Sys.init.Inv := ⟨rfl, rfl, Int.le_refl 0, Int.le_refl 0, rfl, Int.le_refl 0⟩

/-! ## What a statement changes -/

section Move

variable {c c' : PthreadCond} {p q : Pc}

section

variable (h : move c p = some (c', q))
include h

/-- A statement obtains the lock, gives it back, or leaves it. -/
theorem move_lock :
    (c'.lock = c.lock ∧ q.holds = p.holds) ∨
      (c.lock = false ∧ c'.lock = true ∧ p.holds = 0 ∧ q.holds = 1) ∨
      (c'.lock = false ∧ p.holds = 1 ∧ q.holds = 0) := by
  revert h
  fun_cases move c p <;> intro h <;> cases h <;> simp_all [Pc.holds]

theorem move_waiting : c'.waiting+p.counted = c.waiting+q.counted := by
  revert h
  fun_cases move c p <;> intro h <;> cases h <;> simp [Pc.counted]

theorem move_handshake :
    c'.signals+c'.waitDone+p.owes+p.posted = c.signals+c.waitDone+q.owes+q.posted := by
  revert h
  fun_cases move c p <;> intro h <;> cases h <;> simp [Pc.owes, Pc.posted] <;> omega

/-- A waiter loses a signal that it has taken only when there is none to answer. -/
theorem move_supply :
    c'.signals ≤ 0 ∨ c'.signals+c.waitSem+p.token+p.unposted ≤
      c.signals+c'.waitSem+q.token+q.unposted := by
  revert h
  fun_cases move c p <;> intro h <;> cases h <;>
    simp_all [Pc.token, Pc.answering, Pc.unposted, etimedout] <;> grind

/-- A waiter finds a signal to answer inside the lock. -/
theorem move_answers :
    c.signals+q.answers ≤ c'.signals+p.answers ∨
      p.holds = 1 ∧ p.answers = 0 ∧ q.answers ≤ c'.signals := by
  revert h
  fun_cases move c p <;> intro h <;> cases h <;> simp [Pc.answers, Pc.holds] <;> omega

/-- A signaller counts waiters inside the lock, and so does a waiter that has nothing to answer. -/
theorem move_bound :
    c'.signals+q.leaving+c.waiting ≤ c.signals+p.leaving+c'.waiting ∨
      p.holds = 1 ∧ p.leaving = 0 ∧
        (c'.signals+q.leaving ≤ c'.waiting ∨ c'.signals+q.leaving ≤ q.counted) := by
  revert h
  fun_cases move c p <;> intro h <;> cases h <;> simp [Pc.leaving, Pc.holds, Pc.counted] <;> omega

end

end Move

theorem Pc.holds_of_answers (p : Pc) (h : 0 < p.answers) : 0 < p.holds := by
  cases p <;> simp_all [Pc.answers, Pc.holds]

theorem Pc.holds_of_leaving (p : Pc) (h : 0 < p.leaving) : 0 < p.holds := by
  cases p <;> simp_all [Pc.leaving, Pc.holds]

theorem Pc.holds_of_posted (p : Pc) (h : 0 < p.posted) : 0 < p.holds := by
  cases p <;> simp_all [Pc.posted, Pc.holds]

theorem Pc.holds_of_unposted (p : Pc) (h : 0 < p.unposted) : 0 < p.holds := by
  cases p <;> simp_all [Pc.unposted, Pc.holds]

theorem Pc.holds_of_answering (p : Pc) (h : 0 < p.answering) : 0 < p.holds := by
  cases p <;> simp_all [Pc.answering, Pc.holds]

/-! ## Every step -/

section Step

variable {s : Sys} {i : ℕ} {p q : Pc} {c : PthreadCond}

/-- A thread executes a statement. -/
theorem Sys.Inv.go (h : s.Inv) (hi : s.threads[i]? = some p) (hmove : move s.cond p = some (c, q)) :
    Sys.Inv ⟨c, s.threads.set i q⟩ := by
  have hone : total Pc.holds s.threads ≤ 1 := by
    rw [h.lock]
    split_ifs <;> omega
  have hholds := total_set hi Pc.holds q
  have hcounted := total_set hi Pc.counted q
  have hanswers := total_set hi Pc.answers q
  have hleaving := total_set hi Pc.leaving q
  have howes := total_set hi Pc.owes q
  have hposted := total_set hi Pc.posted q
  have htoken := total_set hi Pc.token q
  have hunposted := total_set hi Pc.unposted q
  have hwaiting : c.waiting = total Pc.counted (s.threads.set i q) := by
    have := move_waiting hmove
    have := h.waiting
    omega
  constructor
  · have hlock := h.lock
    rcases move_lock hmove with ⟨hsame, hq⟩ | ⟨hfree, htaken, hp, hq⟩ | ⟨hgiven, hp, hq⟩
    · dsimp only
      rw [hsame]
      omega
    · rw [hfree] at hlock
      rw [htaken]
      simp only [Bool.false_eq_true, if_false, if_true] at hlock ⊢
      omega
    · rw [hgiven]
      simp only [Bool.false_eq_true, if_false]
      omega
  · exact hwaiting
  · have := h.answers
    rcases move_answers hmove with hle | ⟨hp, hzero, hle⟩
    · dsimp only
      omega
    · have := total_eq_of_holder Pc.holds_of_answers hone hi (by omega)
      dsimp only
      omega
  · have := h.bound
    rcases move_bound hmove with hle | ⟨hp, hzero, hle⟩
    · dsimp only
      omega
    · have := total_eq_of_holder Pc.holds_of_leaving hone hi (by omega)
      have hself : (s.threads.set i q)[i]? = some q := by
        rw [getElem?_set_self (List.getElem?_eq_some_iff.mp hi).1]
      have := le_total hself Pc.counted
      dsimp only
      omega
  · have := h.handshake
    have := move_handshake hmove
    dsimp only
    omega
  · have := h.supply
    dsimp only
    rcases move_supply hmove with hle | hle
    · omega
    · omega

/-- The time limit of a waiter is over. -/
theorem Sys.Inv.timeout (h : s.Inv) {ret : ℤ} (hi : s.threads[i]? = some (.waitSem true))
    (hret : ret ≠ 0) : Sys.Inv { s with threads := s.threads.set i (.waitLeft ret) } := by
  have hsame {f : Pc → ℕ} (hf : f (.waitLeft ret) = f (.waitSem true)) :
      total f (s.threads.set i (.waitLeft ret)) = total f s.threads := by
    have := total_set hi f (.waitLeft ret)
    omega
  have htoken : Pc.token (.waitLeft ret) = Pc.token (.waitSem true) := if_neg hret
  constructor
  · exact (hsame rfl).trans h.lock
  · rw [hsame rfl]
    exact h.waiting
  · rw [hsame rfl]
    exact h.answers
  · rw [hsame rfl]
    exact h.bound
  · rw [hsame rfl, hsame rfl]
    exact h.handshake
  · rw [hsame htoken, hsame rfl]
    exact h.supply

/-- A thread makes a call. -/
theorem Sys.Inv.call (h : s.Inv) (hp : p = .waitLock true ∨ p = .waitLock false ∨
    p = .signalLock ∨ p = .broadcastLock) : Sys.Inv { s with threads := s.threads ++ [p] } := by
  have hweights : p.holds = 0 ∧ p.counted = 0 ∧ p.answers = 0 ∧ p.leaving = 0 ∧ p.owes = 0 ∧
      p.posted = 0 ∧ p.token = 0 ∧ p.unposted = 0 := by
    rcases hp with rfl | rfl | rfl | rfl <;> decide
  rcases hweights with ⟨hholds, hcounted, hanswers, hleaving, howes, hposted, htoken, hunposted⟩
  constructor
  · rw [total_concat, hholds]
    exact h.lock
  · rw [total_concat, hcounted]
    exact h.waiting
  · rw [total_concat, hanswers]
    exact h.answers
  · rw [total_concat, hleaving]
    exact h.bound
  · rw [total_concat, total_concat, howes, hposted]
    exact h.handshake
  · rw [total_concat, total_concat, htoken, hunposted]
    exact h.supply

end Step

/-- Every step keeps the counts. -/
theorem Sys.Inv.step (s : Sys) (a : Act) (s' : Sys) (_ : True) (h : s.Inv)
    (hstep : CondVar.step s a = some s') : s'.Inv := by
  cases a with
  | wait timed =>
    cases hstep
    cases timed with
    | true => exact h.call (.inl rfl)
    | false => exact h.call (.inr (.inl rfl))
  | signal =>
    cases hstep
    exact h.call (.inr (.inr (.inl rfl)))
  | broadcast =>
    cases hstep
    exact h.call (.inr (.inr (.inr rfl)))
  | go i =>
    rcases Option.bind_eq_some_iff.mp hstep with ⟨p, hi, hmap⟩
    rcases Option.map_eq_some_iff.mp hmap with ⟨⟨c, q⟩, hmove, rfl⟩
    exact h.go hi hmove
  | timeout i ret =>
    rw [CondVar.step] at hstep
    split_ifs at hstep with hready
    cases hstep
    exact h.timeout hready.1 hready.2

/-! ## Who can go on -/

/-- The thread is in a wait. -/
def Pc.isWaiter : Pc → Bool
  | .waitLock _ | .waitCount _ | .waitUnlock _ | .waitSem _ | .waitLeft _ | .waitCheck _
  | .waitEat _ | .waitNotify _ _ | .waitAnswered _ _ | .waitLeave _ | .waitRelease _ => true
  | _ => false

/-- A thread at the program point can execute its next statement. -/
def Sys.CanGo (s : Sys) (p : Pc) : Prop := p ∈ s.threads ∧ (move s.cond p).isSome

/-- No statement inside the lock blocks. -/
theorem move_isSome_of_holds {p : Pc} (c : PthreadCond) (h : 0 < p.holds) : (move c p).isSome := by
  fun_cases move c p <;> simp_all [Pc.holds]

/-- The thread inside the lock can go on. -/
theorem Sys.Inv.holder_goes {s : Sys} (h : s.Inv) (hlock : s.cond.lock = true) :
    ∃ p, s.CanGo p ∧ p.holds = 1 := by
  have htotal := h.lock
  rw [hlock, if_pos rfl] at htotal
  have hone : 0 < total Pc.holds s.threads := by omega
  rcases exists_of_total_pos hone with ⟨i, p, hi, hpos⟩
  have hle := le_total hi Pc.holds
  exact ⟨p, ⟨mem_of_getElem? hi, move_isSome_of_holds s.cond hpos⟩, by omega⟩

/-- Outside the lock a waiter that is counted is at `wait_sem` or has left it. -/
theorem Pc.outside {p : Pc} (hcounted : 0 < p.counted) (hholds : p.holds = 0) :
    (∃ timed, p = .waitSem timed) ∨ ∃ ret, p = .waitLeft ret := by
  cases p <;> simp_all [Pc.counted, Pc.holds]

/-- The weights of statements inside the lock are zero while it is free. -/
theorem Sys.Inv.free {s : Sys} (h : s.Inv) (hlock : s.cond.lock = false) :
    total Pc.holds s.threads = 0 ∧ total Pc.posted s.threads = 0 ∧
      total Pc.answering s.threads = 0 ∧ total Pc.unposted s.threads = 0 := by
  have htotal := h.lock
  rw [hlock] at htotal
  exact ⟨htotal, total_eq_zero Pc.holds_of_posted htotal,
    total_eq_zero Pc.holds_of_answering htotal, total_eq_zero Pc.holds_of_unposted htotal⟩

/-- A signal is in `wait_sem`, or a waiter has it, or it will be posted. -/
theorem Sys.Inv.signals_le {s : Sys} (h : s.Inv) :
    s.cond.signals ≤ s.cond.waitSem+total Pc.left s.threads+total Pc.answering s.threads+
      total Pc.unposted s.threads := by
  have htoken : total Pc.token s.threads ≤
      total Pc.left s.threads+total Pc.answering s.threads := by
    refine total_le_add (fun p => ?_) s.threads
    cases p with
    | waitLeft ret =>
      rw [Pc.token, Pc.left]
      split_ifs <;> omega
    | _ => exact Nat.le_add_left ..
  have hsupply := h.supply
  omega

/-- While the lock is free and there is a signal, a waiter can go on. -/
theorem Sys.Inv.waiter_goes {s : Sys} (h : s.Inv) (hlock : s.cond.lock = false)
    (hsignals : 0 < s.cond.signals) : ∃ p, s.CanGo p ∧ p.isWaiter = true := by
  rcases h.free hlock with ⟨hholds, _, hanswering, hunposted⟩
  have hsupply := h.signals_le
  have hbound := h.bound
  have hwaiting := h.waiting
  by_cases hleft : 0 < total Pc.left s.threads
  · rcases exists_of_total_pos hleft with ⟨i, p, hi, hpos⟩
    cases p with
    | waitLeft ret =>
      refine ⟨.waitLeft ret, ⟨mem_of_getElem? hi, ?_⟩, rfl⟩
      rw [move, hlock]
      rfl
    | _ => cases hpos
  · have hsem : s.cond.waitSem > 0 := by omega
    have hsome : 0 < total Pc.counted s.threads := by omega
    rcases exists_of_total_pos hsome with ⟨i, p, hi, hpos⟩
    have hout : p.holds = 0 := by
      have := le_total hi Pc.holds
      omega
    rcases Pc.outside hpos hout with ⟨timed, rfl⟩ | ⟨ret, rfl⟩
    · refine ⟨.waitSem timed, ⟨mem_of_getElem? hi, ?_⟩, rfl⟩
      rw [move, if_pos hsem]
      rfl
    · exact absurd (lt_of_lt_of_le zero_lt_one (le_total hi Pc.left)) hleft

/-! ## Whole runs -/

/-- The counts of a condition variable. -/
structure Sys.Counts (s : Sys) : Prop where
  /-- There are no more signals than waiters. -/
  signals_le_waiting : s.cond.signals ≤ s.cond.waiting
  /-- The handshakes to collect are those of the signals and those that wait in `wait_done`. -/
  handshakes : (total Pc.owes s.threads : ℤ) = s.cond.signals+s.cond.waitDone
  /-- For each signal there is one in `wait_sem` or a waiter that has left it. -/
  signals_supplied : 0 < s.cond.signals →
    s.cond.signals ≤ s.cond.waitSem+total Pc.left s.threads
  /-- While a signaller is blocked, a waiter can go on. -/
  unblocked : ∀ left, .collect (left+1) ∈ s.threads → s.cond.waitDone = 0 →
    ∃ p, s.CanGo p ∧ p.isWaiter = true

/-- The counts with what the thread inside the lock has still to do. -/
structure Sys.CountsInside (s : Sys) : Prop where
  /-- There are no more signals than waiters. -/
  signals_le_waiting : s.cond.signals ≤ s.cond.waiting
  /-- A waiter may have posted `wait_done` and not yet counted `signals` down. -/
  handshakes : (total Pc.owes s.threads : ℤ)+total Pc.posted s.threads =
    s.cond.signals+s.cond.waitDone
  /-- A signaller may have counted signals that it posts next, a waiter may have taken one. -/
  signals_supplied : 0 < s.cond.signals → s.cond.signals ≤ s.cond.waitSem+
    total Pc.left s.threads+total Pc.answering s.threads+total Pc.unposted s.threads
  /-- Outside the lock there are no exceptions. -/
  unlocked : s.cond.lock = false → total Pc.posted s.threads = 0 ∧
    total Pc.answering s.threads = 0 ∧ total Pc.unposted s.threads = 0
  /-- While a signaller is blocked, a waiter can go on as soon as the lock is free, and the thread
  inside the lock until then. -/
  unblocked : ∀ left, .collect (left+1) ∈ s.threads → s.cond.waitDone = 0 →
    ∃ p, s.CanGo p ∧ if s.cond.lock then p.holds = 1 else p.isWaiter = true

/-- The invariant gives the counts inside the lock. -/
theorem Sys.Inv.countsInside {s : Sys} (h : s.Inv) : s.CountsInside := by
  have hbound := h.bound
  constructor
  · omega
  · exact h.handshake
  · exact fun _ => h.signals_le
  · exact fun hlock => (h.free hlock).2
  · intro left hmem hzero
    cases hlock : s.cond.lock with
    | true => exact h.holder_goes hlock
    | false =>
      rcases getElem?_of_mem hmem with ⟨i, hi⟩
      have howes : left+1 ≤ total Pc.owes s.threads := le_total hi Pc.owes
      have hhandshake := h.handshake
      exact h.waiter_goes hlock (by omega)

/-- Outside the lock these are the counts. -/
theorem Sys.CountsInside.counts {s : Sys} (h : s.CountsInside) (hlock : s.cond.lock = false) :
    s.Counts := by
  rcases h.unlocked hlock with ⟨hposted, hanswering, hunposted⟩
  constructor
  · exact h.signals_le_waiting
  · have hhandshakes := h.handshakes
    omega
  · intro hpos
    have hsupplied := h.signals_supplied hpos
    omega
  · intro left hmem hzero
    rcases h.unblocked left hmem hzero with ⟨p, hgo, hwaiter⟩
    rw [hlock, if_neg Bool.false_ne_true] at hwaiter
    exact ⟨p, hgo, hwaiter⟩

/-- In every state that waits, time-outs, signals and broadcasts can reach the counts agree whenever
the lock is free, up to the statements of the thread inside it until then, and no signaller is
blocked for ever. -/
theorem cond_counts (acts : List Act) (s : Sys) (hrun : run step .init acts = some s) :
    s.CountsInside ∧ (s.cond.lock = false → s.Counts) := by
  have hinv : s.Inv := run_keeps Sys.Inv.step (along_true acts .init) init_inv hrun
  exact ⟨hinv.countsInside, hinv.countsInside.counts⟩

/-- Two waiters and a signaller that is blocked: the time of one waiter is over, and the lock is
free. -/
theorem cond_counts_blocked :
    run step .init [.wait true, .wait false, .go 0, .go 0, .go 0, .go 1, .go 1, .go 1, .signal,
        .go 2, .go 2, .go 2, .timeout 0 (-110), .go 2] =
      some ⟨⟨false, 2, 1, 1, 0⟩, [.waitLeft (-110), .waitSem false, .collect 1]⟩ ∧
    Sys.Counts ⟨⟨false, 2, 1, 1, 0⟩, [.waitLeft (-110), .waitSem false, .collect 1]⟩ := by
  have hrun : run step .init [.wait true, .wait false, .go 0, .go 0, .go 0, .go 1, .go 1, .go 1,
      .signal, .go 2, .go 2, .go 2, .timeout 0 (-110), .go 2] =
      some ⟨⟨false, 2, 1, 1, 0⟩, [.waitLeft (-110), .waitSem false, .collect 1]⟩ := by
    decide +kernel
  exact ⟨hrun, (cond_counts _ _ hrun).2 rfl⟩

/-- A signaller has counted its signal and not yet posted `wait_sem`; later the waiter has posted
`wait_done` and not yet counted the signal down. -/
theorem cond_counts_inside :
    (run step .init [.wait false, .go 0, .go 0, .go 0, .signal, .go 1, .go 1] =
        some ⟨⟨true, 1, 1, 0, 0⟩, [.waitSem false, .post 1 1]⟩ ∧
      ¬Sys.Counts ⟨⟨true, 1, 1, 0, 0⟩, [.waitSem false, .post 1 1]⟩) ∧
    run step .init [.wait false, .go 0, .go 0, .go 0, .signal, .go 1, .go 1, .go 1, .go 1, .go 0,
        .go 0, .go 0, .go 0] =
        some ⟨⟨true, 1, 1, 0, 1⟩, [.waitAnswered 0 false, .collect 1]⟩ ∧
      ¬Sys.Counts ⟨⟨true, 1, 1, 0, 1⟩, [.waitAnswered 0 false, .collect 1]⟩ := by
  refine ⟨⟨by decide +kernel, fun h => ?_⟩, by decide +kernel, fun h => ?_⟩
  · exact absurd (h.signals_supplied (by decide)) (by decide)
  · exact absurd h.handshakes (by decide)

end PineVoice.CondVar
