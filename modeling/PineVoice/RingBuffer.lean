import PineVoice.Transition
import PineVoice.Circular

/-!
# The ring buffer of the microphone data

One task calls `ringbuffer_write` and another one `ringbuffer_read`, without a lock. Every load
and every store of a buffer byte, of `ridx` and of `widx` is a step of its own. An index is first
incremented and then set to zero by a second store, so for a moment it is one past the last byte.
-/

namespace PineVoice.RingBuffer

open Transition

/-- `dev_ringbuf_t` with the buffer it points to. -/
structure Ring where
  /-- `buffer`. -/
  buffer : ℕ → UInt8
  /-- `length`: one less than the bytes of the buffer. -/
  length : ℕ
  /-- `ridx`. -/
  ridx : ℕ
  /-- `widx`. -/
  widx : ℕ

/-- `ringbuffer_create` for a buffer of `n` bytes. -/
def ringbufferCreate (n : ℕ) : Ring := ⟨fun _ => 0, n-1, 0, 0⟩

/-- `ringbuffer_available_read_space` of the indices it has loaded. -/
def availableReadSpace (length ridx widx : ℕ) : ℕ :=
  if ridx = widx then 0
  else if ridx < widx then widx-ridx
  else length-(ridx-widx-1)

/-- `ringbuffer_available_write_space` of the indices it has loaded. -/
def availableWriteSpace (length ridx widx : ℕ) : ℕ := length-availableReadSpace length ridx widx

/-- Where `ringbuffer_write` stands, by the memory access that comes next. -/
inductive Writer where
  /-- Not called. -/
  | idle
  /-- The load of `ridx` for the space. -/
  | spaceR (data : List UInt8)
  /-- The load of `widx` for the space. -/
  | spaceW (data : List UInt8) (r : ℕ)
  /-- The load of `ridx` for the space, the second time. -/
  | againR (data : List UInt8)
  /-- The load of `widx` for the space, the second time. -/
  | againW (data : List UInt8) (r : ℕ)
  /-- The load of `widx` for the store of a byte. -/
  | index (data : List UInt8) (n i : ℕ)
  /-- The store of a byte. -/
  | store (data : List UInt8) (n i w : ℕ)
  /-- The load of `widx++`. -/
  | incr (data : List UInt8) (n i : ℕ)
  /-- The store of `widx++`. -/
  | bump (data : List UInt8) (n i w : ℕ)
  /-- The load of `widx` for the comparison. -/
  | test (data : List UInt8) (n i : ℕ)
  /-- The store of zero. -/
  | wrap (data : List UInt8) (n i : ℕ)
  /-- The return. -/
  | ret (data : List UInt8) (k : ℕ)

/-- The loop condition of `ringbuffer_write`. -/
def Writer.loop (data : List UInt8) (n i : ℕ) : Writer :=
  if i < n then .index data n i else .ret data i

/-- Where `ringbuffer_read` stands, by the memory access that comes next. -/
inductive Reader where
  /-- Not called. -/
  | idle
  /-- The load of `ridx` in `ringbuffer_empty`. -/
  | emptyR (amount : ℕ)
  /-- The load of `widx` in `ringbuffer_empty`. -/
  | emptyW (amount r : ℕ)
  /-- The load of `ridx` for `buffer_size`. -/
  | availR (amount : ℕ)
  /-- The load of `widx` for `buffer_size`. -/
  | availW (amount r : ℕ)
  /-- The load of `ridx` for the load of a byte. -/
  | index (n : ℕ) (got : List UInt8)
  /-- The load of a byte. -/
  | load (n : ℕ) (got : List UInt8) (r : ℕ)
  /-- The load of `ridx++`. -/
  | incr (n : ℕ) (got : List UInt8)
  /-- The store of `ridx++`. -/
  | bump (n : ℕ) (got : List UInt8) (r : ℕ)
  /-- The load of `ridx` for the comparison. -/
  | test (n : ℕ) (got : List UInt8)
  /-- The store of zero. -/
  | wrap (n : ℕ) (got : List UInt8)
  /-- The return. -/
  | ret (got : List UInt8)

/-- The loop condition of `ringbuffer_read`. -/
def Reader.loop (n : ℕ) (got : List UInt8) : Reader :=
  if got.length < n then .index n got else .ret got

/-- The ring, the two tasks, and what they have done. -/
structure State where
  /-- The ring. -/
  ring : Ring
  /-- The task that writes. -/
  writer : Writer
  /-- The task that reads. -/
  reader : Reader
  /-- The bytes stored so far. -/
  stored : List UInt8
  /-- The bytes loaded so far. -/
  taken : List UInt8
  /-- The data of each call of `ringbuffer_write` and its result. -/
  writes : List (List UInt8 × ℕ)
  /-- The result of each call of `ringbuffer_read` and the bytes it left in `target`. -/
  reads : List (ℤ × List UInt8)

/-- A new ring of `n` bytes and two tasks that have not called anything. -/
def State.start (n : ℕ) : State := ⟨ringbufferCreate n, .idle, .idle, [], [], [], []⟩

/-- The next step of `ringbuffer_write`. -/
def State.writerStep (s : State) : Option State :=
  match s.writer with
  | .idle => none
  | .spaceR data => some { s with writer := .spaceW data s.ring.ridx }
  | .spaceW data r =>
    if availableWriteSpace s.ring.length r s.ring.widx < data.length then
      some { s with writer := .againR data }
    else some { s with writer := .loop data data.length 0 }
  | .againR data => some { s with writer := .againW data s.ring.ridx }
  | .againW data r =>
    some { s with
      writer := .loop data (availableWriteSpace s.ring.length r s.ring.widx) 0 }
  | .index data n i => some { s with writer := .store data n i s.ring.widx }
  | .store data n i w =>
    some { s with
      ring := { s.ring with buffer := Function.update s.ring.buffer w (data.getD i 0) }
      writer := .incr data n i
      stored := s.stored ++ [data.getD i 0] }
  | .incr data n i => some { s with writer := .bump data n i s.ring.widx }
  | .bump data n i w =>
    some { s with ring := { s.ring with widx := w+1 }, writer := .test data n i }
  | .test data n i =>
    if s.ring.length+1 ≤ s.ring.widx then some { s with writer := .wrap data n i }
    else some { s with writer := .loop data n (i+1) }
  | .wrap data n i =>
    some { s with ring := { s.ring with widx := 0 }, writer := .loop data n (i+1) }
  | .ret data k => some { s with writer := .idle, writes := s.writes ++ [(data, k)] }

/-- The next step of `ringbuffer_read`. -/
def State.readerStep (s : State) : Option State :=
  match s.reader with
  | .idle => none
  | .emptyR amount => some { s with reader := .emptyW amount s.ring.ridx }
  | .emptyW amount r =>
    if availableReadSpace s.ring.length r s.ring.widx = 0 then some { s with reader := .ret [] }
    else some { s with reader := .availR amount }
  | .availR amount => some { s with reader := .availW amount s.ring.ridx }
  | .availW amount r =>
    some { s with
      reader := .loop (min amount (availableReadSpace s.ring.length r s.ring.widx)) [] }
  | .index n got => some { s with reader := .load n got s.ring.ridx }
  | .load n got r =>
    some { s with
      reader := .incr n (got ++ [s.ring.buffer r])
      taken := s.taken ++ [s.ring.buffer r] }
  | .incr n got => some { s with reader := .bump n got s.ring.ridx }
  | .bump n got r =>
    some { s with ring := { s.ring with ridx := r+1 }, reader := .test n got }
  | .test n got =>
    if s.ring.length+1 ≤ s.ring.ridx then some { s with reader := .wrap n got }
    else some { s with reader := .loop n got }
  | .wrap n got =>
    some { s with ring := { s.ring with ridx := 0 }, reader := .loop n got }
  | .ret got => some { s with reader := .idle, reads := s.reads ++ [((got.length : ℤ), got)] }

/-- What can happen next. -/
inductive Act where
  /-- `ringbuffer_write` is called. -/
  | write (data : List UInt8)
  /-- `ringbuffer_read` is called. -/
  | read (amount : ℕ)
  /-- The task that writes goes on. -/
  | writer
  /-- The task that reads goes on. -/
  | reader
deriving DecidableEq

/-- A step; nothing if it cannot be taken. -/
def State.step (s : State) : Act → Option State
  | .write data =>
    match s.writer with
    | .idle => some { s with writer := .spaceR data }
    | _ => none
  | .read amount =>
    match s.reader with
    | .idle =>
      if amount = 0 then some { s with reads := s.reads ++ [(-1, [])] }
      else some { s with reader := .emptyR amount }
    | _ => none
  | .writer => s.writerStep
  | .reader => s.readerStep

deriving instance DecidableEq for Reader

section Local

variable {s s' : State}

/-- What the reader knows from its own steps: `ridx` is as it has loaded it, and it has taken a
byte once it has started to. -/
def Reader.Sees (ridx : ℕ) : Reader → Prop
  | .emptyR amount | .availR amount => 0 < amount
  | .emptyW amount r | .availW amount r => 0 < amount ∧ r = ridx
  | .incr _ got | .bump _ got _ | .test _ got | .wrap _ got => got ≠ []
  | .idle | .index _ _ | .load _ _ _ | .ret _ => True

theorem Reader.loop_sees (n : ℕ) (got : List UInt8) (ridx : ℕ) : (Reader.loop n got).Sees ridx := by
  rw [Reader.loop]
  split_ifs <;> trivial

theorem Reader.loop_ne_ret_nil {n : ℕ} {got : List UInt8} (h : 0 < n ∨ got ≠ []) :
    Reader.loop n got ≠ .ret [] := by
  rw [Reader.loop]
  split_ifs with hlt
  · exact Reader.noConfusion
  · intro hret
    obtain rfl := Reader.ret.inj hret
    exact h.elim hlt fun hne => hne rfl

/-- A read returns nothing only if the ring was empty when it computed the space. -/
theorem readerStep_sees (h : s.reader.Sees s.ring.ridx) (hstep : s.readerStep = some s') :
    s'.reader.Sees s'.ring.ridx ∧
      (s'.reader = .ret [] → availableReadSpace s'.ring.length s'.ring.ridx s'.ring.widx = 0) := by
  revert hstep
  fun_cases State.readerStep s <;> rintro ⟨⟩
  case case2 hpc | case5 hpc =>
    rw [hpc] at h
    exact ⟨⟨h, rfl⟩, Reader.noConfusion⟩
  case case3 hpc hspace =>
    rw [hpc] at h
    obtain ⟨-, rfl⟩ := h
    exact ⟨trivial, fun _ => hspace⟩
  case case4 hpc _ =>
    rw [hpc] at h
    exact ⟨h.1, Reader.noConfusion⟩
  case case6 hpc =>
    rw [hpc] at h
    obtain ⟨hamount, rfl⟩ := h
    refine ⟨Reader.loop_sees _ _ _, fun hret => ?_⟩
    by_contra hspace
    exact Reader.loop_ne_ret_nil (.inl (lt_min hamount (Nat.pos_of_ne_zero hspace))) hret
  case case7 hpc | case9 hpc | case10 hpc | case11 hpc _ =>
    rw [hpc] at h
    exact ⟨h, Reader.noConfusion⟩
  case case8 =>
    exact ⟨List.append_ne_nil_of_right_ne_nil _ (List.cons_ne_nil _ _), Reader.noConfusion⟩
  case case12 hpc _ | case13 hpc =>
    rw [hpc] at h
    exact ⟨Reader.loop_sees _ _ _, fun hret => absurd hret (Reader.loop_ne_ret_nil (.inr h))⟩
  case case14 => exact ⟨trivial, Reader.noConfusion⟩

/-- The writer leaves the reader and its index alone. -/
theorem writerStep_reader (hstep : s.writerStep = some s') :
    s'.reader = s.reader ∧ s'.ring.ridx = s.ring.ridx := by
  revert hstep
  fun_cases State.writerStep s <;> rintro ⟨⟩ <;> exact ⟨rfl, rfl⟩

theorem step_write {data : List UInt8} (hstep : s.step (.write data) = some s') :
    s' = { s with writer := .spaceR data } := by
  cases hpc : s.writer <;> rw [State.step, hpc] at hstep <;> cases hstep
  rfl

end Local

end PineVoice.RingBuffer
