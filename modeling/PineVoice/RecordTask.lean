import Mathlib.Data.Int.Notation
import PineVoice.Transition

/-!
# The recording task

`_record_task` reads a chunk from a source and offers it to a sink. What the sink does not take
is overwritten by the next read, so a recording is complete only if every write takes all it is
offered.
-/

namespace PineVoice.RecordTask
open PineVoice.Transition List

/-- What the task uses of `record_node_t`. -/
structure Node where
  /-- Set by `record_pre_stop` and `record_stop`. -/
  quit : Bool
  /-- A data-ready hook is installed. -/
  dRdyFunc : Bool
  /-- How many bytes to ask the source for. -/
  chunkSize : ℕ
  /-- Bytes read. -/
  readBytes : ℤ
  /-- Bytes written. -/
  sendBytes : ℤ
  /-- Writes that did not fail. -/
  sendTimes : ℤ
deriving Repr, DecidableEq

/-- Where the task is. -/
inductive Point where
  /-- Before the send buffer is allocated. -/
  | start
  /-- Before the test of `quit`. -/
  | loop
  /-- In `recio_read`. -/
  | reading
  /-- In `recio_write`, with the bytes offered to the sink. -/
  | writing (sendbuffer : List UInt8)
  /-- After the loop. -/
  | out
deriving Repr, DecidableEq

/-- A step of the task, or of the task that stops it. -/
inductive Act where
  /-- The send buffer is allocated or not. -/
  | alloc (ok : Bool)
  /-- `record_pre_stop`. -/
  | preStop
  /-- The test of the loop. -/
  | test
  /-- `recio_read` returns, with the bytes it read. If a hook is installed, it is called with the
  buffer, and returns a value and what it leaves there. -/
  | read (bytes : ℤ) (data : List UInt8) (hook : Option (ℤ × List UInt8))
  /-- `recio_write` returns. -/
  | write (bytes : ℤ)
deriving Repr, DecidableEq

/-- The task, its source and its sink. -/
structure State where
  /-- The record. -/
  node : Node
  /-- Where the task is. -/
  point : Point
  /-- The bytes read from the source so far. -/
  source : List UInt8
  /-- The bytes the sink has accepted so far. -/
  sink : List UInt8
deriving Repr, DecidableEq

/-- A task that has not run yet. -/
def State.init (node : Node) : State :=
  ⟨node, .start, [], []⟩

/-- What follows a read and its hook: nothing is left to do, or the buffer is written. -/
def afterRead (s : State) (bytes : ℤ) (sendbuffer : List UInt8) : State :=
  if bytes ≤ 0 then { s with point := .loop }
  else
    { s with
      node := { s.node with readBytes := s.node.readBytes+bytes }
      point := .writing sendbuffer }

/-- What follows a write. -/
def afterWrite (node : Node) (bytes : ℤ) : Node × Point :=
  if bytes > 0 then
    ({ node with sendBytes := node.sendBytes+bytes, sendTimes := node.sendTimes+1 }, .loop)
  else if bytes < 0 then (node, .out)
  else ({ node with sendTimes := node.sendTimes+1 }, .loop)

/-- A step. A read returns at most as much as it was asked for, and as many bytes as it says; a
write accepts at most what it was offered, and nothing if it fails. -/
def State.step (s : State) : Act → Option State
  | .alloc ok =>
    if s.point = .start then some { s with point := if ok then .loop else .out } else none
  | .preStop => some { s with node := { s.node with quit := true } }
  | .test =>
    if s.point = .loop then some { s with point := if s.node.quit then .out else .reading }
    else none
  | .read bytes data hook =>
    if s.point = .reading ∧ data.length = bytes.toNat ∧ bytes ≤ s.node.chunkSize ∧
        hook.isSome = s.node.dRdyFunc then
      let s := { s with source := s.source++data }
      match hook with
      | none => some (afterRead s bytes data)
      | some (ready, sendbuffer) =>
        if ready < 0 then some { s with point := .loop }
        else some (afterRead s bytes (sendbuffer.take data.length))
    else none
  | .write bytes =>
    match s.point with
    | .writing sendbuffer =>
      if bytes ≤ sendbuffer.length then
        some
          { s with
            node := (afterWrite s.node bytes).1
            point := (afterWrite s.node bytes).2
            sink := s.sink++sendbuffer.take bytes.toNat }
      else none
    | _ => none

/-- The task is neither in a read nor in a write. -/
def Point.Outside : Point → Prop
  | .reading => False
  | .writing _ => False
  | _ => True

/-- Outside a read or a write, the sink has accepted exactly what was read. -/
def State.Copied (s : State) : Prop :=
  s.point.Outside → s.sink = s.source

/-- A write takes all it is offered. -/
def WritesAll (s : State) (a : Act) : Prop :=
  match s.point, a with
  | .writing sendbuffer, .write bytes => bytes = sendbuffer.length
  | _, _ => True

instance (s : State) (a : Act) : Decidable (WritesAll s a) := by
  unfold WritesAll
  split <;> infer_instance

variable {s s' : State} {a : Act} {bytes : ℤ}

theorem writesAll_of_ne_write (ha : ∀ bytes, a ≠ .write bytes) : WritesAll s a := by
  unfold WritesAll
  split
  next bytes _ => exact absurd rfl (ha bytes)
  next => trivial

/-- The bytes read that the sink has not seen are those it is being offered. -/
structure State.Pending (s : State) : Prop where
  /-- No hook decides about a chunk. -/
  hook : s.node.dRdyFunc = false
  /-- Outside a write nothing is missing. -/
  copied : (∀ sendbuffer, s.point ≠ .writing sendbuffer) → s.sink = s.source
  /-- In a write, what is offered. -/
  offered : ∀ sendbuffer, s.point = .writing sendbuffer →
    sendbuffer ≠ [] ∧ s.source = s.sink++sendbuffer

theorem State.Pending.init {node : Node} (hhook : node.dRdyFunc = false) :
    (State.init node).Pending :=
  ⟨hhook, fun _ => rfl, fun _ h => nomatch h⟩

theorem Point.Outside.ne_writing {p : Point} (hp : p.Outside) (sendbuffer : List UInt8) :
    p ≠ .writing sendbuffer := by
  rintro rfl
  exact hp

theorem State.Pending.copied_outside (h : s.Pending) : s.Copied :=
  fun hp => h.copied hp.ne_writing

/-- A point that is not in a write inherits that nothing is missing. -/
theorem State.Pending.move (h : s.Pending) (hs : ∀ sendbuffer, s.point ≠ .writing sendbuffer)
    (hs' : ∀ sendbuffer, s'.point ≠ .writing sendbuffer)
    (hhook : s'.node.dRdyFunc = s.node.dRdyFunc) (hsource : s'.source = s.source)
    (hsink : s'.sink = s.sink) : s'.Pending := by
  refine ⟨hhook.trans h.hook, fun _ => ?_, fun sendbuffer hp => absurd hp (hs' sendbuffer)⟩
  rw [hsource, hsink]
  exact h.copied hs

theorem afterWrite_hook (node : Node) (bytes : ℤ) :
    (afterWrite node bytes).1.dRdyFunc = node.dRdyFunc := by
  rw [afterWrite]
  split_ifs <;> rfl

theorem afterWrite_outside (node : Node) (bytes : ℤ) : (afterWrite node bytes).2.Outside := by
  rw [afterWrite]
  split_ifs <;> trivial

/-- What a read does without a hook. -/
theorem State.Pending.read {data : List UInt8} {hook : Option (ℤ × List UInt8)} (h : s.Pending)
    (hstep : s.step (.read bytes data hook) = some s') : s'.Pending := by
  rw [State.step] at hstep
  by_cases hguard : s.point = .reading ∧ data.length = bytes.toNat ∧
      bytes ≤ s.node.chunkSize ∧ hook.isSome = s.node.dRdyFunc
  · rw [if_pos hguard] at hstep
    obtain ⟨hpoint, hlen, -, hsome⟩ := hguard
    rw [h.hook, Option.isSome_eq_false_iff, Option.isNone_iff_eq_none] at hsome
    subst hsome
    have hcopied := h.copied fun sendbuffer hp => by
      rw [hpoint] at hp
      cases hp
    obtain rfl := Option.some.inj hstep
    rw [afterRead]
    by_cases hbytes : bytes ≤ 0
    · have hnil : data = [] := eq_nil_of_length_eq_zero (by omega)
      rw [if_pos hbytes]
      refine ⟨h.hook, fun _ => ?_, fun _ hp => nomatch hp⟩
      rw [hnil, append_nil]
      exact hcopied
    · rw [if_neg hbytes]
      refine ⟨h.hook, fun hne => absurd rfl (hne data), fun sendbuffer hp => ?_⟩
      obtain rfl := Point.writing.inj hp
      refine ⟨ne_nil_of_length_pos (by omega), ?_⟩
      rw [← hcopied]
  · rw [if_neg hguard] at hstep
    cases hstep

/-- What a write does: a complete one leaves nothing missing, a short one does. -/
theorem State.Pending.write (h : s.Pending) (hstep : s.step (.write bytes) = some s') :
    ∃ sendbuffer, s.point = .writing sendbuffer ∧ sendbuffer ≠ [] ∧
      bytes ≤ sendbuffer.length ∧ s'.node.dRdyFunc = false ∧ s'.point.Outside ∧
      s'.source = s.sink++sendbuffer ∧ s'.sink = s.sink++sendbuffer.take bytes.toNat := by
  rw [State.step] at hstep
  split at hstep
  next sendbuffer hpoint =>
    by_cases hle : bytes ≤ sendbuffer.length
    · rw [if_pos hle] at hstep
      obtain rfl := Option.some.inj hstep
      obtain ⟨hne, hsource⟩ := h.offered sendbuffer hpoint
      exact ⟨sendbuffer, hpoint, hne, hle, (afterWrite_hook _ _).trans h.hook,
        afterWrite_outside _ _, hsource, rfl⟩
    · rw [if_neg hle] at hstep
      cases hstep
  next => cases hstep

/-- A step whose write takes all it is offered leaves nothing missing. -/
theorem State.Pending.step (h : s.Pending) (hall : WritesAll s a) (hstep : s.step a = some s')
    : s'.Pending := by
  cases a with
  | preStop =>
    obtain rfl := Option.some.inj hstep
    exact ⟨h.hook, h.copied, h.offered⟩
  | alloc | test =>
    obtain ⟨hpoint, hs'⟩ := Option.ite_none_right_eq_some.mp hstep
    obtain rfl := Option.some.inj hs'
    refine h.move (fun _ hp => ?_) (fun _ => ?_) rfl rfl rfl
    · rw [hpoint] at hp
      cases hp
    · dsimp only
      split_ifs <;> exact Point.noConfusion
  | read bytes data hook => exact h.read hstep
  | write bytes =>
    obtain ⟨sendbuffer, hpoint, -, -, hhook, hout, hsource, hsink⟩ := h.write hstep
    have hbytes : bytes = sendbuffer.length := by
      simpa only [WritesAll, hpoint] using hall
    refine ⟨hhook, fun _ => ?_, fun other hp => absurd hp (hout.ne_writing other)⟩
    rw [hsource, hsink, hbytes, Int.toNat_natCast, take_length]

/-- After a write that took less, bytes are missing. -/
theorem State.Pending.not_copied (h : s.Pending) (hall : ¬WritesAll s a)
    (hstep : s.step a = some s') : ¬s'.Copied := by
  cases a with
  | write bytes =>
    obtain ⟨sendbuffer, hpoint, hne, hle, -, hout, hsource, hsink⟩ := h.write hstep
    intro hcopied
    have hlen := congrArg List.length (hcopied hout)
    rw [hsource, hsink, length_append, length_append, length_take] at hlen
    have hpos := List.length_pos_iff.mpr hne
    have hbytes : bytes = sendbuffer.length := by omega
    exact hall (by simpa only [WritesAll, hpoint] using hbytes)
  | alloc | preStop | test | read =>
    exact absurd (writesAll_of_ne_write fun _ => Act.noConfusion) hall

/-- In a run without a hook, the sink has accepted exactly what was read, at every point outside a
read or a write, if and only if every write took all it was offered. -/
theorem record_copies_iff {node : Node} (hhook : node.dRdyFunc = false) {acts : List Act}
    {s : State} (hrun : run State.step (State.init node) acts = some s) :
    Along State.step (fun s a => ∀ s', s.step a = some s' → s'.Copied) (State.init node) acts ↔
      Along State.step WritesAll (State.init node) acts :=
  along_good_iff (fun _ h => State.Pending.copied_outside h)
    (fun _ _ _ hall h hstep => h.step hall hstep)
    (fun _ _ _ hall h hstep => h.not_copied hall hstep) (State.Pending.init hhook) hrun

/-- A record without a hook, with chunks of four bytes. -/
def plainNode : Node :=
  ⟨false, false, 4, 0, 0, 0⟩

/-- Two chunks, of two bytes and of one, that are written as they are read. -/
theorem record_copies_two_chunks :
    (run State.step (State.init plainNode) [.alloc true, .test, .read 2 [1, 2] none, .write 2,
        .test, .read 1 [3] none, .write 1]).map State.sink = some [1, 2, 3] ∧
      Along State.step (fun s a => ∀ s', s.step a = some s' → s'.Copied) (State.init plainNode)
        [.alloc true, .test, .read 2 [1, 2] none, .write 2, .test, .read 1 [3] none,
          .write 1] :=
  ⟨by decide +kernel, (record_copies_iff rfl rfl).mpr (by decide +kernel)⟩

/-- The sink takes one of two bytes, and the next read overwrites the other one. -/
theorem record_drops_byte :
    (run State.step (State.init plainNode) [.alloc true, .test, .read 2 [1, 2] none, .write 1,
        .test, .read 1 [3] none, .write 1]).map (fun s => (s.point, s.source, s.sink)) =
      some (.loop, [1, 2, 3], [1, 3]) := by
  decide +kernel

end PineVoice.RecordTask
