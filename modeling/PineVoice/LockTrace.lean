import PineVoice.Transition

/-!
# Traces of lock operations

A call takes locks, gives them back and does other things in between. A trace is balanced if
it gives back only what it holds and holds nothing at its end. Traces that leave whatever is
held as it is can be put one after the other and inside a lock.
-/

namespace PineVoice.LockTrace

open Transition List Option

/-- An event of a call. -/
inductive Event (L O : Type*) where
  /-- A lock is taken. -/
  | lock (l : L)
  /-- A lock is given back. -/
  | unlock (l : L)
  /-- A lock is destroyed by its holder. -/
  | destroy (l : L)
  /-- Something that is not about locks. -/
  | other (o : O)
deriving DecidableEq

section Traces

variable {L O : Type*}

/-- A section under a lock. -/
def locked (l : L) (trace : List (Event L O)) : List (Event L O) :=
  .lock l :: (trace ++ [.unlock l])

/-- What a call does besides. -/
def others (trace : List (Event L O)) : List O :=
  trace.filterMap fun e =>
    match e with
    | .other o => some o
    | _ => none

/-- A lock around a trace does nothing else. -/
@[simp]
theorem others_locked (l : L) (trace : List (Event L O)) :
    others (locked l trace) = others trace := by
  unfold others locked
  rw [filterMap_cons, filterMap_append]
  exact append_nil _

/-- What two traces do. -/
@[simp]
theorem others_append (trace rest : List (Event L O)) :
    others (trace ++ rest) = others trace ++ others rest := filterMap_append

@[simp]
theorem others_map (os : List O) : others (L := L) (os.map .other) = os := by
  induction os with
  | nil => rfl
  | cons o os ih => exact congrArg (o :: ·) ih

variable [DecidableEq L]

/-- The locks that are held after an event; nothing if one is given back that is not held. -/
def Event.after (held : List L) : Event L O → Option (List L)
  | .lock l => some (l :: held)
  | .unlock l | .destroy l => if l ∈ held then some (held.erase l) else none
  | .other _ => some held

/-- Each lock that is taken is given back once, and no other lock is. -/
def BalancedTrace (trace : List (Event L O)) : Prop := run Event.after [] trace = some []

instance (trace : List (Event L O)) : Decidable (BalancedTrace trace) :=
  inferInstanceAs (Decidable (_ = _))

/-- A trace that leaves the locks that are held as they are. -/
def Neutral (trace : List (Event L O)) : Prop := ∀ held, run Event.after held trace = some held

variable {trace rest : List (Event L O)} {l : L}

/-- A neutral trace in front is passed over. -/
theorem Neutral.run_append (h : Neutral trace) (rest : List (Event L O)) (held : List L) :
    run Event.after held (trace ++ rest) = run Event.after held rest := by
  rw [Transition.run_append, h held, bind_some]

/-- The empty trace is neutral. -/
theorem neutral_nil : Neutral ([] : List (Event L O)) := fun _ => rfl

/-- So is a trace without lock operations. -/
theorem neutral_other {os : List O} : Neutral (L := L) (os.map Event.other) := by
  intro held
  induction os with
  | nil => rfl
  | cons o os ih => exact ih

/-- Neutral traces follow each other. -/
theorem Neutral.append (h : Neutral trace) (hrest : Neutral rest) : Neutral (trace ++ rest) :=
  fun held => (h.run_append rest held).trans (hrest held)

/-- The lock taken last is given back. -/
theorem release_head (held : List L) (e : Event L O) (he : e = .unlock l ∨ e = .destroy l) :
    run Event.after (l :: held) [e] = some held := by
  have hafter : Event.after (l :: held) e = some held := by
    rcases he with rfl | rfl <;>
      rw [Event.after, if_pos mem_cons_self, erase_cons_head]
  rw [run, hafter]
  rfl

/-- A lock around a neutral trace. -/
theorem Neutral.locked (h : Neutral trace) : Neutral (locked l trace) :=
  fun held => (h.run_append [.unlock l] (l :: held)).trans (release_head held _ (.inl rfl))

/-- A lock that is destroyed while it is held. -/
theorem neutral_destroy : Neutral (O := O) [.lock l, .destroy l] :=
  fun held => release_head held _ (.inr rfl)

/-- A neutral trace is balanced. -/
theorem Neutral.balanced (h : Neutral trace) : BalancedTrace trace := h []

/-- A neutral trace in front does not matter. -/
theorem Neutral.append_balanced (h : Neutral trace) :
    BalancedTrace (trace ++ rest) ↔ BalancedTrace rest := by
  rw [BalancedTrace, BalancedTrace, h.run_append]

/-- Nothing is held any more when a lock is given back. -/
theorem Neutral.not_balanced (h : Neutral trace) : ¬BalancedTrace (trace ++ .unlock l :: rest) := by
  have hnone : run (Event.after (O := O)) [] (.unlock l :: rest) = none := by
    rw [run, Event.after, if_neg not_mem_nil, bind_none]
  rw [h.append_balanced]
  exact (some_ne_none []).symm

end Traces

end PineVoice.LockTrace
