import Mathlib.Algebra.Group.Nat.Defs
import Mathlib.Data.Int.Notation
import Mathlib.Data.List.Sort
import PineVoice.Transition

/-!
# Delayed events

`event_publish_delay` asks the event service for an event at a later time; the task that waits for
descriptors publishes the events whose deadline is over. Deadlines have 32 bits while the clock
has 64, so that after 2^32 ms every event is over at once. The deadline of a request is computed
before the list is locked.
-/

namespace PineVoice.EventSvr

open Transition List

/-- `struct event_param` in `timeouts`. -/
structure EventParam where
  /-- `event_id`. -/
  eventId : ℕ
  /-- `timeout`, of 32 bits. -/
  timeout : ℕ
  /-- `data`. -/
  data : ℕ
  /-- The number of the request, which the code does not have. -/
  request : ℕ
  /-- The time of the request and its delay, which the code does not keep. -/
  deadline : ℕ
deriving DecidableEq

/-- `ev_service`, and what was published. -/
structure EvService where
  /-- `timeouts`. -/
  timeouts : List EventParam
  /-- The `timer` of `process_rpc` before it has the lock. -/
  timer : Option EventParam
  /-- `do_time_event` has the lock. -/
  looping : Bool
  /-- What `do_time_event` returned last. -/
  delayedMs : ℤ
  /-- The last value of `msp_now_ms`. -/
  clock : ℕ
  /-- The requests so far. -/
  requests : ℕ
  /-- The delayed events published so far, and when. -/
  published : List (EventParam × ℕ)

/-- After `event_service_init`. -/
def EvService.init (clock : ℕ) : EvService := ⟨[], none, false, -1, clock, 0, []⟩

/-- The timer that `process_rpc` makes of a request. -/
def newTimer (request now eventId data delay : ℕ) : EventParam where
  eventId := eventId
  timeout := (now+delay)%2^32
  data := data
  request := request
  deadline := now+delay

/-- The loop of `process_rpc`: in front of the first node with a later timeout. -/
def addTimer (timer : EventParam) (timeouts : List EventParam) : List EventParam :=
  timeouts.orderedInsert (fun timer node => timer.timeout < node.timeout) timer

/-- What happens, with the time that is read. -/
inductive Act where
  /-- `process_rpc` computes the timer of a request. -/
  | request (eventId data delay now : ℕ)
  /-- It adds the timer under the lock. -/
  | add
  /-- `do_time_event` takes the lock. -/
  | lock
  /-- One round of its loop. -/
  | visit (now : ℕ)

/-- One round of `do_time_event`. -/
def doTimeEvent (s : EvService) (now : ℕ) : EvService :=
  match s.timeouts with
  | [] => { s with looping := false, delayedMs := -1 }
  | node :: rest =>
    if now ≥ node.timeout then
      { s with timeouts := rest, clock := now, published := s.published ++ [(node, now)] }
    else { s with looping := false, clock := now, delayedMs := node.timeout-now }

/-- One step; the clock does not run backwards. -/
def step (s : EvService) : Act → Option EvService
  | .request eventId data delay now =>
    if s.clock ≤ now ∧ s.timer = none then
      if delay > 0 then
        some { s with
          timer := some (newTimer s.requests now eventId data delay)
          clock := now
          requests := s.requests+1 }
      else some { s with clock := now }
    else none
  | .add =>
    match s.timer with
    | some timer =>
      if s.looping then none
      else some { s with timer := none, timeouts := addTimer timer s.timeouts }
    | none => none
  | .lock => if s.looping then none else some { s with looping := true }
  | .visit now => if s.looping ∧ s.clock ≤ now then some (doTimeEvent s now) else none

/-- Each delayed event is published at most once, not early, and in the order of the deadlines. -/
structure Timely (published : List (EventParam × ℕ)) : Prop where
  /-- No request is published twice. -/
  once : (published.map fun x => x.1.request).Nodup
  /-- None is early. -/
  late : ∀ x ∈ published, x.1.deadline ≤ x.2
  /-- The deadlines increase. -/
  ordered : published.Pairwise fun x y => x.1.deadline ≤ y.1.deadline

/-- The deadline of a request has 32 bits. While a request waits for the lock, no event with a
later deadline is published. -/
def InTime (s : EvService) : Act → Prop
  | .request _ _ delay now => now+delay < 2^32
  | .visit now => ∀ timer ∈ s.timer, ∀ node ∈ s.timeouts.head?, node.timeout ≤ now →
      node.deadline ≤ timer.deadline
  | _ => True

instance (s : EvService) : ∀ a, Decidable (InTime s a)
  | .request _ _ _ _ => inferInstanceAs (Decidable (_ < _))
  | .visit _ => inferInstanceAs (Decidable (∀ timer ∈ s.timer, _))
  | .add => inferInstanceAs (Decidable True)
  | .lock => inferInstanceAs (Decidable True)

/-! ## The list of deadlines -/

variable {timer : EventParam} {timeouts : List EventParam} {delay now : ℕ}

@[simp]
theorem mem_addTimer {node : EventParam} :
    node ∈ addTimer timer timeouts ↔ node = timer ∨ node ∈ timeouts :=
  mem_orderedInsert ..

/-- The list stays sorted. -/
theorem addTimer_pairwise (h : timeouts.Pairwise fun x y => x.timeout ≤ y.timeout) :
    (addTimer timer timeouts).Pairwise fun x y => x.timeout ≤ y.timeout := by
  induction timeouts with
  | nil => exact pairwise_singleton ..
  | cons node rest ih =>
    rcases List.pairwise_cons.mp h with ⟨hnode, hrest⟩
    rw [addTimer, orderedInsert_cons]
    split_ifs with hlt
    · refine List.pairwise_cons.mpr ⟨fun x hx => ?_, h⟩
      rcases List.mem_cons.mp hx with rfl | hmem
      · exact le_of_lt hlt
      · exact le_trans (le_of_lt hlt) (hnode x hmem)
    · refine List.pairwise_cons.mpr ⟨fun x hx => ?_, ih hrest⟩
      rcases mem_addTimer.mp hx with rfl | hmem
      · exact Nat.le_of_not_lt hlt
      · exact hnode x hmem

/-- The timers that were not published yet. -/
def EvService.waiting (s : EvService) : List EventParam := s.timer.toList ++ s.timeouts

/-- The requests, those that wait and those that were published. -/
def EvService.known (s : EvService) : List ℕ :=
  s.waiting.map EventParam.request ++ s.published.map fun x => x.1.request

/-- What holds in a run of steps in time. -/
structure EvService.Inv (s : EvService) : Prop where
  /-- No timeout has lost a bit. -/
  unwrapped : ∀ x ∈ s.waiting, x.timeout = x.deadline
  /-- The list is sorted. -/
  sorted : s.timeouts.Pairwise fun x y => x.timeout ≤ y.timeout
  /-- No event was published early, or in the future. -/
  late : ∀ x ∈ s.published, x.1.deadline ≤ x.2 ∧ x.2 ≤ s.clock
  /-- The deadlines of what was published increase. -/
  ordered : s.published.Pairwise fun x y => x.1.deadline ≤ y.1.deadline
  /-- What is published is due before what waits. -/
  first : ∀ x ∈ s.published, ∀ y ∈ s.waiting, x.1.deadline ≤ y.deadline
  /-- Each request is in one place. -/
  apart : s.known.Nodup
  /-- The requests are numbered. -/
  numbered : ∀ r ∈ s.known, r < s.requests

theorem init_inv (clock : ℕ) : (EvService.init clock).Inv where
  unwrapped := by simp [EvService.init, EvService.waiting]
  sorted := List.Pairwise.nil
  late := by simp [EvService.init]
  ordered := List.Pairwise.nil
  first := by simp [EvService.init]
  apart := nodup_nil
  numbered := by simp [EvService.init, EvService.known, EvService.waiting]

section Steps

variable {s : EvService}

variable {now : ℕ}

/-- The time goes on. -/
theorem EvService.Inv.tick (h : s.Inv) (hle : s.clock ≤ now) (looping : Bool) (delayedMs : ℤ) :
    EvService.Inv { s with clock := now, looping := looping, delayedMs := delayedMs } where
  unwrapped := h.unwrapped
  sorted := h.sorted
  late x hx := ⟨(h.late x hx).1, le_trans (h.late x hx).2 hle⟩
  ordered := h.ordered
  first := h.first
  apart := h.apart
  numbered := h.numbered

/-- A request whose deadline has 32 bits. -/
theorem EvService.Inv.request (h : s.Inv) {eventId data delay : ℕ} (hle : s.clock ≤ now)
    (hidle : s.timer = none) (hbits : now+delay < 2^32) :
    EvService.Inv { s with
      timer := some (newTimer s.requests now eventId data delay)
      clock := now
      requests := s.requests+1 } := by
  have hwaiting : s.waiting = s.timeouts := by
    rw [EvService.waiting, hidle]
    rfl
  have hnew : EvService.waiting { s with
      timer := some (newTimer s.requests now eventId data delay)
      clock := now
      requests := s.requests+1 } =
      newTimer s.requests now eventId data delay :: s.waiting := by
    rw [hwaiting]
    rfl
  have hknown : EvService.known { s with
      timer := some (newTimer s.requests now eventId data delay)
      clock := now
      requests := s.requests+1 } = s.requests :: s.known := by
    rw [EvService.known, hnew]
    rfl
  constructor
  · rw [hnew]
    intro x hx
    rcases List.mem_cons.mp hx with rfl | hold
    · exact Nat.mod_eq_of_lt hbits
    · exact h.unwrapped x hold
  · exact h.sorted
  · exact fun x hx => ⟨(h.late x hx).1, le_trans (h.late x hx).2 hle⟩
  · exact h.ordered
  · rw [hnew]
    intro x hx y hy
    rcases List.mem_cons.mp hy with rfl | hold
    · have hpast := h.late x hx
      change x.1.deadline ≤ now+delay
      omega
    · exact h.first x hx y hold
  · rw [hknown]
    exact List.nodup_cons.mpr ⟨fun hmem => lt_irrefl _ (h.numbered _ hmem), h.apart⟩
  · rw [hknown]
    intro r hr
    rcases List.mem_cons.mp hr with rfl | hold
    · exact Nat.lt_succ_self _
    · exact Nat.lt_succ_of_lt (h.numbered r hold)

/-- The timer of a request is put into the list. -/
theorem EvService.Inv.add (h : s.Inv) {timer : EventParam} (htimer : s.timer = some timer) :
    EvService.Inv { s with timer := none, timeouts := addTimer timer s.timeouts } := by
  have hold : s.waiting = timer :: s.timeouts := by
    rw [EvService.waiting, htimer]
    rfl
  have hperm : (addTimer timer s.timeouts).Perm s.waiting := by
    rw [hold]
    exact perm_orderedInsert ..
  have hknown : (EvService.known { s with
      timer := none
      timeouts := addTimer timer s.timeouts }).Perm s.known :=
    (hperm.map EventParam.request).append_right _
  constructor
  · exact fun x hx => h.unwrapped x (hperm.mem_iff.mp hx)
  · exact addTimer_pairwise h.sorted
  · exact h.late
  · exact h.ordered
  · exact fun x hx y hy => h.first x hx y (hperm.mem_iff.mp hy)
  · exact hknown.nodup_iff.mpr h.apart
  · exact fun r hr => h.numbered r (hknown.mem_iff.mp hr)

/-- The first event of the list is over. -/
theorem EvService.Inv.publish (h : s.Inv) {node : EventParam} {rest : List EventParam}
    (hlist : s.timeouts = node :: rest) (hle : s.clock ≤ now) (hover : now ≥ node.timeout)
    (hfirst : ∀ timer ∈ s.timer, node.deadline ≤ timer.deadline) :
    EvService.Inv { s with
      timeouts := rest
      clock := now
      published := s.published ++ [(node, now)] } := by
  have hsorted := h.sorted
  rw [hlist] at hsorted
  rcases List.pairwise_cons.mp hsorted with ⟨hnode, hrest⟩
  have hmem : node ∈ s.waiting := by
    rw [EvService.waiting, hlist]
    exact mem_append_right _ mem_cons_self
  have hexact : node.timeout = node.deadline := h.unwrapped node hmem
  have hsub (x : EventParam) (hx : x ∈ s.timer.toList ++ rest) : x ∈ s.waiting := by
    rw [EvService.waiting, hlist]
    rcases List.mem_append.mp hx with hx | hx
    · exact mem_append_left _ hx
    · exact mem_append_right _ (mem_cons_of_mem _ hx)
  have hknown : (EvService.known { s with
      timeouts := rest
      clock := now
      published := s.published ++ [(node, now)] }).Perm s.known := by
    rw [EvService.known, EvService.known, EvService.waiting, EvService.waiting, hlist]
    simp only [map_append, append_assoc]
    refine List.Perm.append_left _ ?_
    rw [← append_assoc]
    exact perm_append_singleton ..
  constructor
  · exact fun x hx => h.unwrapped x (hsub x hx)
  · exact hrest
  · intro x hx
    rcases List.mem_append.mp hx with hold | hnew
    · exact ⟨(h.late x hold).1, le_trans (h.late x hold).2 hle⟩
    · rw [List.mem_singleton.mp hnew]
      exact ⟨hexact ▸ hover, le_refl now⟩
  · refine List.pairwise_append.mpr ⟨h.ordered, pairwise_singleton .., ?_⟩
    intro x hx y hy
    rw [List.mem_singleton.mp hy]
    exact h.first x hx node hmem
  · intro x hx y hy
    rcases List.mem_append.mp hx with hold | hnew
    · exact h.first x hold y (hsub y hy)
    · rw [List.mem_singleton.mp hnew]
      rcases List.mem_append.mp hy with htimer | htail
      · exact hfirst y (Option.mem_toList.mp htimer)
      · have hy' := h.unwrapped y (hsub y hy)
        have hle' := hnode y htail
        change node.deadline ≤ y.deadline
        omega
  · exact hknown.nodup_iff.mpr h.apart
  · exact fun r hr => h.numbered r (hknown.mem_iff.mp hr)

end Steps

/-- Every step in time keeps the list and what was published in order. -/
theorem EvService.Inv.step (s : EvService) (a : Act) (s' : EvService) (hok : InTime s a)
    (h : s.Inv) (hstep : EventSvr.step s a = some s') : s'.Inv := by
  cases a with
  | request eventId data delay now =>
    rw [EventSvr.step] at hstep
    split_ifs at hstep with hready hdelay
    · cases hstep
      exact h.request hready.1 hready.2 hok
    · cases hstep
      exact h.tick hready.1 s.looping s.delayedMs
  | add =>
    rw [EventSvr.step] at hstep
    split at hstep
    · rename_i timer htimer
      split_ifs at hstep with hlooping
      cases hstep
      exact h.add htimer
    · cases hstep
  | lock =>
    rw [EventSvr.step] at hstep
    split_ifs at hstep with hlooping
    cases hstep
    exact h.tick (le_refl _) true s.delayedMs
  | visit now =>
    rw [EventSvr.step] at hstep
    split_ifs at hstep with hready
    cases hstep
    rw [doTimeEvent]
    split
    · exact h.tick (le_refl _) false (-1)
    · rename_i node rest hlist
      split_ifs with hover
      · refine h.publish hlist hready.2 hover fun timer htimer => ?_
        exact hok timer htimer node (by rw [hlist]; rfl) hover
      · exact h.tick hready.2 false _

/-! ## Whole runs -/

/-- In every run of steps in time the delayed events are published at most once, not early and in
the order of their deadlines. -/
theorem delayed_events_timely (clock : ℕ) (acts : List Act) (s : EvService)
    (hintime : Along step InTime (.init clock) acts)
    (hrun : run step (.init clock) acts = some s) : Timely s.published := by
  have h : s.Inv := run_keeps EvService.Inv.step hintime (init_inv clock) hrun
  exact ⟨(List.nodup_append.mp h.apart).2.1, fun x hx => (h.late x hx).1, h.ordered⟩

/-- Two requests, the second of which is due first. -/
theorem delayed_events_timely_two :
    ∃ s, Along step InTime (.init 0)
        [.request 1 0 500 10, .add, .request 2 0 100 20, .add, .lock, .visit 120, .visit 510,
          .visit 510] ∧
      run step (.init 0)
        [.request 1 0 500 10, .add, .request 2 0 100 20, .add, .lock, .visit 120, .visit 510,
          .visit 510] = some s ∧
      s.published = [(⟨2, 120, 0, 1, 120⟩, 120), (⟨1, 510, 0, 0, 510⟩, 510)] ∧
      Timely s.published := by
  have hintime : Along step InTime (.init 0)
      [.request 1 0 500 10, .add, .request 2 0 100 20, .add, .lock, .visit 120, .visit 510,
        .visit 510] := by
    decide +kernel
  simp only [exists_and_left]
  exact ⟨hintime, exists_some_and (by decide +kernel) fun s hs _ =>
    delayed_events_timely 0 _ s hintime hs⟩

/-- After 2^32 ms an event with a delay of a second is published at once. -/
theorem delayed_event_early :
    ∃ s, run step (.init (2^32)) [.request 1 0 1000 (2^32), .add, .lock, .visit (2^32)] = some s ∧
      s.published = [(⟨1, 1000, 0, 0, 2^32+1000⟩, 2^32)] ∧ ¬Timely s.published :=
  exists_some_and (by decide +kernel) fun s _ hpublished htimely => by
    rw [hpublished] at htimely
    have hlate := htimely.late _ mem_cons_self
    change 2^32+1000 ≤ 2^32 at hlate
    omega

/-- A request that waits for the lock is overtaken by an event that is due later. -/
example : (run step (.init 0) [.request 1 0 62 0, .add, .request 2 0 1 60, .lock, .visit 62,
    .visit 62, .add, .lock, .visit 63]).map (fun s => s.published.map fun x => x.1.deadline) =
      some [62, 61] := by
  decide +kernel

end PineVoice.EventSvr
