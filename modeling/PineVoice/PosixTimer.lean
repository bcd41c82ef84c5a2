import Mathlib.Data.Int.Notation
import Mathlib.Data.List.InsertIdx
import Mathlib.Data.List.Nodup
import PineVoice.Transition

/-!
# POSIX timers

The timers are nodes of a linked list, and the id of a new one follows that of the last node.
`timer_delete` takes a node out through the node in front of it, which it cannot tell from the
first node of the list: when the second timer is deleted, the first one is lost with it.
-/

namespace PineVoice.PosixTimer

open Transition List

/-- `POSIX_TIMER_ID_MIN`. -/
def posixTimerIdMin : ℤ := 1

/-- `clockid_t`. -/
inductive ClockId where
  | realtime
  | monotonic
  | other
deriving DecidableEq

/-- `struct sigevent`. -/
structure Sigevent where
  /-- `sigev_notify` is `SIGEV_THREAD`. -/
  sigevThread : Bool
  /-- `sigev_notify_function`, zero for `NULL`. -/
  sigevNotifyFunction : ℕ
  /-- `sigev_value`. -/
  sigevValue : ℕ
deriving DecidableEq

/-- `timer_list_t`. -/
structure TimerList where
  /-- `id`. -/
  id : ℤ
  /-- `evp`. -/
  evp : Sigevent
deriving DecidableEq

/-- `(int)timer_list->id + 1`, in 32 bits. -/
def followingId (id : ℤ) : ℤ := Int.bmod (id+1) 4294967296

/-- The id of the next timer. -/
def newId (head : List TimerList) : ℤ :=
  match head.getLast? with
  | none => posixTimerIdMin
  | some last => followingId last.id

/-- `timer_create`, with the result of `aos_timer_new_ext`: the list and the id, `none` for `-1`.
A timer for which it fails stays in the list. -/
def timerCreate (head : List TimerList) (clockid : ClockId) (evp : Option Sigevent)
    (aosTimerNew : Bool) : List TimerList × Option ℤ :=
  match evp with
  | none => (head, none)
  | some evp =>
    if clockid = .other then (head, none)
    else if evp.sigevThread = false then (head, none)
    else if evp.sigevNotifyFunction = 0 then (head, none)
    else
      (head ++ [⟨newId head, evp⟩], if aosTimerNew then some (newId head) else none)

/-- `timer_delete`; `none` for `-1`. The node in front of the first node and of the second one
is the head. -/
def timerDelete (head : List TimerList) (timerid : ℤ) : Option (List TimerList) :=
  (head.findIdx? fun node => node.id = timerid).map fun i =>
    if i-1 = 0 then head.drop (i+1) else head.eraseIdx i

/-- `struct itimerspec`, in nanoseconds. -/
structure Itimerspec where
  /-- `it_value`. -/
  value : ℤ
  /-- `it_interval`. -/
  interval : ℤ

/-- `timer_settime` at a time of `CLOCK_MONOTONIC`: the milliseconds that the timer is set to,
`none` for `-1`. -/
def timerSettime (head : List TimerList) (now timerid : ℤ) (abstime : Bool)
    (value : Option Itimerspec) (ovalue : Bool) : Option ℤ :=
  match value with
  | none => none
  | some value =>
    let found := head.any fun node => node.id = timerid
    if head = [] then none
    else if abstime = true ∧ (value.value-now < 0 ∨ value.interval-now < 0) then none
    else if ovalue = true ∧ found = false then none
    else if found = false then none
    else some ((if abstime then value.value-now else value.value)/1000000)

/-- The list, and the ids of the timers that were created and not yet deleted. -/
structure Timers where
  /-- `g_timer_list_head`. -/
  head : List TimerList
  /-- The ids. -/
  live : List ℤ
deriving DecidableEq

/-- No timer was created. -/
def Timers.init : Timers := ⟨[], []⟩

/-- The calls. -/
inductive Call where
  | create (clockid : ClockId) (evp : Sigevent)
  | delete (timerid : ℤ)

/-- A call that is successful. -/
def step (s : Timers) : Call → Option Timers
  | .create clockid evp =>
    match timerCreate s.head clockid (some evp) true with
    | (head, some id) => some ⟨head, s.live ++ [id]⟩
    | (_, none) => none
  | .delete timerid =>
    (timerDelete s.head timerid).map fun head => ⟨head, s.live.erase timerid⟩

/-- The ids that are accepted are those of the timers, and they are distinct. -/
structure Timers.Correct (s : Timers) : Prop where
  /-- `timer_settime` accepts them, for a relative time. -/
  settime : ∀ now id value ovalue,
    (timerSettime s.head now id false (some value) ovalue).isSome ↔ id ∈ s.live
  /-- `timer_delete` accepts them. -/
  delete : ∀ id, (timerDelete s.head id).isSome ↔ id ∈ s.live
  /-- They are distinct. -/
  distinct : s.live.Nodup

/-- A new id is not in use, and the timer that is deleted is not the second of the list. -/
def Allowed (s : Timers) : Call → Prop
  | .create _ _ => newId s.head ∉ s.head.map TimerList.id
  | .delete timerid => (s.head.map TimerList.id)[1]? ≠ some timerid

instance (s : Timers) : ∀ call, Decidable (Allowed s call)
  | .create _ _ => inferInstanceAs (Decidable (_ ∉ _))
  | .delete _ => inferInstanceAs (Decidable (_ ≠ _))

/-- The list has the timers that were created and not yet deleted. -/
structure Timers.Inv (s : Timers) : Prop where
  /-- The list. -/
  ids : s.head.map TimerList.id = s.live
  /-- No id is used twice. -/
  nodup : s.live.Nodup

/-! ## The calls -/

theorem timerDelete_isSome (head : List TimerList) (id : ℤ) :
    (timerDelete head id).isSome ↔ id ∈ head.map TimerList.id := by
  rw [timerDelete]
  simp

theorem timerSettime_isSome (head : List TimerList) (now id : ℤ) (value : Itimerspec)
    (ovalue : Bool) : (timerSettime head now id false (some value) ovalue).isSome ↔
      id ∈ head.map TimerList.id := by
  have hfound : (head.any fun node => node.id = id) = true ↔ id ∈ head.map TimerList.id := by
    simp
  rw [← hfound, timerSettime]
  cases head with
  | nil => simp
  | cons node rest =>
    generalize ((node :: rest).any fun node => node.id = id) = found
    cases found <;> simp

variable {s : Timers}

theorem Timers.Inv.correct (h : s.Inv) : s.Correct where
  settime now id value ovalue := by rw [timerSettime_isSome, h.ids]
  delete id := by rw [timerDelete_isSome, h.ids]
  distinct := h.nodup

section Step

variable {s s' : Timers}

variable {clockid : ClockId} {evp : Sigevent} {timerid : ℤ}

/-- A successful `timer_create`. -/
theorem step_create (h : step s (.create clockid evp) = some s') :
    s' = ⟨s.head ++ [⟨newId s.head, evp⟩], s.live ++ [newId s.head]⟩ := by
  simp only [step, timerCreate] at h
  split_ifs at h
  cases h
  rfl

/-- A successful `timer_delete`. -/
theorem step_delete (h : step s (.delete timerid) = some s') :
    ∃ i, (s.head.map TimerList.id)[i]? = some timerid ∧
      s' = ⟨if i-1 = 0 then s.head.drop (i+1) else s.head.eraseIdx i, s.live.erase timerid⟩ := by
  rcases Option.map_eq_some_iff.mp h with ⟨head, hdelete, rfl⟩
  rcases Option.map_eq_some_iff.mp hdelete with ⟨i, hfind, rfl⟩
  rcases List.findIdx?_eq_some_iff_getElem.mp hfind with ⟨hlt, hid, _⟩
  refine ⟨i, ?_, rfl⟩
  rw [getElem?_map, getElem?_eq_getElem hlt]
  exact congrArg some (of_decide_eq_true hid)

/-- A new timer with an id that is not in use. -/
theorem Timers.Inv.create (h : s.Inv) (hfresh : newId s.head ∉ s.head.map TimerList.id)
    (hstep : step s (.create clockid evp) = some s') : s'.Inv := by
  rw [step_create hstep]
  rw [h.ids] at hfresh
  constructor
  · rw [map_append, h.ids]
    rfl
  · dsimp only
    rw [← concat_eq_append]
    exact h.nodup.concat hfresh

/-- The deletion of a timer other than the second one. -/
theorem Timers.Inv.delete (h : s.Inv) (hsecond : (s.head.map TimerList.id)[1]? ≠ some timerid)
    (hstep : step s (.delete timerid) = some s') : s'.Inv := by
  rcases step_delete hstep with ⟨i, hi, rfl⟩
  have hhead : (if i-1 = 0 then s.head.drop (i+1) else s.head.eraseIdx i) = s.head.eraseIdx i := by
    by_cases hzero : i = 0
    · rw [hzero, eraseIdx_zero, ← drop_one]
      rfl
    · have hone : i ≠ 1 := fun h1 => hsecond (h1 ▸ hi)
      rw [if_neg (by omega)]
  have herase : s.live.erase timerid = s.live.eraseIdx i := by
    rw [h.ids] at hi
    rcases List.getElem?_eq_some_iff.mp hi with ⟨hlt, hid⟩
    rw [← hid, h.nodup.erase_getElem i hlt]
  constructor
  · rw [hhead, herase, ← h.ids, eraseIdx_map]
  · exact h.nodup.erase timerid

/-- A new timer with an id that is in use. -/
theorem Timers.Inv.create_breaks (h : s.Inv) (hused : newId s.head ∈ s.head.map TimerList.id)
    (hstep : step s (.create clockid evp) = some s') : ¬s'.Correct := by
  rw [step_create hstep]
  intro hcorrect
  rw [h.ids] at hused
  have hdisjoint := disjoint_of_nodup_append hcorrect.distinct
  exact hdisjoint hused (mem_singleton_self _)

/-- The deletion of the second timer loses the first one. -/
theorem Timers.Inv.delete_breaks (h : s.Inv)
    (hsecond : (s.head.map TimerList.id)[1]? = some timerid)
    (hstep : step s (.delete timerid) = some s') : ¬s'.Correct := by
  rcases step_delete hstep with ⟨i, hi, rfl⟩
  intro hcorrect
  have hids := h.ids
  have hnodup := h.nodup
  rw [← hids] at hnodup
  have hone : i = 1 := by
    rcases List.getElem?_eq_some_iff.mp hi with ⟨hlt, hid⟩
    rcases List.getElem?_eq_some_iff.mp hsecond with ⟨hlt', hid'⟩
    exact (hnodup.getElem_inj_iff).mp (hid.trans hid'.symm)
  subst hone
  match hhead : s.head with
  | [] =>
    rw [hhead] at hsecond
    cases hsecond
  | [_] =>
    rw [hhead] at hsecond
    cases hsecond
  | first :: second :: rest =>
    rw [hhead] at hsecond hnodup hids
    have hid : second.id = timerid := Option.some.inj hsecond
    simp only [map_cons, nodup_cons, mem_cons, not_or] at hnodup
    have hlive : first.id ∈ s.live.erase timerid := by
      refine (mem_erase_of_ne ?_).mpr ?_
      · rw [← hid]
        exact hnodup.1.1
      · rw [← hids]
        exact mem_cons_self
    have hgone := (hcorrect.delete first.id).mpr hlive
    rw [timerDelete_isSome, hhead] at hgone
    exact hnodup.1.2 hgone

end Step

/-! ## New ids -/

/-- The ids of the list increase, and leave room for some more. -/
structure Increasing (head : List TimerList) (more : ℕ) : Prop where
  /-- They increase. -/
  ids : (head.map TimerList.id).Pairwise (· < ·)
  /-- They are positive, and the following ones have 32 bits. -/
  room : ∀ id ∈ head.map TimerList.id, 0 < id ∧ id+more < 2147483648

section Fresh

variable {head : List TimerList} {more : ℕ}

/-- The new id is larger than all others. -/
theorem Increasing.newId_spec (h : Increasing head (more+1)) (hmore : more+1 < 2147483648) :
    (∀ id ∈ head.map TimerList.id, id < newId head) ∧ 0 < newId head ∧
      newId head+more < 2147483648 := by
  cases hlast : head.getLast? with
  | none =>
    rw [List.getLast?_eq_none_iff.mp hlast]
    refine ⟨fun id hid => absurd hid not_mem_nil, by decide, ?_⟩
    change 1+(more : ℤ) < 2147483648
    omega
  | some last =>
    rcases List.getLast?_eq_some_iff.mp hlast with ⟨front, rfl⟩
    have hids := h.ids
    rw [map_append, pairwise_append] at hids
    have hroom := h.room last.id (by simp)
    have hnew : newId (front ++ [last]) = last.id+1 := by
      rw [newId, hlast]
      exact Int.bmod_eq_of_le_mul_two (by omega) (by omega)
    refine ⟨fun id hid => ?_, by omega, by omega⟩
    rw [map_append, mem_append] at hid
    rcases hid with hfront | hend
    · have := hids.2.2 id hfront last.id mem_cons_self
      omega
    · rw [List.mem_singleton.mp hend]
      omega

/-- A new timer keeps the order. -/
theorem Increasing.concat (h : Increasing head (more+1)) (hmore : more+1 < 2147483648)
    (evp : Sigevent) : Increasing (head ++ [⟨newId head, evp⟩]) more := by
  rcases h.newId_spec hmore with ⟨hlarger, hpos, hbits⟩
  constructor
  · rw [map_append, pairwise_append]
    refine ⟨h.ids, pairwise_singleton .., fun id hid other hother => ?_⟩
    rw [List.mem_singleton.mp hother]
    exact hlarger id hid
  · intro id hid
    rw [map_append, mem_append] at hid
    rcases hid with hold | hnew
    · have := h.room id hold
      omega
    · rw [List.mem_singleton.mp hnew]
      exact ⟨hpos, hbits⟩

/-- Whatever is taken out of the list, the rest keeps its order. -/
theorem Increasing.sublist {rest : List TimerList} (h : Increasing head more)
    (hrest : rest.Sublist head) : Increasing rest more where
  ids := h.ids.sublist (hrest.map TimerList.id)
  room := fun id hid => h.room id ((hrest.map TimerList.id).subset hid)

end Fresh

/-- The timers that a list of calls creates. -/
def creations : List Call → ℕ
  | [] => 0
  | .create _ _ :: calls => creations calls+1
  | .delete _ :: calls => creations calls

/-- The timer that is deleted is not the second of the list. -/
def NotSecond (s : Timers) : Call → Prop
  | .create _ _ => True
  | .delete timerid => (s.head.map TimerList.id)[1]? ≠ some timerid

/-- Before the ids exceed 32 bits, none is used twice. -/
theorem along_allowed_iff : ∀ {calls : List Call} {s : Timers},
    Increasing s.head (creations calls) → creations calls < 2147483648 →
      (Along step Allowed s calls ↔ Along step NotSecond s calls)
  | [], _, _, _ => Iff.rfl
  | .create clockid evp :: calls, s, h, hfew => by
    have hfresh : Allowed s (.create clockid evp) := fun hmem =>
      Int.lt_irrefl _ ((h.newId_spec hfew).1 _ hmem)
    have hrest (s' : Timers) (hstep : step s (.create clockid evp) = some s') :
        Along step Allowed s' calls ↔ Along step NotSecond s' calls := by
      rw [step_create hstep]
      exact along_allowed_iff (h.concat hfew evp) (Nat.lt_of_succ_lt hfew)
    exact and_congr (iff_of_true hfresh trivial) (forall₂_congr hrest)
  | .delete timerid :: calls, s, h, hfew => by
    have hrest (s' : Timers) (hstep : step s (.delete timerid) = some s') :
        Along step Allowed s' calls ↔ Along step NotSecond s' calls := by
      rcases step_delete hstep with ⟨i, _, rfl⟩
      refine along_allowed_iff (h.sublist ?_) hfew
      dsimp only
      split_ifs
      · exact drop_sublist ..
      · exact eraseIdx_sublist ..
    exact and_congr Iff.rfl (forall₂_congr hrest)

/-! ## Whole runs -/

/-- The calls that keep the ids correct. -/
theorem run_correct_iff {calls : List Call} (hrun : run step .init calls = some s) :
    Along step (fun t call => ∀ t', step t call = some t' → t'.Correct) .init calls ↔
      Along step Allowed .init calls := by
  refine along_good_iff (fun t h => Timers.Inv.correct h) ?_ ?_ ⟨rfl, nodup_nil⟩ hrun
  · intro t call t' hallowed h hstep
    cases call with
    | create clockid evp => exact h.create hallowed hstep
    | delete timerid => exact h.delete hallowed hstep
  · intro t call t' hnot h hstep
    cases call with
    | create clockid evp => exact h.create_breaks (not_not.mp hnot) hstep
    | delete timerid => exact h.delete_breaks (not_not.mp hnot) hstep

/-- After every call of a run of successful calls the ids are correct, if and only if no new id was
in use and no call deletes the second timer of the list. The first of these never happens before
2^31 timers were created. -/
theorem timer_ids_correct_iff (calls : List Call) (s : Timers)
    (hrun : run step .init calls = some s) :
    (Along step (fun t call => ∀ t', step t call = some t' → t'.Correct) .init calls ↔
        Along step Allowed .init calls) ∧
      (creations calls < 2147483648 →
        (Along step Allowed .init calls ↔ Along step NotSecond .init calls)) :=
  ⟨run_correct_iff hrun, along_allowed_iff ⟨List.Pairwise.nil, fun _ hid => by cases hid⟩⟩

/-- A timer of `CLOCK_MONOTONIC`. -/
def createTimer : Call := .create .monotonic ⟨true, 1, 0⟩

/-- Three timers, of which the last and the first are deleted. -/
theorem timer_ids_correct_three :
    Along step (fun t call => ∀ t', step t call = some t' → t'.Correct) .init
      [createTimer, createTimer, createTimer, .delete 3, .delete 1, createTimer] := by
  obtain ⟨s, hs, -⟩ : ∃ s, run step .init [createTimer, createTimer, createTimer, .delete 3,
      .delete 1, createTimer] = some s ∧ s.live = [2, 3] := by
    decide +kernel
  exact (timer_ids_correct_iff _ s hs).1.mpr (by decide +kernel)

/-- The second of two timers is deleted: the first one is not accepted any more, and its id is
used again. -/
theorem second_timer_loses_first :
    (run step .init [createTimer, createTimer, .delete 2]).map
        (fun s => (s.live, (timerDelete s.head 1).isSome)) = some ([1], false) ∧
      (run step .init [createTimer, createTimer, .delete 2, createTimer]).map Timers.live =
        some [1, 1] ∧
      ∃ s, run step .init [createTimer, createTimer, .delete 2] = some s ∧ ¬s.Correct := by
  obtain ⟨s, hs, hlive, hdelete⟩ : ∃ s, run step .init [createTimer, createTimer, .delete 2] =
      some s ∧ s.live = [1] ∧ (timerDelete s.head 1).isSome = false := by
    decide +kernel
  refine ⟨by decide +kernel, by decide +kernel, s, hs, fun hcorrect => ?_⟩
  have hsome := (hcorrect.delete 1).mpr (by rw [hlive]; exact mem_singleton_self 1)
  rw [hdelete] at hsome
  cases hsome

end PineVoice.PosixTimer
