import Mathlib.Data.List.Infix
import Mathlib.Logic.Function.Basic
import PineVoice.Button

/-!
# The patterns on which events fire

An event should fire on its own pattern only, and on actions that it did not fire on before. But
`compare_str_mem` looks at the first entries alone, so that an event of several entries fires on
any gesture that starts like it. The same comparison is made between the patterns of a new event
and of the registered ones.
-/

namespace PineVoice.Buttons

open Function Transition List

/-! ## Runs of actions -/

/-- The actions recorded so far. -/
def actions (notes : List Note) : List ButtonEvt :=
  notes.filterMap fun
    | .recorded elem => some elem
    | .invoked _ => none

/-- Every invocation of the event has a run of actions recorded before it that is the pattern
of the event, and no two of them share an action. -/
def FiresOnPattern (notes : List Note) (e : EventNode) : Prop :=
  ∃ start : ℕ → ℕ,
    (∀ i, notes[i]? = some (.invoked e) →
      ((actions (notes.take i)).drop (start i)).take e.buttons.length = e.buttons) ∧
    ∀ i j, i < j → notes[i]? = some (.invoked e) → notes[j]? = some (.invoked e) →
      start i+e.buttons.length ≤ start j ∨ start j+e.buttons.length ≤ start i

/-- The runs of all invocations, in their order and among the first `used` actions. -/
structure Explains (notes : List Note) (start : ℕ → ℕ) (used : ℕ) : Prop where
  /-- Each run is the pattern. -/
  found : ∀ i e, notes[i]? = some (.invoked e) →
    ((actions (notes.take i)).drop (start i)).take e.buttons.length = e.buttons
  /-- Each run ends among the first actions. -/
  below : ∀ i e, notes[i]? = some (.invoked e) → start i+e.buttons.length ≤ used
  /-- A later run starts after an earlier one. -/
  apart : ∀ i j e f, i < j → notes[i]? = some (.invoked e) → notes[j]? = some (.invoked f) →
    start i+e.buttons.length ≤ start j

variable {notes : List Note} {start : ℕ → ℕ} {i len used : ℕ} {e : EventNode} {srv : EventSrv}
  {b : Button} {nodes : List EventNode}

/-- What the runs of all invocations say about one event. -/
theorem Explains.firesOnPattern (h : Explains notes start used) (e : EventNode)
    : FiresOnPattern notes e :=
  ⟨start, fun i hi => h.found i e hi, fun i j hij hi hj => .inl (h.apart i j e e hij hi hj)⟩

/-- Nothing was invoked. -/
theorem explains_nil : Explains [] (fun _ => 0) 0 where
  found := by simp
  below := by simp
  apart := by simp

/-- More actions may be counted as used. -/
theorem Explains.mono {more : ℕ} (h : Explains notes start used) (hle : used ≤ more)
    : Explains notes start more where
  found := h.found
  below := fun i e hi => le_trans (h.below i e hi) hle
  apart := h.apart

/-- An invocation in a list with one more note is an earlier one or the last note. -/
theorem invoked_concat {note : Note} (hi : (notes ++ [note])[i]? = some (.invoked e)) :
    i < notes.length ∧ notes[i]? = some (.invoked e) ∨ i = notes.length ∧ note = .invoked e := by
  by_cases hlt : i < notes.length
  · rw [getElem?_append_left hlt] at hi
    exact .inl ⟨hlt, hi⟩
  · have hbound := (List.getElem?_eq_some_iff.mp hi).1
    rw [length_append, length_singleton] at hbound
    have heq : i = notes.length := by omega
    subst heq
    rw [getElem?_concat_length] at hi
    exact .inr ⟨rfl, Option.some.inj hi⟩

/-- The actions before a note are those before it among the earlier notes. -/
theorem take_concat (hle : i ≤ notes.length) (note : Note) :
    (notes ++ [note]).take i = notes.take i :=
  take_append_of_le_length hle

/-- Recording an action uses none. -/
theorem Explains.recorded (h : Explains notes start used) (elem : ButtonEvt) :
    Explains (notes ++ [.recorded elem]) start used := by
  have hold {i : ℕ} {e : EventNode}
      (hi : (notes ++ [.recorded elem])[i]? = some (.invoked e)) :
      i < notes.length ∧ notes[i]? = some (.invoked e) := by
    rcases invoked_concat hi with hlt | ⟨_, hnote⟩
    · exact hlt
    · cases hnote
  constructor
  · intro i e hi
    rw [take_concat (le_of_lt (hold hi).1)]
    exact h.found i e (hold hi).2
  · exact fun i e hi => h.below i e (hold hi).2
  · exact fun i j e f hij hi hj => h.apart i j e f hij (hold hi).2 (hold hj).2

/-- An invocation with a run that starts after all that was used. -/
theorem Explains.invoked (h : Explains notes start used) {first : ℕ} (hused : used ≤ first)
    (hfound : ((actions notes).drop first).take e.buttons.length = e.buttons) :
    Explains (notes ++ [.invoked e]) (update start notes.length first)
      (first+e.buttons.length) := by
  have hearlier {i : ℕ} (hlt : i < notes.length) : update start notes.length first i = start i :=
    update_of_ne (ne_of_lt hlt) first start
  constructor
  · intro i f hi
    rcases invoked_concat hi with ⟨hlt, hold⟩ | ⟨rfl, hnote⟩
    · rw [take_concat (le_of_lt hlt), hearlier hlt]
      exact h.found i f hold
    · cases hnote
      rw [take_concat (le_refl _), take_length, update_self]
      exact hfound
  · intro i f hi
    rcases invoked_concat hi with ⟨hlt, hold⟩ | ⟨rfl, hnote⟩
    · have hbelow := h.below i f hold
      rw [hearlier hlt]
      omega
    · cases hnote
      rw [update_self]
  · intro i j f g hij hi hj
    rcases invoked_concat hi with ⟨hlt, hold⟩ | ⟨rfl, _⟩
    · rw [hearlier hlt]
      rcases invoked_concat hj with ⟨hltj, holdj⟩ | ⟨rfl, _⟩
      · rw [hearlier hltj]
        exact h.apart i j f g hij hold holdj
      · rw [update_self]
        exact le_trans (h.below i f hold) hused
    · have hbound := (List.getElem?_eq_some_iff.mp hj).1
      rw [length_append, length_singleton] at hbound
      omega

@[simp]
theorem actions_recorded (notes : List Note) (elem : ButtonEvt) :
    actions (notes ++ [.recorded elem]) = actions notes ++ [elem] := by
  simp [actions]

@[simp]
theorem actions_invoked (notes : List Note) (e : EventNode) :
    actions (notes ++ [.invoked e]) = actions notes := by
  simp [actions]

/-! ## The pool and the notes -/

/-- The actions in the pool. -/
def EventSrv.pooled (srv : EventSrv) : List ButtonEvt := srv.eventPool.take srv.eventPoolDepth

/-- The pool holds the last actions, and all invocations used earlier ones. -/
def Accounted (srv : EventSrv) : Prop :=
  srv.eventPoolDepth ≤ srv.eventPool.length ∧
    ∃ start front, actions srv.notes = front ++ srv.pooled ∧
      Explains srv.notes start front.length

/-- An event at the front of the pool is invoked and taken out of it. -/
theorem Accounted.consume (h : Accounted srv) (hfront : e.buttons <+: srv.pooled) :
    Accounted (eventPoolClean (srv.invoke e) (some e)) := by
  rcases h with ⟨hdepth, start, front, hactions, hexplains⟩
  rcases hfront with ⟨rest, hrest⟩
  have hmoved : ((srv.eventPool.drop e.buttonCount).take (srv.eventPoolDepth-e.buttonCount)).length
      = srv.eventPoolDepth-e.buttonCount := by
    rw [length_take_of_le]
    rw [length_drop]
    omega
  have hpooled : (eventPoolClean (srv.invoke e) (some e)).pooled = rest := by
    show (((srv.eventPool.drop e.buttonCount).take (srv.eventPoolDepth-e.buttonCount)) ++ _).take
      (srv.eventPoolDepth-e.buttonCount) = rest
    rw [take_left' hmoved, ← drop_take]
    rw [EventSrv.pooled] at hrest
    rw [← hrest, e.count_eq, drop_left]
  constructor
  · show srv.eventPoolDepth-e.buttonCount ≤
      ((srv.eventPool.drop e.buttonCount).take (srv.eventPoolDepth-e.buttonCount) ++ _).length
    rw [length_append, hmoved]
    exact Nat.le_add_right _ _
  · have hfound : ((actions srv.notes).drop front.length).take e.buttons.length = e.buttons := by
      rw [hactions, drop_left, ← hrest, take_left]
    have hinvoked := hexplains.invoked (le_refl _) hfound
    rw [← length_append] at hinvoked
    refine ⟨_, front ++ e.buttons, ?_, hinvoked⟩
    rw [hpooled, append_assoc, hrest, ← hactions]
    exact actions_invoked srv.notes e

/-- The pool is given up. -/
theorem Accounted.clean (h : Accounted srv) : Accounted (eventPoolClean srv none) := by
  rcases h with ⟨_, start, front, hactions, hexplains⟩
  refine ⟨Nat.zero_le _, start, actions srv.notes, ?_, hexplains.mono ?_⟩
  · exact (append_nil _).symm
  · rw [hactions, length_append]
    exact Nat.le_add_right _ _

/-- The new action is the last one of the pool. -/
theorem Accounted.add (h : Accounted srv) {r : EventSrv × Button}
    (hadd : eventPoolAdd srv b = some r) : Accounted r.1 := by
  rcases h with ⟨_, start, front, hactions, hexplains⟩
  rw [eventPoolAdd] at hadd
  by_cases hfull : srv.eventPoolDepth ≥ srv.eventPool.length
  · rw [if_pos hfull] at hadd
    cases hadd
  · rw [if_neg hfull] at hadd
    cases hadd
    have hlt : srv.eventPoolDepth < srv.eventPool.length := Nat.lt_of_not_le hfull
    constructor
    · rw [length_set]
      exact hlt
    · refine ⟨start, front, ?_, hexplains.recorded (poolElem b)⟩
      show actions (srv.notes ++ [.recorded (poolElem b)]) =
        front ++ (srv.eventPool.set srv.eventPoolDepth (poolElem b)).take (srv.eventPoolDepth+1)
      rw [actions_recorded, hactions, append_assoc, take_add_one,
        take_set_of_le (le_refl _), getElem?_set_self hlt]
      rfl

/-! ## The comparison -/

/-- The comparison is about the first entries. -/
theorem compareStrMem_eq_zero {p₁ p₂ : List ButtonEvt} (h : compareStrMem p₁ p₂ len = 0)
    : p₁.headD default = p₂.headD default := by
  rw [compareStrMem] at h
  generalize p₁.headD default = e₁ at h ⊢
  rcases e₁ with ⟨id₁, type₁, time₁⟩
  split_ifs at h <;> simp_all

/-- Every event that is no longer than these actions and starts with the first of them has its whole
pattern at their front. -/
def Agrees (nodes : List EventNode) (acts : List ButtonEvt) : Prop :=
  ∀ e ∈ nodes, e.buttons.length ≤ acts.length → e.buttons.head? = acts.head? → e.buttons <+: acts

instance (nodes : List EventNode) (acts : List ButtonEvt) : Decidable (Agrees nodes acts) :=
  inferInstanceAs (Decidable (∀ e ∈ _, _ → _ → _))

/-- A single action is the whole pattern of the events that start with it and are no longer. -/
theorem agrees_of_length_le_one (nodes : List EventNode) {acts : List ButtonEvt}
    (h : acts.length ≤ 1) : Agrees nodes acts := by
  intro e _ hle hhead
  have hpos := e.count_pos
  rw [e.count_eq] at hpos
  rcases List.length_eq_one_iff.mp (show e.buttons.length = 1 by omega) with ⟨first, hfirst⟩
  rcases List.length_eq_one_iff.mp (show acts.length = 1 by omega) with ⟨act, hact⟩
  rw [hfirst, hact] at hhead ⊢
  rw [Option.some.inj hhead]

/-- An event that passes the comparison is at the front of the pool. -/
theorem Agrees.front (h : Agrees srv.eventNodeHead srv.pooled) (hmem : e ∈ srv.eventNodeHead)
    (hcompare : compareStrMem e.buttons srv.eventPool len = 0)
    (hcount : e.buttonCount ≤ srv.eventPoolDepth)
    (hdepth : srv.eventPoolDepth ≤ srv.eventPool.length) : e.buttons <+: srv.pooled := by
  have hhead := compareStrMem_eq_zero hcompare
  have hpos := e.count_pos
  have heq := e.count_eq
  have hpooled : srv.pooled.length = srv.eventPoolDepth := length_take_of_le hdepth
  refine h e hmem (by omega) ?_
  have hpool : srv.pooled.head? = srv.eventPool.head? := by
    rw [EventSrv.pooled, head?_take, if_neg (by omega)]
  rw [hpool]
  cases hbuttons : e.buttons with
  | nil =>
    rw [hbuttons, length_nil] at heq
    omega
  | cons first rest =>
    cases hevent : srv.eventPool with
    | nil =>
      rw [hevent, length_nil] at hdepth
      omega
    | cons elem elems =>
      rw [hbuttons, hevent] at hhead
      exact congrArg some hhead

/-- An event of one entry that passes the comparison is that entry. -/
theorem eventFind_eq {elem : ButtonEvt} (hfind : eventFind nodes elem = some e)
    : e.buttons = [elem] := by
  have hhit := find?_some hfind
  rw [decide_eq_true_eq] at hhit
  have hone : e.buttons.length = 1 := e.count_eq.symm.trans hhit.1
  have hhead := compareStrMem_eq_zero hhit.2
  rcases List.length_eq_one_iff.mp hone with ⟨first, hfirst⟩
  rw [hfirst] at hhead ⊢
  exact congrArg (fun first => [first]) hhead.symm

/-- What is left in `e_sub` is an event that was a match. -/
theorem eventSub_some {hit : EventNode → Bool} {eventDepth : EventNode → ℕ} {depth : ℕ}
    (hsub : eventSub nodes hit eventDepth = some (e, depth)) :
    e ∈ nodes ∧ hit e = true ∧ depth = eventDepth e := by
  have hloop (rest : List EventNode) (hrest : rest ⊆ nodes) (eSub : Option (EventNode × ℕ))
      (hsofar : ∀ r ∈ eSub, r.1 ∈ nodes ∧ hit r.1 = true ∧ r.2 = eventDepth r.1) :
      ∀ r ∈ rest.foldl (fun eSub node =>
        if hit node then
          if node.buttonCount > 0 then some (node, eventDepth node) else eSub
        else eSub) eSub, r.1 ∈ nodes ∧ hit r.1 = true ∧ r.2 = eventDepth r.1 := by
    induction rest generalizing eSub with
    | nil => exact hsofar
    | cons node rest ih =>
      refine ih (subset_of_cons_subset hrest) _ fun r hr => ?_
      dsimp only at hr
      split_ifs at hr with hnode hpos
      · cases hr
        exact ⟨hrest mem_cons_self, hnode, rfl⟩
      · exact hsofar r hr
      · exact hsofar r hr
  exact hloop nodes (Subset.refl _) none (by simp) (e, depth) hsub

/-! ## The passes over the pool -/

/-- The entries of the pool that are events of their own are invoked one after the other. -/
theorem flushSingles_explains {elems : List ButtonEvt} {front : List ButtonEvt}
    (hactions : actions srv.notes = front ++ elems) (h : Explains srv.notes start front.length) :
    actions (flushSingles srv elems).notes = front ++ elems ∧
      ∃ start', Explains (flushSingles srv elems).notes start' (front ++ elems).length := by
  induction elems generalizing srv start front with
  | nil =>
    rw [append_nil]
    rw [append_nil] at hactions
    exact ⟨hactions, start, h⟩
  | cons elem elems ih =>
    rw [append_cons] at hactions ⊢
    rw [flushSingles]
    cases hfind : eventFind srv.eventNodeHead elem with
    | none =>
      refine ih hactions (h.mono ?_)
      rw [length_append]
      exact Nat.le_add_right _ _
    | some e =>
      have hpattern := eventFind_eq hfind
      have hfound : ((actions srv.notes).drop front.length).take e.buttons.length = e.buttons := by
        rw [hactions, append_assoc, drop_left, hpattern]
        rfl
      have hinvoked := h.invoked (le_refl _) hfound
      rw [hpattern, ← length_append] at hinvoked
      exact ih ((actions_invoked srv.notes e).trans hactions) hinvoked

/-- The pool is given up: as one event, or entry by entry. -/
theorem Accounted.reset (h : Accounted srv) (hagrees : Agrees srv.eventNodeHead srv.pooled) :
    Accounted (eventPoolReset srv) := by
  rw [eventPoolReset]
  cases hsub : resetSub srv with
  | none =>
    rcases h with ⟨_, start, front, hactions, hexplains⟩
    rcases flushSingles_explains hactions hexplains with ⟨hflushed, start', hexplains'⟩
    refine ⟨Nat.zero_le _, start', _, (append_nil _).symm, ?_⟩
    rw [← hflushed] at hexplains'
    exact hexplains'
  | some r =>
    rcases eventSub_some hsub with ⟨hmem, hhit, hwhole⟩
    rw [decide_eq_true_eq] at hhit
    dsimp only
    rw [if_pos hwhole]
    exact (h.consume (hagrees.front hmem hhit.2 (le_of_eq hhit.1) h.1)).clean

/-- The event that `event_manage` selects is as long as the pool, or one entry shorter, and passed
the comparison. -/
theorem managePick_some (hpick : managePick srv = some e) :
    e ∈ srv.eventNodeHead ∧ e.buttonCount ≤ srv.eventPoolDepth ∧
      srv.eventPoolDepth ≤ e.buttonCount+1 ∧
      ∃ len, compareStrMem e.buttons srv.eventPool len = 0 := by
  revert hpick
  fun_cases managePick srv with
  | case1 f hsub =>
    rintro ⟨⟩
    rcases eventSub_some hsub with ⟨hmem, hhit, hwhole⟩
    rw [decide_eq_true_eq] at hhit
    exact ⟨hmem, by omega, by omega, _, hhit.2⟩
  | case2 => exact nofun
  | case3 => exact nofun
  | case4 _ hzero =>
    intro hpick
    have hhit := find?_some hpick
    rw [decide_eq_true_eq] at hhit
    exact ⟨mem_of_find?_eq_some hpick, by omega, by omega, _, hhit.2⟩

/-- After a new action at most one event is invoked. -/
theorem Accounted.manage (h : Accounted srv) (hagrees : Agrees srv.eventNodeHead srv.pooled) :
    Accounted (eventManage srv) := by
  rw [eventManage]
  cases hpick : managePick srv with
  | none => exact h
  | some e =>
    rcases managePick_some hpick with ⟨hmem, hcount, -, len, hcompare⟩
    exact h.consume (hagrees.front hmem hcompare hcount h.1)

/-- At most one action is left in the pool when an event was invoked. -/
theorem Agrees.manage (h : Agrees srv.eventNodeHead srv.pooled) :
    Agrees (eventManage srv).eventNodeHead (eventManage srv).pooled := by
  rw [eventManage]
  cases hpick : managePick srv with
  | none => exact h
  | some e =>
    rcases managePick_some hpick with ⟨-, -, hleft, -⟩
    have hdepth : srv.eventPoolDepth-e.buttonCount ≤ 1 := by omega
    exact agrees_of_length_le_one _ ((length_take_le ..).trans hdepth)

/-- Giving the pool up leaves it as it is, with no entry. -/
theorem eventPoolReset_pool (srv : EventSrv) :
    (eventPoolReset srv).eventPool = srv.eventPool ∧ (eventPoolReset srv).eventPoolDepth = 0 := by
  have hflush (elems : List ButtonEvt) (srv : EventSrv) :
      (flushSingles srv elems).eventPool = srv.eventPool := by
    induction elems generalizing srv with
    | nil => rfl
    | cons elem elems ih =>
      rw [flushSingles]
      split
      · exact ih _
      · exact ih srv
  rw [eventPoolReset]
  cases hsub : resetSub srv with
  | none => exact ⟨hflush _ srv, rfl⟩
  | some r =>
    have hcount := (eventSub_some hsub).2.1
    simp only [decide_eq_true_eq] at hcount
    dsimp only
    split_ifs
    · simp [eventPoolClean, EventSrv.invoke, hcount.1]
    · exact ⟨rfl, rfl⟩

/-- No action is left in a pool that was given up. -/
theorem pooled_eventPoolReset (srv : EventSrv) : (eventPoolReset srv).pooled = [] := by
  rw [EventSrv.pooled, (eventPoolReset_pool srv).2, take_zero]

/-- An action is put behind the entries of a pool that has room. -/
theorem pooled_eventPoolAdd (srv : EventSrv) (b : Button) (r : EventSrv × Button) :
    ((eventPoolAdd srv b).getD r).1.pooled =
      if srv.eventPoolDepth < srv.eventPool.length then srv.pooled ++ [poolElem b]
      else r.1.pooled := by
  rw [eventPoolAdd]
  split_ifs with hfull hroom hroom
  · omega
  · rfl
  · simp [EventSrv.pooled, take_add_one, take_set_of_le, hroom]
  · omega

/-! ## Runs -/

/-- An active button makes the service give up the pool: the last action is too old, or the
pool is full. -/
def EventSrv.Flushes (srv : EventSrv) (b : Button) : Prop :=
  ¬(srv.happenedMs = 0 ∨ b.happenedMs-srv.happenedMs < maxEventTmout) ∨
    srv.eventPoolDepth ≥ srv.eventPool.length

instance (srv : EventSrv) (b : Button) : Decidable (srv.Flushes b) :=
  inferInstanceAs (Decidable (_ ∨ _))

/-- When an action is put behind those in the pool, every registered event that is no longer than
them and starts with the first one has its whole pattern at their front. -/
def StepAgrees (srv : EventSrv) : Step → Prop
  | .active b => ¬srv.Flushes b → Agrees srv.eventNodeHead (srv.pooled ++ [poolElem b])
  | .timeout _ => True

instance (srv : EventSrv) (s : Step) : Decidable (StepAgrees srv s) :=
  match s with
  | .active _ => inferInstanceAs (Decidable (_ → Agrees _ _))
  | .timeout _ => inferInstanceAs (Decidable True)

/-- The invariant: all invocations are accounted for, and the pool agrees with the events. -/
structure Sound (srv : EventSrv) : Prop where
  /-- Every invocation has its run of actions. -/
  accounted : Accounted srv
  /-- The actions in the pool agree with the events. -/
  agrees : Agrees srv.eventNodeHead srv.pooled

/-- A pool that was given up agrees with all events. -/
theorem Sound.reset (h : Sound srv) : Sound (eventPoolReset srv) where
  accounted := h.accounted.reset h.agrees
  agrees := agrees_of_length_le_one _ (by rw [pooled_eventPoolReset]; exact Nat.zero_le 1)

/-- The action is recorded, unless the pool was full. -/
theorem Sound.record (h : Sound srv) (hagrees : StepAgrees srv (.active b)) :
    Sound (recordActive srv b).1 := by
  have hstamped : Sound { srv with happenedMs := b.happenedMs } := ⟨h.accounted, h.agrees⟩
  have hreset := hstamped.reset
  rw [recordActive]
  by_cases hrecent : srv.happenedMs = 0 ∨ b.happenedMs-srv.happenedMs < maxEventTmout
  · rw [if_pos hrecent]
    by_cases hfull : srv.eventPoolDepth ≥ srv.eventPool.length
    · rw [eventPoolAdd, if_pos hfull]
      exact hreset
    · have hadd : eventPoolAdd { srv with happenedMs := b.happenedMs } b = some _ := if_neg hfull
      refine ⟨?_, ?_⟩
      · rw [hadd]
        exact hstamped.accounted.add hadd
      · rw [pooled_eventPoolAdd, if_pos (Nat.lt_of_not_le hfull), hadd]
        exact hagrees (not_or.mpr ⟨not_not.mpr hrecent, hfull⟩)
  · rw [if_neg hrecent]
    refine ⟨?_, agrees_of_length_le_one _ ?_⟩
    · cases hadd : eventPoolAdd (eventPoolReset { srv with happenedMs := b.happenedMs }) b with
      | some r => exact hreset.accounted.add hadd
      | none => exact hreset.accounted
    · rw [pooled_eventPoolAdd, pooled_eventPoolReset]
      split_ifs
      · exact le_refl 1
      · exact Nat.zero_le 1

/-- One step of the service. -/
theorem step_sound {srv' : EventSrv} {s : Step} (hagrees : StepAgrees srv s) (h : Sound srv)
    (hstep : step srv s = some srv') : Sound srv' := by
  cases s with
  | active b =>
    cases hstep
    have hrecorded := h.record hagrees
    have hmanaged : Sound (eventManage (recordActive srv b).1) :=
      ⟨hrecorded.accounted.manage hrecorded.agrees, hrecorded.agrees.manage⟩
    rw [activeHdl, settleHappened]
    split_ifs
    · exact ⟨hmanaged.accounted, hmanaged.agrees⟩
    · exact hmanaged
  | timeout now =>
    cases hstep
    rw [poolTimeout]
    split_ifs
    · exact h.reset
    · exact h

/-- Registration records and invokes nothing. -/
theorem registered_sound (buttons : List Button) (added : List AddEvent) :
    Sound (ButtonSrv.registered buttons added).events := by
  have hidle : (ButtonSrv.registered buttons added).events.eventPoolDepth = 0 ∧
      (ButtonSrv.registered buttons added).events.notes = [] := by
    refine foldlRecOn (motive := fun srv : ButtonSrv =>
      srv.events.eventPoolDepth = 0 ∧ srv.events.notes = []) added _ ⟨rfl, rfl⟩
      fun srv hsrv call _ => ?_
    rw [buttonAddEvent]
    split_ifs
    all_goals exact hsrv
  have hempty : (ButtonSrv.registered buttons added).events.pooled = [] := by
    rw [EventSrv.pooled, hidle.1, take_zero]
  refine ⟨⟨hidle.1 ▸ Nat.zero_le _, fun _ => 0, [], ?_, ?_⟩, agrees_of_length_le_one _ ?_⟩
  · rw [hempty, hidle.2]
    rfl
  · rw [hidle.2]
    exact explains_nil
  · rw [hempty]
    exact Nat.zero_le 1

/-- If recorded actions that start like a registered event always go on like it, every event fires
on its own pattern only. -/
theorem events_fire_on_pattern {buttons : List Button} {added : List AddEvent}
    {steps : List Step} {srv : EventSrv}
    (hagrees : Along step StepAgrees (ButtonSrv.registered buttons added).events steps)
    (hrun : run step (ButtonSrv.registered buttons added).events steps = some srv)
    (e : EventNode) : FiresOnPattern srv.notes e := by
  have hsound := run_keeps (fun _ _ _ hok h hstep => step_sound hok h hstep) hagrees
    (registered_sound buttons added) hrun
  rcases hsound.accounted with ⟨_, start, front, _, hexplains⟩
  exact hexplains.firesOnPattern e

/-- A button that reports an action. -/
def sampleActive (id : ℤ) (type : PressType) (time : ℤ) : Step :=
  .active { buttonNew id .gpio with active := true, pressType := type, happenedMs := time }

/-- A double press of the first button, and a press of the second. -/
def sampleAdded : List AddEvent :=
  [⟨7, [⟨1, .double, 0⟩], 100, 0⟩, ⟨8, [⟨2, .down, 0⟩], 100, 0⟩]

/-- The first button is pressed twice, and later the second one. -/
def sampleSteps : List Step :=
  [sampleActive 1 .down 1000, sampleActive 1 .up 1100, sampleActive 1 .down 1200,
    .timeout 1250, sampleActive 1 .up 1300, sampleActive 2 .down 5000]

/-- The event of the double press. -/
def sampleDouble : EventNode := AddEvent.node ⟨7, [⟨1, .double, 0⟩], 100, 0⟩ (by decide)

theorem events_fire_on_pattern_sample :
    ∃ srv, run step (ButtonSrv.registered [buttonNew 1 .gpio, buttonNew 2 .gpio] sampleAdded).events
        sampleSteps = some srv ∧
      srv.notes[4]? = some (.invoked sampleDouble) ∧ FiresOnPattern srv.notes sampleDouble :=
  exists_some_and (by decide +kernel) fun _ hsrv _ =>
    events_fire_on_pattern (by decide +kernel) hsrv sampleDouble

/-- A press of the first button and then of the second. -/
def chordCall : AddEvent := ⟨7, [⟨1, .down, 0⟩, ⟨2, .down, 0⟩], 100, 0⟩

/-- The event of that chord. -/
def chord : EventNode := chordCall.node (by decide)

/-- The first button is pressed twice, the second one never, and the chord is reported. -/
theorem events_fire_on_other_pattern :
    ∃ srv, run step
        (ButtonSrv.registered [buttonNew 1 .gpio, buttonNew 2 .gpio] [chordCall]).events
        [sampleActive 1 .down 1000, sampleActive 1 .down 1300] = some srv ∧
      ¬FiresOnPattern srv.notes chord := by
  obtain ⟨srv, hsrv, hnotes⟩ : ∃ srv, run step
      (ButtonSrv.registered [buttonNew 1 .gpio, buttonNew 2 .gpio] [chordCall]).events
      [sampleActive 1 .down 1000, sampleActive 1 .down 1300] = some srv ∧
      srv.notes = [.recorded ⟨1, .down, 0⟩, .recorded ⟨1, .down, 0⟩, .invoked chord] := by
    decide +kernel
  refine ⟨srv, hsrv, ?_⟩
  rw [hnotes]
  rintro ⟨start, hfound, _⟩
  have hrun := hfound 2 rfl
  have hmem : (⟨2, .down, 0⟩ : ButtonEvt) ∈ chord.buttons := by decide
  rw [← hrun] at hmem
  have hrecorded := mem_of_mem_drop (mem_of_mem_take hmem)
  revert hrecorded
  decide

/-! ## Duplicate events -/

/-- What `event_param_check` takes for a duplicate: an event with as many entries as the call
has before they are expanded, and the same first one. -/
def EventNode.Clashes (e : EventNode) (buttons : List ButtonEvt) : Prop :=
  e.buttons.length = buttons.length ∧ e.buttons.headD default = buttons.headD default
deriving Decidable

/-- A known pattern is refused exactly if it clashes. -/
theorem eventParamCheck_iff {srv : ButtonSrv} {buttons : List ButtonEvt}
    (hknown : ∀ button ∈ buttons, (buttonFind srv.buttonHead button.buttonId).isSome) :
    eventParamCheck srv buttons = false ↔ ∃ e ∈ srv.events.eventNodeHead, e.Clashes buttons := by
  have hcompare (e : EventNode) : compareStrMem e.buttons buttons buttons.length = 0 ↔
      e.buttons.headD default = buttons.headD default :=
    ⟨compareStrMem_eq_zero, fun h => by simp only [compareStrMem, h]; simp⟩
  rw [eventParamCheck, List.all_eq_true.mpr hknown]
  simp [hcompare, EventNode.count_eq, EventNode.Clashes, eq_comm (a := buttons.length)]

/-- An entry that `event_copy` leaves as it is. -/
def ButtonEvt.Plain (button : ButtonEvt) : Prop := expand button = [button]
deriving Decidable

/-- What `event_copy` writes is not expanded again. -/
theorem eventCopy_plain {buttons : List ButtonEvt} {entry : ButtonEvt}
    (h : entry ∈ eventCopy buttons) : entry.Plain := by
  rcases List.mem_flatMap.mp h with ⟨button, -, hentry⟩
  rw [expand] at hentry
  cases hpresses : button.pressType.presses with
  | some count =>
    rw [hpresses] at hentry
    rcases List.mem_flatten.mp hentry with ⟨press, hpress, hmem⟩
    rw [eq_of_mem_replicate hpress] at hmem
    rcases List.mem_pair.mp hmem with rfl | rfl
    · rfl
    · rfl
  | none =>
    rw [hpresses] at hentry
    obtain rfl := List.mem_singleton.mp hentry
    by_cases hlong : button.pressType = .longDown
    · simp [ButtonEvt.Plain, expand, hlong, PressType.presses]
    · simp [ButtonEvt.Plain, expand, hpresses, hlong]

/-- The entries of registered events are expanded. -/
theorem registered_plain (buttons : List Button) (added : List AddEvent) :
    ∀ e ∈ (ButtonSrv.registered buttons added).events.eventNodeHead, ∀ entry ∈ e.buttons,
      entry.Plain := by
  refine foldlRecOn (motive := fun srv : ButtonSrv => ∀ e ∈ srv.events.eventNodeHead,
    ∀ entry ∈ e.buttons, entry.Plain) added _ (fun _ he => (nomatch he)) fun srv hsrv call _ => ?_
  rw [buttonAddEvent]
  split_ifs
  case pos =>
    intro e he
    rcases List.mem_append.mp he with hold | hnew
    · exact hsrv e hold
    · rw [List.mem_singleton.mp hnew]
      exact fun entry => eventCopy_plain
  all_goals exact hsrv

/-- What `event_copy` writes for a button that is not pressed several times. -/
def ButtonEvt.single (button : ButtonEvt) : ButtonEvt :=
  if button.pressType = .longDown then button else { button with pressTime := 0 }

/-- Without double and triple presses a pattern keeps its length. -/
theorem eventCopy_of_single {buttons : List ButtonEvt}
    (h : ∀ button ∈ buttons, button.pressType.presses = none) :
    eventCopy buttons = buttons.map ButtonEvt.single := by
  induction buttons with
  | nil => rfl
  | cons button rest ih =>
    rw [eventCopy] at ih ⊢
    rw [flatMap_cons, ih fun b hb => h b (mem_cons_of_mem button hb), expand,
      h button mem_cons_self]
    rfl

/-- A pattern without double and triple presses is registered if an event with its first entry goes
on like it. -/
theorem EventNode.eq_eventCopy_iff {e : EventNode} {buttons : List ButtonEvt}
    (hfirst : (buttons.headD default).Plain)
    (hsingle : ∀ button ∈ buttons, button.pressType.presses = none) :
    e.buttons = eventCopy buttons ↔
      e.Clashes buttons ∧ e.buttons.tail = buttons.tail.map ButtonEvt.single := by
  have hcount : 0 < e.buttons.length := e.count_eq ▸ e.count_pos
  rw [eventCopy_of_single hsingle, EventNode.Clashes]
  generalize e.buttons = entries at hcount
  cases buttons with
  | nil => exact iff_of_false (ne_nil_of_length_pos hcount) fun h => hcount.ne' h.1.1
  | cons button rest =>
    obtain ⟨entry, more, rfl⟩ := exists_cons_of_length_pos hcount
    have hbutton : button.single = button := by
      have hexpand : expand button = [button] := hfirst
      rw [expand, hsingle button mem_cons_self] at hexpand
      exact List.singleton_inj.mp hexpand
    rw [map_cons, hbutton, cons.injEq]
    constructor
    · rintro ⟨rfl, rfl⟩
      exact ⟨⟨by rw [length_cons, length_map, length_cons], rfl⟩, rfl⟩
    · rintro ⟨⟨-, hentry⟩, hmore⟩
      exact ⟨hentry, hmore⟩

/-- The calls and the registered patterns for which the events that clash tell the duplicates. -/
structure TellsDuplicates (nodes : List EventNode) (buttons : List ButtonEvt) : Prop where
  /-- If the first entry is expanded, or loses a press time, the pattern is not registered. -/
  first : ¬(buttons.headD default).Plain → ∀ e ∈ nodes, e.buttons ≠ eventCopy buttons
  /-- If no entry is a double or triple press: among the events with as many entries and the same
  first one, if there are any, one goes on like the call. -/
  single : (buttons.headD default).Plain →
    (∀ button ∈ buttons, button.pressType.presses = none) → (∃ e ∈ nodes, e.Clashes buttons) →
    ∃ e ∈ nodes, e.Clashes buttons ∧ e.buttons.tail = buttons.tail.map ButtonEvt.single
  /-- If a later entry is one: the pattern, which is longer than the call, is registered together
  with such an event or not at all. -/
  multiple : (buttons.headD default).Plain →
    ¬(∀ button ∈ buttons, button.pressType.presses = none) →
    ((∃ e ∈ nodes, e.Clashes buttons) ↔ ∃ e ∈ nodes, e.buttons = eventCopy buttons)

/-- A call with known buttons, a callback and an unused id fails for duplicates only, and for all of
them, exactly if clashes tell the duplicates. -/
theorem buttonAddEvent_duplicates {srv : ButtonSrv} {call : AddEvent} (hne : call.buttons ≠ [])
    (hcount : call.buttons.length < 4) (hcb : call.evtCb ≠ 0)
    (hid : ∀ e ∈ srv.events.eventNodeHead, e.eventId ≠ call.evtId)
    (hknown : ∀ button ∈ call.buttons, (buttonFind srv.buttonHead button.buttonId).isSome)
    (hplain : ∀ e ∈ srv.events.eventNodeHead, ∀ entry ∈ e.buttons, entry.Plain) :
    ((buttonAddEvent srv call).2 ≠ 0 ↔
        ∃ e ∈ srv.events.eventNodeHead, e.buttons = eventCopy call.buttons) ↔
      TellsDuplicates srv.events.eventNodeHead call.buttons := by
  have hfails : (buttonAddEvent srv call).2 ≠ 0 ↔ eventParamCheck srv call.buttons = false := by
    rw [buttonAddEvent, dif_pos ⟨hne, hcb, hcount⟩, if_pos (by simpa [eventCheck] using hid)]
    cases eventParamCheck srv call.buttons <;> simp
  have hfirst : (∃ e ∈ srv.events.eventNodeHead, e.Clashes call.buttons) →
      (call.buttons.headD default).Plain := by
    rintro ⟨e, he, -, hsame⟩
    rw [← hsame]
    cases hbuttons : e.buttons with
    | nil => exact absurd (e.count_eq.trans (by rw [hbuttons]; rfl)) e.count_pos.ne'
    | cons first rest => exact hplain e he first (hbuttons ▸ mem_cons_self)
  rw [hfails, eventParamCheck_iff hknown]
  constructor
  · intro h
    refine ⟨fun hnot e he heq => hnot (hfirst (h.mpr ⟨e, he, heq⟩)), ?_, fun _ _ => h⟩
    intro hp hsingle hclash
    obtain ⟨e, he, heq⟩ := h.mp hclash
    exact ⟨e, he, (e.eq_eventCopy_iff hp hsingle).mp heq⟩
  · intro h
    by_cases hp : (call.buttons.headD default).Plain
    · by_cases hsingle : ∀ button ∈ call.buttons, button.pressType.presses = none
      · constructor
        · intro hclash
          obtain ⟨e, he, hsame⟩ := h.single hp hsingle hclash
          exact ⟨e, he, (e.eq_eventCopy_iff hp hsingle).mpr hsame⟩
        · rintro ⟨e, he, heq⟩
          exact ⟨e, he, ((e.eq_eventCopy_iff hp hsingle).mp heq).1⟩
      · exact h.multiple hp hsingle
    · exact iff_of_false (fun hclash => hp (hfirst hclash)) fun ⟨e, he, heq⟩ => h.first hp e he heq

/-- The service with a chord of the first two of three buttons. -/
def chordSrv : ButtonSrv :=
  .registered [buttonNew 1 .gpio, buttonNew 2 .gpio, buttonNew 3 .gpio] [chordCall]

/-- The chord is refused, whatever press time the call gives for its second button. -/
theorem buttonAddEvent_duplicates_chord :
    (buttonAddEvent chordSrv ⟨8, [⟨1, .down, 0⟩, ⟨2, .down, 5⟩], 100, 0⟩).2 ≠ 0 ↔
      ∃ e ∈ chordSrv.events.eventNodeHead, e.buttons = eventCopy [⟨1, .down, 0⟩, ⟨2, .down, 5⟩] :=
  (buttonAddEvent_duplicates (by decide) (by decide) (by decide) (by decide) (by decide)
    (registered_plain _ _)).mpr ⟨by decide, by decide, by decide⟩

/-- A chord with the third button is refused, and a second double press is not. -/
theorem buttonAddEvent_refuses_other :
    ((buttonAddEvent chordSrv ⟨8, [⟨1, .down, 0⟩, ⟨3, .down, 0⟩], 100, 0⟩).2 ≠ 0 ∧
      ¬∃ e ∈ chordSrv.events.eventNodeHead, e.buttons = [⟨1, .down, 0⟩, ⟨3, .down, 0⟩]) ∧
    (buttonAddEvent (.registered [buttonNew 1 .gpio] [⟨7, [⟨1, .double, 0⟩], 100, 0⟩])
      ⟨8, [⟨1, .double, 0⟩], 100, 0⟩).2 = 0 := by decide

/-! ## Dropped actions -/

/-- The action of an active button is the last entry of the pool that `event_manage` looks at,
behind the old ones or alone. -/
def EventSrv.Appends (srv : EventSrv) (b : Button) : Prop :=
  (recordActive srv b).1.pooled = srv.pooled ++ [poolElem b] ∨
    (recordActive srv b).1.pooled = [poolElem b]

/-- The action is appended exactly if there is a pool, and the pool is not full unless it is
given up for its age. -/
theorem appends_iff (srv : EventSrv) (b : Button) :
    srv.Appends b ↔ srv.eventPool ≠ [] ∧
      (srv.happenedMs = 0 ∨ b.happenedMs-srv.happenedMs < maxEventTmout →
        srv.eventPoolDepth < srv.eventPool.length) := by
  have hreset := eventPoolReset_pool { srv with happenedMs := b.happenedMs }
  have hempty : (eventPoolReset { srv with happenedMs := b.happenedMs }).pooled = [] := by
    rw [EventSrv.pooled, hreset.2, take_zero]
  have hstamped : EventSrv.pooled { srv with happenedMs := b.happenedMs } = srv.pooled := rfl
  rw [EventSrv.Appends, recordActive]
  by_cases hrecent : srv.happenedMs = 0 ∨ b.happenedMs-srv.happenedMs < maxEventTmout
  · simp only [if_pos hrecent, pooled_eventPoolAdd, hstamped, hempty]
    by_cases hroom : srv.eventPoolDepth < srv.eventPool.length
    · simp [hroom, ne_nil_of_length_pos (Nat.zero_lt_of_lt hroom)]
    · simp [hroom, hrecent]
  · simp only [if_neg hrecent, pooled_eventPoolAdd, hreset, hempty]
    by_cases hpool : srv.eventPool = []
    · simp [hpool]
    · simp [hpool, hrecent]

/-- After a long hold of the button the pool begins with its release, and the fourth action
fills it; the next release is dropped. -/
theorem release_dropped :
    ∃ srv, run step
        (ButtonSrv.registered [buttonNew 1 .gpio] [⟨7, [⟨1, .double, 0⟩], 100, 0⟩]).events
        [sampleActive 1 .down 1000, .timeout 1600, sampleActive 1 .up 1700,
          sampleActive 1 .down 1900, sampleActive 1 .up 2100, sampleActive 1 .down 2300] =
        some srv ∧
      ¬srv.Appends
        { buttonNew 1 .gpio with active := true, pressType := .up, happenedMs := 2500 } := by
  refine ⟨_, rfl, ?_⟩
  rw [EventSrv.Appends]
  decide +kernel

end PineVoice.Buttons
