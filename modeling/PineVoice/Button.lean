import Mathlib.Data.Int.Notation
import PineVoice.Transition

/-!
# The buttons and their events

Every button has a debouncer, which a timer runs. Its reports are recorded in a pool, in which the
patterns of the registered events are looked for after each record and when the pool is given up.
Interrupt lines, the timer's restarts and the locks are left out; the timer may expire at any time
and read any level.
-/

namespace PineVoice.Buttons

open Transition List

/-- `MIN_ST_TMOUT`. -/
def minStTmout : ℤ := 90

/-- `MAX_EVENT_TMOUT`. -/
def maxEventTmout : ℤ := 500

/-- `EINVAL`. -/
def einval : ℤ := 22

/-- `button_press_type_t`, with the `-1` of a button that reports nothing. -/
inductive PressType where
  | unset
  | down
  | up
  | longDown
  | double
  | triple
deriving DecidableEq

/-- The presses that a press type stands for: `press_type - 1` for a double and a triple. -/
def PressType.presses : PressType → Option ℕ
  | .double => some 2
  | .triple => some 3
  | _ => none

/-- `button_evt_t`, which is also `event_pool_elem_t`. -/
structure ButtonEvt where
  /-- `button_id`. -/
  buttonId : ℤ
  /-- `press_type`. -/
  pressType : PressType
  /-- `press_time`. -/
  pressTime : ℤ
deriving DecidableEq

/-- Memory that was cleared. -/
instance : Inhabited ButtonEvt := ⟨⟨0, .down, 0⟩⟩

/-! ## The debouncer -/

/-- `button_state`. -/
inductive ButtonState where
  | none
  | start
  | cnt
  | high
  | ended
deriving DecidableEq

/-- The `ops` of a button. -/
inductive ButtonOps where
  | gpio
  | adc
deriving DecidableEq

/-- `button_t`. -/
structure Button where
  /-- `button_id`. -/
  buttonId : ℤ
  /-- `ops`. -/
  ops : ButtonOps
  /-- `state`. -/
  state : ButtonState
  /-- `active`. -/
  active : Bool
  /-- `irq_flag`. -/
  irqFlag : Bool
  /-- `is_pressed`. -/
  isPressed : Bool
  /-- `press_time`, of `press_time_cnt` entries. -/
  pressTime : List ℤ
  /-- `press_time_subscript`. -/
  pressTimeSubscript : ℕ
  /-- `press_type`. -/
  pressType : PressType
  /-- The types whose bit is set in `event_flag`. -/
  eventFlag : List PressType
  /-- `happened_ms`. -/
  happenedMs : ℤ
  /-- `st_ms`. -/
  stMs : ℤ
deriving DecidableEq

/-- `button_new`. -/
def buttonNew (id : ℤ) (ops : ButtonOps) : Button :=
  ⟨id, ops, .none, false, false, false, [], 0, .unset, [], 0, 0⟩

/-- `irq_enable`: an ADC button waits for a press again. -/
def irqEnable (b : Button) : Button :=
  match b.ops with
  | .gpio => b
  | .adc => { b with stMs := 0 }

/-- `button_irq`. -/
def buttonIrq (now : ℤ) (b : Button) : Button := { b with irqFlag := true, stMs := now }

/-- `reset`. -/
def reset (b : Button) : Button :=
  { b with state := .none, active := false, pressTimeSubscript := 0 }

/-- `none_hdl`. -/
def noneHdl (b : Button) : Button :=
  if b.isPressed then { b with state := .start } else irqEnable b

/-- `start_hdl`. -/
def startHdl (now : ℤ) (b : Button) : Button :=
  if b.isPressed then
    if now-b.stMs ≥ minStTmout then { b with state := .cnt } else b
  else irqEnable (reset b)

/-- `cnt_hdl`. -/
def cntHdl (now : ℤ) (b : Button) : Button :=
  if b.isPressed ∧ b.pressTime ≠ [] then
    if now-b.stMs ≥ b.pressTime.getD b.pressTimeSubscript 0 then
      { b with
        active := true
        pressType := .longDown
        pressTimeSubscript := b.pressTimeSubscript+1
        state := if b.pressTimeSubscript+1 ≥ b.pressTime.length then .high else b.state }
    else b
  else { b with state := .high, active := true, pressType := .down }

/-- `high_hdl`. -/
def highHdl (b : Button) : Button :=
  if b.isPressed then b
  else
    { b with
      state := .ended
      active := true
      pressType := if b.pressType = .longDown then .unset else .up }

/-- The `switch` of `_button_hdl`. -/
def stateHdl (now : ℤ) (b : Button) : Button :=
  match b.state with
  | .none => noneHdl b
  | .start => startHdl now b
  | .cnt => cntHdl now b
  | .high => highHdl b
  | .ended => irqEnable (reset b)

/-- `_button_hdl` after the `switch`: what no event asks for is not reported. -/
def filterHdl (now : ℤ) (b : Button) : Button :=
  if b.active then
    if b.pressType ∈ b.eventFlag then { b with happenedMs := now } else { b with active := false }
  else b

/-- `_button_hdl`. -/
def buttonHdl (level : Bool) (now : ℤ) (b : Button) : Button :=
  filterHdl now (stateHdl now { b with isPressed := level })

/-! ## The pool -/

/-- `event_node_t`. -/
structure EventNode where
  /-- `event_id`. -/
  eventId : ℤ
  /-- `buttons`. -/
  buttons : List ButtonEvt
  /-- `button_count`. -/
  buttonCount : ℕ
  /-- `evt_cb`, a function pointer. -/
  evtCb : ℕ
  /-- `priv`. -/
  priv : ℕ
  /-- The array has `button_count` entries. -/
  count_eq : buttonCount = buttons.length
  /-- There is at least one. -/
  count_pos : 0 < buttonCount
deriving DecidableEq

/-- What is seen of the service: an action is recorded, the callback of an event invoked. -/
inductive Note where
  | recorded (elem : ButtonEvt)
  | invoked (e : EventNode)
deriving DecidableEq

/-- The part of `g_button_srv` that is about events. -/
structure EventSrv where
  /-- `event_node_head`. -/
  eventNodeHead : List EventNode
  /-- `event_pool`, of `event_pool_size` entries. -/
  eventPool : List ButtonEvt
  /-- `event_pool_depth`. -/
  eventPoolDepth : ℕ
  /-- `happened_ms`. -/
  happenedMs : ℤ
  /-- What was seen so far. -/
  notes : List Note
deriving DecidableEq

/-- The entry that `event_pool_add` writes for a button. -/
def poolElem (b : Button) : ButtonEvt where
  buttonId := b.buttonId
  pressType := b.pressType
  pressTime :=
    if b.pressTimeSubscript = 0 then 0 else b.pressTime.getD (b.pressTimeSubscript-1) 0

/-- `event_pool_add`: `none` if it returns `-1`. -/
def eventPoolAdd (srv : EventSrv) (b : Button) : Option (EventSrv × Button) :=
  if srv.eventPoolDepth ≥ srv.eventPool.length then none
  else
    some
      ({ srv with
          eventPool := srv.eventPool.set srv.eventPoolDepth (poolElem b)
          eventPoolDepth := srv.eventPoolDepth+1
          notes := srv.notes ++ [.recorded (poolElem b)] },
        { b with active := false })

/-- `compare_str_mem`: the entries that the pointers point to. The length is not used. -/
def compareStrMem (p₁ p₂ : List ButtonEvt) (_len : ℕ) : ℕ :=
  let e₁ := p₁.headD default
  let e₂ := p₂.headD default
  (if e₁.buttonId ≠ e₂.buttonId then 1 else 0)+(if e₁.pressType ≠ e₂.pressType then 1 else 0)+
    (if e₁.pressTime ≠ e₂.pressTime then 1 else 0)

/-- `event_find`. -/
def eventFind (nodes : List EventNode) (elem : ButtonEvt) : Option EventNode :=
  nodes.find? fun node => node.buttonCount = 1 ∧ compareStrMem [elem] node.buttons 1 = 0

/-- `evt_cb(event_id, priv)`. -/
def EventSrv.invoke (srv : EventSrv) (e : EventNode) : EventSrv :=
  { srv with notes := srv.notes ++ [.invoked e] }

/-- `event_pool_clean`. -/
def eventPoolClean (srv : EventSrv) : Option EventNode → EventSrv
  | none => { srv with eventPoolDepth := 0 }
  | some e =>
    let depth := srv.eventPoolDepth-e.buttonCount
    { srv with
      eventPoolDepth := depth
      eventPool := (srv.eventPool.drop e.buttonCount).take depth ++ srv.eventPool.drop depth }

/-- The loop that leaves its last match in `e_sub`, with the `event_depth` written there: `cnt`
stays zero. -/
def eventSub (nodes : List EventNode) (hit : EventNode → Bool) (eventDepth : EventNode → ℕ) :
    Option (EventNode × ℕ) :=
  nodes.foldl (fun eSub node =>
    if hit node then
      if node.buttonCount > 0 then some (node, eventDepth node) else eSub
    else eSub) none

/-- The `e_sub` of `event_pool_reset`. -/
def resetSub (srv : EventSrv) : Option (EventNode × ℕ) :=
  eventSub srv.eventNodeHead
    (fun node => node.buttonCount = srv.eventPoolDepth ∧
      compareStrMem node.buttons srv.eventPool node.buttonCount = 0)
    (fun node => node.buttonCount)

/-- The loop of `event_pool_reset` over the entries of the pool, one event each. -/
def flushSingles (srv : EventSrv) : List ButtonEvt → EventSrv
  | [] => srv
  | elem :: elems =>
    match eventFind srv.eventNodeHead elem with
    | some e => flushSingles (srv.invoke e) elems
    | none => flushSingles srv elems

/-- `event_pool_reset`. -/
def eventPoolReset (srv : EventSrv) : EventSrv :=
  match resetSub srv with
  | some (e, eventDepth) =>
    if eventDepth = e.buttonCount then
      eventPoolClean (eventPoolClean (srv.invoke e) (some e)) none
    else eventPoolClean srv none
  | none => eventPoolClean (flushSingles srv (srv.eventPool.take srv.eventPoolDepth)) none

/-- The `e_sub` of `event_manage`. -/
def manageSub (srv : EventSrv) : Option (EventNode × ℕ) :=
  eventSub srv.eventNodeHead
    (fun node => node.buttonCount ≥ srv.eventPoolDepth ∧
      compareStrMem node.buttons srv.eventPool srv.eventPoolDepth = 0)
    (fun _ => srv.eventPoolDepth)

/-- The event that the second loop of `event_manage` stops at. -/
def manageShorter (srv : EventSrv) : Option EventNode :=
  srv.eventNodeHead.find? fun node =>
    node.buttonCount = srv.eventPoolDepth-1 ∧
      compareStrMem node.buttons srv.eventPool (srv.eventPoolDepth-1) = 0

/-- The event whose callback `event_manage` invokes. -/
def managePick (srv : EventSrv) : Option EventNode :=
  match manageSub srv with
  | some (e, eventDepth) => if eventDepth = e.buttonCount then some e else none
  | none => if srv.eventPoolDepth = 0 then none else manageShorter srv

/-- `event_manage`. -/
def eventManage (srv : EventSrv) : EventSrv :=
  match managePick srv with
  | some e => eventPoolClean (srv.invoke e) (some e)
  | none => srv

/-! ## The timer -/

/-- The pool waits too long for its next action. -/
def EventSrv.Expired (srv : EventSrv) (now : ℤ) : Prop :=
  srv.eventPoolDepth ≠ 0 ∧ now-srv.happenedMs ≥ maxEventTmout

instance (srv : EventSrv) (now : ℤ) : Decidable (srv.Expired now) :=
  inferInstanceAs (Decidable (_ ∧ _))

/-- The start of `button_timer_entry`. -/
def poolTimeout (srv : EventSrv) (now : ℤ) : EventSrv :=
  if srv.Expired now then eventPoolReset srv else srv

/-- An active button in `button_timer_entry`, up to `event_manage`. -/
def recordActive (srv : EventSrv) (b : Button) : EventSrv × Button :=
  let stamped := { srv with happenedMs := b.happenedMs }
  if srv.happenedMs = 0 ∨ b.happenedMs-srv.happenedMs < maxEventTmout then
    (eventPoolAdd stamped b).getD (eventPoolReset stamped, b)
  else (eventPoolAdd (eventPoolReset stamped) b).getD (eventPoolReset stamped, b)

/-- The end of an active button in `button_timer_entry`. -/
def settleHappened (srv : EventSrv) : EventSrv :=
  if srv.eventPoolDepth = 0 then { srv with happenedMs := 0 } else srv

/-- An active button in `button_timer_entry`. -/
def activeHdl (srv : EventSrv) (b : Button) : EventSrv × Button :=
  (settleHappened (eventManage (recordActive srv b).1), (recordActive srv b).2)

/-- What one expiry of the timer reads, by button. -/
structure Tick where
  /-- The time at its start. -/
  now : ℤ
  /-- The level of a button. -/
  level : ℤ → Bool
  /-- The time at which a button is handled. -/
  time : ℤ → ℤ

/-- `button_adc_sttime_check`. -/
def buttonAdcSttimeCheck (tick : Tick) (b : Button) : Button :=
  if b.ops = .adc ∧ b.irqFlag = false ∧ b.stMs = 0 ∧ tick.level b.buttonId = true then
    { b with isPressed := true, stMs := tick.now, irqFlag := true }
  else b

/-- The loop of `button_timer_entry` over the buttons. -/
def scanButtons (tick : Tick) (srv : EventSrv) : List Button → EventSrv × List Button
  | [] => (srv, [])
  | b :: bs =>
    let scanned :=
      if b.irqFlag = true ∨ b.state ≠ .none then
        let hdl := buttonHdl (tick.level b.buttonId) (tick.time b.buttonId)
          { b with irqFlag := false }
        if hdl.active then activeHdl srv hdl else (srv, hdl)
      else (srv, b)
    let rest := scanButtons tick scanned.1 bs
    (rest.1, scanned.2 :: rest.2)

/-- `g_button_srv`. -/
structure ButtonSrv where
  /-- `button_head`. -/
  buttonHead : List Button
  /-- The part about events. -/
  events : EventSrv

/-- `button_timer_entry`. -/
def buttonTimerEntry (srv : ButtonSrv) (tick : Tick) : ButtonSrv :=
  let scanned := scanButtons tick (poolTimeout srv.events tick.now)
    (srv.buttonHead.map (buttonAdcSttimeCheck tick))
  ⟨scanned.2, scanned.1⟩

/-! ## Registration -/

/-- `button_init`, and the buttons added since. -/
def ButtonSrv.init (buttons : List Button) : ButtonSrv := ⟨buttons, ⟨[], [], 0, 0, []⟩⟩

/-- `button_find`. -/
def buttonFind (buttons : List Button) (id : ℤ) : Option Button :=
  buttons.find? fun b => b.buttonId = id

/-- `event_buttons_count`. -/
def eventButtonsCount (buttons : List ButtonEvt) : ℕ :=
  buttons.foldl (fun cnt button => cnt+(button.pressType.presses.map (2*·)).getD 1) 0

/-- What `event_copy` writes for one button. -/
def expand (button : ButtonEvt) : List ButtonEvt :=
  match button.pressType.presses with
  | some count =>
    (List.replicate count [⟨button.buttonId, .down, 0⟩, ⟨button.buttonId, .up, 0⟩]).flatten
  | none => [if button.pressType = .longDown then button else { button with pressTime := 0 }]

/-- `event_copy`. -/
def eventCopy (buttons : List ButtonEvt) : List ButtonEvt := buttons.flatMap expand

/-- `event_check`. -/
def eventCheck (nodes : List EventNode) (evtId : ℤ) : Bool :=
  nodes.all fun node => node.eventId ≠ evtId

/-- `event_param_check`. -/
def eventParamCheck (srv : ButtonSrv) (buttons : List ButtonEvt) : Bool :=
  (buttons.all fun button => (buttonFind srv.buttonHead button.buttonId).isSome) &&
    srv.events.eventNodeHead.all fun node =>
      ¬(buttons.length = node.buttonCount ∧
        compareStrMem node.buttons buttons buttons.length = 0)

/-- `event_pool_new`. -/
def eventPoolNew (pool : List ButtonEvt) (size : ℕ) : List ButtonEvt :=
  if size > pool.length then List.replicate size default else pool

/-- The inner loop of `bubbleSort`. -/
def bubblePass : ℕ → List ℤ → List ℤ
  | n+1, a :: b :: rest =>
    if a > b then b :: bubblePass n (a :: rest) else a :: bubblePass n (b :: rest)
  | _, arr => arr

/-- `bubbleSort`. -/
def bubbleSort (arr : List ℤ) : List ℤ :=
  (List.range (arr.length-1)).foldl (fun arr i => bubblePass (arr.length-i-1) arr) arr

/-- `event_map_button` for one entry and its button. -/
def mapButton (evt : ButtonEvt) (b : Button) : Button :=
  if evt.pressType = .longDown ∧ evt.pressTime ∈ b.pressTime then b
  else if evt.pressType.presses.isSome then
    { b with eventFlag := (b.eventFlag.insert .down).insert .up }
  else
    { b with
      eventFlag := b.eventFlag.insert evt.pressType
      pressTime :=
        if evt.pressType = .longDown then bubbleSort (b.pressTime ++ [evt.pressTime])
        else b.pressTime }

/-- The change of the button that `button_find` gives. -/
def buttonUpdate (id : ℤ) (change : Button → Button) : List Button → List Button
  | [] => []
  | b :: bs => if b.buttonId = id then change b :: bs else b :: buttonUpdate id change bs

/-- `event_map_button`. -/
def eventMapButton (e : EventNode) (buttons : List Button) : List Button :=
  e.buttons.foldl (fun buttons evt => buttonUpdate evt.buttonId (mapButton evt) buttons) buttons

/-- What is written for a button has as many entries as are counted for it. -/
theorem expand_length (button : ButtonEvt) :
    (expand button).length = (button.pressType.presses.map (2*·)).getD 1 := by
  rcases button with ⟨id, type, time⟩
  cases type <;> rfl

/-- The array of `event_copy` has the size that was counted. -/
theorem eventCopy_length (buttons : List ButtonEvt) :
    (eventCopy buttons).length = eventButtonsCount buttons := by
  have hfold (cnt : ℕ) : buttons.foldl
      (fun cnt button => cnt+(button.pressType.presses.map (2*·)).getD 1) cnt =
        cnt+(eventCopy buttons).length := by
    induction buttons generalizing cnt with
    | nil => rfl
    | cons button rest ih =>
      rw [foldl_cons, ih, eventCopy, eventCopy, flatMap_cons, length_append, expand_length]
      omega
  rw [eventButtonsCount, hfold, Nat.zero_add]

/-- An event of some buttons has some entries. -/
theorem eventButtonsCount_pos {buttons : List ButtonEvt} (hne : buttons ≠ []) :
    0 < eventButtonsCount buttons := by
  rw [← eventCopy_length]
  cases buttons with
  | nil => exact absurd rfl hne
  | cons button rest =>
    have hexpand : 0 < (expand button).length := by
      rw [expand_length]
      cases button.pressType <;> decide
    rw [eventCopy, flatMap_cons, length_append]
    omega

/-- The arguments of `button_add_event`. -/
structure AddEvent where
  /-- `evt_id`. -/
  evtId : ℤ
  /-- `buttons`, of `button_count` entries. -/
  buttons : List ButtonEvt
  /-- `evt_cb`, zero for `NULL`. -/
  evtCb : ℕ
  /-- `priv`. -/
  priv : ℕ

/-- The node that `button_add_event` fills. -/
def AddEvent.node (call : AddEvent) (hne : call.buttons ≠ []) : EventNode where
  eventId := call.evtId
  buttons := eventCopy call.buttons
  buttonCount := eventButtonsCount call.buttons
  evtCb := call.evtCb
  priv := call.priv
  count_eq := (eventCopy_length call.buttons).symm
  count_pos := eventButtonsCount_pos hne

/-- The node is put at the end of the list. -/
def ButtonSrv.register (srv : ButtonSrv) (e : EventNode) : ButtonSrv where
  buttonHead := eventMapButton e srv.buttonHead
  events :=
    { srv.events with
      eventNodeHead := srv.events.eventNodeHead ++ [e]
      eventPool := eventPoolNew srv.events.eventPool e.buttonCount }

/-- `button_add_event`. -/
def buttonAddEvent (srv : ButtonSrv) (call : AddEvent) : ButtonSrv × ℤ :=
  if hargs : call.buttons ≠ [] ∧ call.evtCb ≠ 0 ∧ call.buttons.length < 4 then
    if eventCheck srv.events.eventNodeHead call.evtId then
      if eventParamCheck srv call.buttons then (srv.register (call.node hargs.1), 0) else (srv, -1)
    else (srv, -einval)
  else (srv, -einval)

/-- The service with its buttons, after the calls that register the events. -/
def ButtonSrv.registered (buttons : List Button) (added : List AddEvent) : ButtonSrv :=
  added.foldl (fun srv call => (buttonAddEvent srv call).1) (ButtonSrv.init buttons)

/-! ## Actions and timeouts -/

/-- What happens to the events: a button is found active, or the timer looks at the pool. -/
inductive Step where
  | active (b : Button)
  | timeout (now : ℤ)

/-- One step of the service. -/
def step (srv : EventSrv) : Step → Option EventSrv
  | .active b => some (activeHdl srv b).1
  | .timeout now => some (poolTimeout srv now)

end PineVoice.Buttons
