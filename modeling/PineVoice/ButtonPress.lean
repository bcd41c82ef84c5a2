import PineVoice.ButtonEvents

/-!
# What one press of a button reports

The scans of one button, with what of its reports is recorded. A press is a click or a long press
unless the button is released between two of its thresholds: `cnt_hdl` takes such a release for
the start of a click. A report that finds the pool full stays pending and may be overwritten by
the next one.
-/

namespace PineVoice.Buttons

open Transition List Option

/-! ## One button -/

/-- A scan of a button: what it becomes, and what is recorded if there is room in the pool. -/
def scanButton (level : Bool) (now : ℤ) (room : Bool) (b : Button) : Button × Option ButtonEvt :=
  if b.irqFlag = true ∨ b.state ≠ .none then
    let hdl := buttonHdl level now { b with irqFlag := false }
    if hdl.active ∧ room then ({ hdl with active := false }, some (poolElem hdl)) else (hdl, none)
  else (b, none)

theorem eventManage_actions (srv : EventSrv) :
    actions (eventManage srv).notes = actions srv.notes := by
  rw [eventManage]
  cases managePick srv with
  | none => rfl
  | some e => exact actions_invoked srv.notes e

theorem flushSingles_actions (elems : List ButtonEvt) (srv : EventSrv) :
    actions (flushSingles srv elems).notes = actions srv.notes := by
  induction elems generalizing srv with
  | nil => rfl
  | cons elem elems ih =>
    rw [flushSingles]
    cases eventFind srv.eventNodeHead elem with
    | none => exact ih srv
    | some e => exact (ih (srv.invoke e)).trans (actions_invoked srv.notes e)

theorem eventPoolReset_actions (srv : EventSrv) :
    actions (eventPoolReset srv).notes = actions srv.notes := by
  rw [eventPoolReset]
  cases resetSub srv with
  | none => exact flushSingles_actions _ srv
  | some r =>
    dsimp only
    split_ifs
    · exact actions_invoked srv.notes r.1
    · rfl

/-- An active button is recorded and no longer active, or it stays as it is. -/
theorem activeHdl_cases (srv : EventSrv) (b : Button) :
    (activeHdl srv b).2 = { b with active := false } ∧
        actions (activeHdl srv b).1.notes = actions srv.notes ++ [poolElem b] ∨
      (activeHdl srv b).2 = b ∧ actions (activeHdl srv b).1.notes = actions srv.notes := by
  have hsettle (s : EventSrv) : (settleHappened s).notes = s.notes := by
    rw [settleHappened]
    split_ifs <;> rfl
  have hadd (s : EventSrv) : (eventPoolAdd s b).isSome →
      ((eventPoolAdd s b).getD (eventPoolReset { srv with happenedMs := b.happenedMs }, b)).2 =
          { b with active := false } ∧
        actions ((eventPoolAdd s b).getD
          (eventPoolReset { srv with happenedMs := b.happenedMs }, b)).1.notes =
          actions s.notes ++ [poolElem b] := by
    intro hsome
    rw [eventPoolAdd] at hsome ⊢
    split_ifs at hsome ⊢ with hfull
    · cases hsome
    · exact ⟨rfl, actions_recorded s.notes (poolElem b)⟩
  rw [activeHdl, hsettle, eventManage_actions, recordActive]
  split_ifs with hrecent
  · cases hr : eventPoolAdd { srv with happenedMs := b.happenedMs } b with
    | none => exact .inr ⟨rfl, eventPoolReset_actions _⟩
    | some r =>
      have h := hadd { srv with happenedMs := b.happenedMs } (by rw [hr]; rfl)
      rw [hr] at h
      exact .inl h
  · cases hr : eventPoolAdd (eventPoolReset { srv with happenedMs := b.happenedMs }) b with
    | none => exact .inr ⟨rfl, eventPoolReset_actions _⟩
    | some r =>
      have h := hadd (eventPoolReset { srv with happenedMs := b.happenedMs }) (by rw [hr]; rfl)
      rw [hr, eventPoolReset_actions] at h
      exact .inl h

/-- What the scan of all buttons does with one of them. -/
theorem scanned_scanButton (srv : EventSrv) (b : Button) (level : Bool) (now : ℤ)
    {scanned : EventSrv × Button}
    (hscanned : scanned = if b.irqFlag = true ∨ b.state ≠ .none then
        let hdl := buttonHdl level now { b with irqFlag := false }
        if hdl.active then activeHdl srv hdl else (srv, hdl)
      else (srv, b)) :
    ∃ room, scanned.2 = (scanButton level now room b).1 ∧
      actions scanned.1.notes = actions srv.notes ++ (scanButton level now room b).2.toList := by
  subst hscanned
  by_cases hscan : b.irqFlag = true ∨ b.state ≠ .none
  · rw [if_pos hscan]
    generalize hhdl : buttonHdl level now { b with irqFlag := false } = hdl
    by_cases hactive : hdl.active = true
    · rw [if_pos hactive]
      rcases activeHdl_cases srv hdl with ⟨hb, hn⟩ | ⟨hb, hn⟩
      · refine ⟨true, ?_, ?_⟩
        · rw [scanButton, if_pos hscan, hhdl, if_pos ⟨hactive, rfl⟩, hb]
        · rw [scanButton, if_pos hscan, hhdl, if_pos ⟨hactive, rfl⟩, hn, toList_some]
      · refine ⟨false, ?_, ?_⟩
        · rw [scanButton, if_pos hscan, hhdl, if_neg (by simp), hb]
        · rw [scanButton, if_pos hscan, if_neg (by simp), hn, toList_none, append_nil]
    · rw [if_neg hactive]
      refine ⟨true, ?_, ?_⟩
      · rw [scanButton, if_pos hscan, hhdl, if_neg (fun h => hactive h.1)]
      · rw [scanButton, if_pos hscan, hhdl, if_neg (fun h => hactive h.1), toList_none, append_nil]
  · rw [if_neg hscan]
    refine ⟨true, ?_, ?_⟩
    · rw [scanButton, if_neg hscan]
    · rw [scanButton, if_neg hscan, toList_none, append_nil]

/-- Each of these buttons is scanned alone, and what they report is recorded in their order. -/
def ScansEach (tick : Tick) (notes : List Note) (bs : List Button)
    (after : EventSrv × List Button) : Prop :=
  ∃ outcomes : List (Button × Option ButtonEvt),
    List.Forall₂ (fun b r => ∃ room,
      r = scanButton (tick.level b.buttonId) (tick.time b.buttonId) room b) bs outcomes ∧
    after.2 = outcomes.map Prod.fst ∧
    actions after.1.notes = actions notes ++ outcomes.flatMap fun r => r.2.toList

theorem scanButtons_scanButton (tick : Tick) (srv : EventSrv) (bs : List Button) :
    ScansEach tick srv.notes bs (scanButtons tick srv bs) := by
  induction bs generalizing srv with
  | nil => exact ⟨[], .nil, rfl, (append_nil _).symm⟩
  | cons b bs ih =>
    rw [scanButtons]
    generalize hscanned : (if b.irqFlag = true ∨ b.state ≠ .none then
      let hdl := buttonHdl (tick.level b.buttonId) (tick.time b.buttonId)
        { b with irqFlag := false }
      if hdl.active then activeHdl srv hdl else (srv, hdl)
      else (srv, b)) = scanned
    rcases scanned_scanButton srv b _ _ hscanned.symm with ⟨room, hb, hn⟩
    rcases ih scanned.1 with ⟨outcomes, heach, hbuttons, hnotes⟩
    refine ⟨scanButton _ _ room b :: outcomes, .cons ⟨room, rfl⟩ heach, ?_, ?_⟩
    · rw [map_cons, ← hb, ← hbuttons]
    · rw [flatMap_cons, ← append_assoc, ← hn]
      exact hnotes

theorem poolTimeout_actions (srv : EventSrv) (now : ℤ) :
    actions (poolTimeout srv now).notes = actions srv.notes := by
  rw [poolTimeout]
  split_ifs
  · exact eventPoolReset_actions srv
  · rfl

/-- Each expiry of the timer scans every button as if it were alone. -/
theorem buttonTimerEntry_scans (srv : ButtonSrv) (tick : Tick) :
    ScansEach tick srv.events.notes (srv.buttonHead.map (buttonAdcSttimeCheck tick))
      ((buttonTimerEntry srv tick).events, (buttonTimerEntry srv tick).buttonHead) := by
  rw [ScansEach, ← poolTimeout_actions srv.events tick.now]
  exact scanButtons_scanButton tick _ _

/-! ## Its presses -/

/-- What happens to a button: its interrupt, or a scan that reads a level, with room in the pool
or without. -/
inductive Touch where
  | irq (now : ℤ)
  | scan (level : Bool) (now : ℤ) (room : Bool)

/-- A button, the time, and its last press. -/
structure PressLog where
  /-- The button. -/
  button : Button
  /-- The time of the last step. -/
  clock : ℤ
  /-- The time of the interrupt that began the press. -/
  began : ℤ
  /-- What was recorded since the button left `NONE`, and when. -/
  recorded : List (ButtonEvt × ℤ)

/-- No press so far. -/
def PressLog.init (b : Button) (clock : ℤ) : PressLog := ⟨b, clock, clock, []⟩

/-- One step; the time does not run backwards. -/
def touch (w : PressLog) : Touch → Option PressLog
  | .irq now =>
    if w.clock ≤ now then some { w with button := buttonIrq now w.button, clock := now } else none
  | .scan level now room =>
    if w.clock ≤ now then
      let scanned := scanButton level now room w.button
      let leaves := w.button.state = .none ∧ scanned.1.state ≠ .none
      some
        { button := scanned.1
          clock := now
          began := if leaves then w.button.stMs else w.began
          recorded :=
            (if leaves then [] else w.recorded) ++ (scanned.2.map fun elem => (elem, now)).toList }
    else none

/-- A button as it was added, whatever was registered for it since. -/
structure Idle (b : Button) : Prop where
  /-- It has an interrupt line. -/
  gpio : b.ops = .gpio
  /-- It is not pressed. -/
  state : b.state = .none
  /-- It reports nothing. -/
  inactive : b.active = false
  /-- There was no interrupt. -/
  irqFlag : b.irqFlag = false
  /-- It counts no threshold. -/
  subscript : b.pressTimeSubscript = 0

/-- Events ask for `DOWN`, `UP` and `LONG_DOWN`. There is no bit for a button that reports
nothing. -/
structure Subscribed (flag : List PressType) : Prop where
  /-- The start of a click. -/
  down : .down ∈ flag
  /-- Its end. -/
  up : .up ∈ flag
  /-- The thresholds. -/
  longDown : .longDown ∈ flag
  /-- `1 << -1`. -/
  unset : .unset ∉ flag

/-- `DOWN`, followed by at most one `UP`. -/
def IsClick (b : Button) (acts : List ButtonEvt) : Prop :=
  acts = [⟨b.buttonId, .down, 0⟩] ∨ acts = [⟨b.buttonId, .down, 0⟩, ⟨b.buttonId, .up, 0⟩]

/-- `LONG_DOWN` for the first thresholds, each when its time was over. -/
structure LongDowns (b : Button) (began : ℤ) (k : ℕ) (recorded : List (ButtonEvt × ℤ)) :
    Prop where
  /-- The thresholds in their order. -/
  acts : recorded.map Prod.fst = (b.pressTime.take k).map fun t => ⟨b.buttonId, .longDown, t⟩
  /-- None is early. -/
  late : ∀ r ∈ recorded, began+r.1.pressTime ≤ r.2

/-- A press reported nothing, or a click, or a long press. -/
def ClickOrLong (b : Button) (began : ℤ) (recorded : List (ButtonEvt × ℤ)) : Prop :=
  recorded = [] ∨ IsClick b (recorded.map Prod.fst) ∨
    ∃ k, 1 ≤ k ∧ k ≤ b.pressTime.length ∧ LongDowns b began k recorded

/-- The pool has room for what the scan reports, and a button whose first threshold was reported
is held until the last one is. -/
def Orderly (w : PressLog) : Touch → Prop
  | .irq _ => True
  | .scan level now room =>
    ((buttonHdl level now { w.button with irqFlag := false }).active = true → room = true) ∧
      (w.button.state = .cnt → 0 < w.button.pressTimeSubscript → level = true)

instance (w : PressLog) : ∀ t, Decidable (Orderly w t)
  | .irq _ => inferInstanceAs (Decidable True)
  | .scan _ _ _ => inferInstanceAs (Decidable (_ ∧ _))

/-! ## Scans -/

variable {b : Button} {w w' : PressLog} {now : ℤ}

theorem irqEnable_gpio (h : b.ops = .gpio) : irqEnable b = b := by
  rw [irqEnable, h]

/-- The button after the `switch` of a scan. -/
def switched (level : Bool) (now : ℤ) (b : Button) : Button :=
  stateHdl now { b with irqFlag := false, isPressed := level }

/-- The button after a scan that records a report. -/
def reported (level : Bool) (now : ℤ) (b : Button) : Button :=
  { switched level now b with happenedMs := now, active := false }

section Scan

variable {b : Button} {level room : Bool} {now : ℤ}

theorem scanButton_skip (hstate : b.state = .none) (hirq : b.irqFlag = false) :
    scanButton level now room b = (b, none) := by
  rw [scanButton, if_neg (by simp [hstate, hirq])]

theorem buttonHdl_eq : buttonHdl level now { b with irqFlag := false } =
    filterHdl now (switched level now b) := rfl

/-- A scan that reports nothing. -/
theorem scanButton_silent (hscan : b.irqFlag = true ∨ b.state ≠ .none)
    (hactive : (switched level now b).active = false) :
    scanButton level now room b = (switched level now b, none) := by
  simp [scanButton, buttonHdl_eq, filterHdl, hscan, hactive]

/-- A scan whose report no event asks for. -/
theorem scanButton_dropped (hscan : b.irqFlag = true ∨ b.state ≠ .none)
    (hactive : (switched level now b).active = true)
    (hflag : (switched level now b).pressType ∉ (switched level now b).eventFlag) :
    scanButton level now room b = ({ switched level now b with active := false }, none) := by
  simp [scanButton, buttonHdl_eq, filterHdl, hscan, hactive, hflag]

/-- A scan that reports what an event asks for, with room in the pool. -/
theorem scanButton_reports (hscan : b.irqFlag = true ∨ b.state ≠ .none)
    (hactive : (switched level now b).active = true)
    (hflag : (switched level now b).pressType ∈ (switched level now b).eventFlag)
    (hroom : (buttonHdl level now { b with irqFlag := false }).active = true → room = true) :
    scanButton level now room b =
      (reported level now b, some (poolElem (switched level now b))) := by
  simp [scanButton, buttonHdl_eq, filterHdl, hscan, hactive, hflag, hroom, reported, poolElem]

end Scan

/-- What was registered for a button, which no scan changes. -/
def Button.setup (b : Button) : ℤ × ButtonOps × List ℤ × List PressType :=
  (b.buttonId, b.ops, b.pressTime, b.eventFlag)

/-- Where a press stands, with what it recorded so far. -/
inductive Stage (b : Button) (w : PressLog) : Prop where
  | none (state : w.button.state = .none) (subscript : w.button.pressTimeSubscript = 0)
      (whole : ClickOrLong b w.began w.recorded)
  | start (state : w.button.state = .start) (subscript : w.button.pressTimeSubscript = 0)
      (began : w.began ≤ w.button.stMs) (nothing : w.recorded = [])
  | cnt (state : w.button.state = .cnt) (began : w.began ≤ w.button.stMs)
      (subscript : w.button.pressTimeSubscript < b.pressTime.length ∨
        b.pressTime = [] ∧ w.button.pressTimeSubscript = 0)
      (longs : LongDowns b w.began w.button.pressTimeSubscript w.recorded)
  | click (state : w.button.state = .high) (pressType : w.button.pressType = .down)
      (subscript : w.button.pressTimeSubscript = 0)
      (down : w.recorded.map Prod.fst = [⟨b.buttonId, .down, 0⟩])
  | long (state : w.button.state = .high) (pressType : w.button.pressType = .longDown)
      (whole : ClickOrLong b w.began w.recorded)
  | ended (state : w.button.state = .ended) (whole : ClickOrLong b w.began w.recorded)

/-- What holds of a button whose scans are orderly. -/
structure Tracked (b : Button) (w : PressLog) : Prop where
  /-- Nothing else was registered. -/
  setup : w.button.setup = b.setup
  /-- Every report was recorded. -/
  inactive : w.button.active = false
  /-- The last interrupt is over. -/
  stMs_le : w.button.stMs ≤ w.clock
  /-- The stage of the press. -/
  stage : Stage b w

section Steps

variable {b : Button} {w : PressLog} {level room : Bool} {now : ℤ}

variable {w' : PressLog} {b' : Button} {began : ℤ} {k : ℕ}

/-- A scan that does not start a press. -/
theorem touch_scan {elem : Option ButtonEvt} (hstay : w.button.state ≠ .none ∨ b'.state = .none)
    (hscan : scanButton level now room w.button = (b', elem))
    (htouch : touch w (.scan level now room) = some w') :
    w.clock ≤ now ∧ w' = ⟨b', now, w.began,
      w.recorded ++ (elem.map fun elem => (elem, now)).toList⟩ := by
  have hleaves : ¬(w.button.state = .none ∧ b'.state ≠ .none) := fun h => hstay.elim (· h.1) h.2
  rw [touch] at htouch
  by_cases hle : w.clock ≤ now
  · rw [if_pos hle, hscan] at htouch
    refine ⟨hle, (Option.some.inj htouch).symm.trans ?_⟩
    simp only [if_neg hleaves]
  · rw [if_neg hle] at htouch
    cases htouch

/-- A press that is not over may still count thresholds. -/
theorem LongDowns.clickOrLong {recorded : List (ButtonEvt × ℤ)} (h : LongDowns b began k recorded)
    (hle : k ≤ b.pressTime.length) : ClickOrLong b began recorded := by
  cases k with
  | zero => exact .inl (List.map_eq_nil_iff.mp h.acts)
  | succ k => exact Or.inr (Or.inr ⟨k+1, Nat.le_add_left 1 k, hle, h⟩)

/-- The next threshold is recorded. -/
theorem LongDowns.succ {now t : ℤ} {recorded : List (ButtonEvt × ℤ)}
    (h : LongDowns b began k recorded) (ht : b.pressTime[k]? = some t) (hlate : began+t ≤ now) :
    LongDowns b began (k+1) (recorded ++ [(⟨b.buttonId, .longDown, t⟩, now)]) where
  acts := by
    rw [map_append, h.acts, take_add_one, ht, map_append]
    rfl
  late := by
    intro r hr
    rcases List.mem_append.mp hr with hold | hnew
    · exact h.late r hold
    · rw [List.mem_singleton.mp hnew]
      exact hlate

theorem Tracked.registered (h : Tracked b w) : w.button.buttonId = b.buttonId ∧
    w.button.ops = b.ops ∧ w.button.pressTime = b.pressTime ∧
    w.button.eventFlag = b.eventFlag := by
  simpa [Button.setup] using h.setup

/-- The button after a scan, in its next stage. -/
theorem Tracked.scan {recorded : List (ButtonEvt × ℤ)} (h : Tracked b w) (hle : w.clock ≤ now)
    (hsame : b'.setup = w.button.setup ∧ b'.stMs = w.button.stMs) (hinactive : b'.active = false)
    (hstage : Stage b ⟨b', now, began, recorded⟩) : Tracked b ⟨b', now, began, recorded⟩ :=
  ⟨hsame.1.trans h.setup, hinactive, hsame.2 ▸ Int.le_trans h.stMs_le hle, hstage⟩

/-- A button that is held in `HIGH` stays as it is. -/
theorem switched_high_held (hstate : w.button.state = .high) :
    switched true now w.button = { w.button with irqFlag := false, isPressed := true } := by
  simp [switched, stateHdl, hstate, highHdl]

/-- The release of a button in `HIGH`. -/
theorem switched_high_released (hstate : w.button.state = .high) :
    switched false now w.button = { w.button with
        irqFlag := false
        isPressed := false
        state := .ended
        active := true
        pressType := if w.button.pressType = .longDown then .unset else .up } := by
  simp [switched, stateHdl, hstate, highHdl]

variable (h : Tracked b w) (htouch : touch w (.scan level now room) = some w')

include h htouch

/-- A scan that records nothing. -/
theorem Tracked.quiet (hscan : scanButton level now room w.button = (b', none))
    (hstay : w.button.state ≠ .none ∨ b'.state = .none)
    (hsame : b'.setup = w.button.setup ∧ b'.stMs = w.button.stMs) (hinactive : b'.active = false)
    (hstage : Stage b ⟨b', now, w.began, w.recorded⟩) : Tracked b w' := by
  rcases touch_scan hstay hscan htouch with ⟨hle, rfl⟩
  rw [map_none, toList_none, append_nil]
  exact h.scan hle hsame hinactive hstage

/-- The button waits for a press, or a press starts. -/
theorem Tracked.scan_none (hgpio : b.ops = .gpio) (hstate : w.button.state = .none)
    (hsub : w.button.pressTimeSubscript = 0) (hwhole : ClickOrLong b w.began w.recorded) :
    Tracked b w' := by
  have hops : w.button.ops = .gpio := h.registered.2.1.trans hgpio
  by_cases hirq : w.button.irqFlag = true
  · cases level with
    | true =>
      have hswitched : switched true now w.button =
          { w.button with irqFlag := false, isPressed := true, state := .start } := by
        simp [switched, stateHdl, hstate, noneHdl]
      have hscan : scanButton true now room w.button = (switched true now w.button, none) :=
        scanButton_silent (.inl hirq) (by rw [hswitched]; exact h.inactive)
      rw [touch, hscan, hswitched] at htouch
      split_ifs at htouch with hle
      have hw' := Option.some.inj htouch
      simp only [hstate] at hw'
      subst hw'
      exact h.scan hle ⟨rfl, rfl⟩ h.inactive (.start rfl hsub (Int.le_refl _) rfl)
    | false =>
      have hswitched : switched false now w.button =
          { w.button with irqFlag := false, isPressed := false } := by
        simp [switched, stateHdl, hstate, noneHdl, irqEnable_gpio, hops]
      have hscan : scanButton false now room w.button = (switched false now w.button, none) :=
        scanButton_silent (.inl hirq) (by rw [hswitched]; exact h.inactive)
      rw [hswitched] at hscan
      exact h.quiet htouch hscan (.inr hstate) ⟨rfl, rfl⟩ h.inactive (.none hstate hsub hwhole)
  · exact h.quiet htouch (scanButton_skip hstate (Bool.not_eq_true _ ▸ hirq)) (.inr hstate)
      ⟨rfl, rfl⟩ h.inactive (.none hstate hsub hwhole)

variable {state : ButtonState} (hstate : w.button.state = state) (hne : state ≠ .none)
  (hswitched : switched level now w.button = b')
  (hsame : b'.setup = w.button.setup ∧ b'.stMs = w.button.stMs)

include hstate hne hswitched hsame

/-- A scan in a press that reports nothing. -/
theorem Tracked.silent (hinactive : b'.active = false)
    (hstage : Stage b ⟨b', now, w.began, w.recorded⟩) : Tracked b w' := by
  subst hstate hswitched
  exact h.quiet htouch (scanButton_silent (.inr hne) hinactive) (.inl hne) hsame hinactive hstage

/-- A scan in a press that reports what no event asks for. -/
theorem Tracked.dropped (hactive : b'.active = true) (hflag : b'.pressType ∉ b.eventFlag)
    (hstage : Stage b ⟨{ b' with active := false }, now, w.began, w.recorded⟩) :
    Tracked b w' := by
  have hflags : b'.eventFlag = b.eventFlag := congrArg (·.2.2.2) (hsame.1.trans h.setup)
  rw [← hflags] at hflag
  subst hstate hswitched
  exact h.quiet htouch (scanButton_dropped (.inr hne) hactive hflag) (.inl hne) hsame rfl hstage

/-- A scan in a press that reports what an event asks for. -/
theorem Tracked.reports (hok : Orderly w (.scan level now room)) (hactive : b'.active = true)
    (hflag : b'.pressType ∈ b.eventFlag)
    (hstage : Stage b ⟨{ b' with happenedMs := now, active := false }, now, w.began,
      w.recorded ++ [(poolElem b', now)]⟩) : Tracked b w' := by
  have hflags : b'.eventFlag = b.eventFlag := congrArg (·.2.2.2) (hsame.1.trans h.setup)
  rw [← hflags] at hflag
  subst hstate hswitched
  rcases touch_scan (.inl hne) (scanButton_reports (.inr hne) hactive hflag hok.1) htouch with
    ⟨hle, rfl⟩
  exact h.scan hle hsame rfl hstage

omit hstate hne hswitched hsame

/-- The press bounces, or it is long enough to count. -/
theorem Tracked.scan_start (hgpio : b.ops = .gpio) (hstate : w.button.state = .start)
    (hsub : w.button.pressTimeSubscript = 0) (hbegan : w.began ≤ w.button.stMs)
    (hnothing : w.recorded = []) : Tracked b w' := by
  have hops : w.button.ops = .gpio := h.registered.2.1.trans hgpio
  have hlongs : LongDowns b w.began w.button.pressTimeSubscript w.recorded := by
    rw [hsub, hnothing]
    exact ⟨rfl, fun r hr => by cases hr⟩
  have hnext : w.button.pressTimeSubscript < b.pressTime.length ∨
      b.pressTime = [] ∧ w.button.pressTimeSubscript = 0 := by
    rw [hsub]
    cases b.pressTime with
    | nil => exact .inr ⟨rfl, rfl⟩
    | cons t ts => exact .inl (Nat.succ_pos _)
  cases level with
  | true =>
    by_cases hlong : now-w.button.stMs ≥ minStTmout
    · have hswitched : switched true now w.button =
          { w.button with irqFlag := false, isPressed := true, state := .cnt } := by
        simp [switched, stateHdl, hstate, startHdl, hlong]
      exact h.silent htouch hstate (by decide) hswitched ⟨rfl, rfl⟩ h.inactive
        (.cnt rfl hbegan hnext hlongs)
    · have hswitched : switched true now w.button =
          { w.button with irqFlag := false, isPressed := true } := by
        simp [switched, stateHdl, hstate, startHdl, hlong]
      exact h.silent htouch hstate (by decide) hswitched ⟨rfl, rfl⟩ h.inactive
        (.start hstate hsub hbegan hnothing)
  | false =>
    have hswitched : switched false now w.button =
        reset { w.button with irqFlag := false, isPressed := false } := by
      simp [switched, stateHdl, hstate, startHdl, irqEnable_gpio, hops, reset]
    exact h.silent htouch hstate (by decide) hswitched ⟨rfl, rfl⟩ rfl
      (.none rfl rfl (.inl hnothing))

/-- A button that is held reports its next threshold, or waits for it. -/
theorem Tracked.scan_held (hsubscribed : Subscribed b.eventFlag)
    (hok : Orderly w (.scan level now room)) (hlevel : level = true) (hstate : w.button.state = .cnt)
    (hbegan : w.began ≤ w.button.stMs) (hlt : w.button.pressTimeSubscript < b.pressTime.length)
    (hlongs : LongDowns b w.began w.button.pressTimeSubscript w.recorded) : Tracked b w' := by
  subst hlevel
  obtain ⟨hid, -, htimes, -⟩ := h.registered
  have hthresholds : w.button.pressTime ≠ [] := by
    rw [htimes]
    exact ne_nil_of_length_pos (Nat.lt_of_le_of_lt (Nat.zero_le _) hlt)
  rcases List.getElem?_eq_some_iff.mpr ⟨hlt, rfl⟩ with ht
  generalize b.pressTime[w.button.pressTimeSubscript] = t at ht
  have hget : w.button.pressTime.getD w.button.pressTimeSubscript 0 = t := by
    rw [htimes, getD_eq_getElem?_getD, ht, getD_some]
  by_cases hreached : now-w.button.stMs ≥ t
  · have hlate : w.began+t ≤ now := by omega
    have hswitched : switched true now w.button = { w.button with
          irqFlag := false
          isPressed := true
          active := true
          pressType := .longDown
          pressTimeSubscript := w.button.pressTimeSubscript+1
          state := if w.button.pressTimeSubscript+1 ≥ w.button.pressTime.length then .high
            else w.button.state } := by
      rw [switched, stateHdl]
      simp only [hstate]
      rw [cntHdl, if_pos ⟨rfl, hthresholds⟩, if_pos (by rw [hget]; exact hreached)]
    refine h.reports htouch hstate (by decide) hswitched ⟨rfl, rfl⟩ hok rfl hsubscribed.longDown ?_
    have hrecorded : LongDowns b w.began (w.button.pressTimeSubscript+1)
        (w.recorded ++ [(⟨w.button.buttonId, .longDown,
          w.button.pressTime.getD w.button.pressTimeSubscript 0⟩, now)]) := by
      rw [hget, hid]
      exact hlongs.succ ht hlate
    by_cases hlast : w.button.pressTimeSubscript+1 ≥ w.button.pressTime.length
    · exact .long (if_pos hlast) rfl (hrecorded.clickOrLong hlt)
    · rw [htimes] at hlast
      exact .cnt ((if_neg (htimes ▸ hlast)).trans hstate) hbegan (.inl (Nat.lt_of_not_ge hlast))
        hrecorded
  · have hswitched : switched true now w.button =
        { w.button with irqFlag := false, isPressed := true } := by
      rw [switched, stateHdl]
      simp only [hstate]
      rw [cntHdl, if_pos ⟨rfl, hthresholds⟩, if_neg (by rw [hget]; exact hreached)]
    exact h.silent htouch hstate (by decide) hswitched ⟨rfl, rfl⟩ h.inactive
      (.cnt hstate hbegan (.inl hlt) hlongs)

/-- A threshold is counted, or the press turns out to be a click. -/
theorem Tracked.scan_cnt (hsubscribed : Subscribed b.eventFlag)
    (hok : Orderly w (.scan level now room)) (hstate : w.button.state = .cnt)
    (hbegan : w.began ≤ w.button.stMs)
    (hsub : w.button.pressTimeSubscript < b.pressTime.length ∨
      b.pressTime = [] ∧ w.button.pressTimeSubscript = 0)
    (hlongs : LongDowns b w.began w.button.pressTimeSubscript w.recorded) : Tracked b w' := by
  by_cases hcount : level = true ∧ b.pressTime ≠ []
  · rcases hsub with hlt | ⟨hnil, _⟩
    · exact h.scan_held htouch hsubscribed hok hcount.1 hstate hbegan hlt hlongs
    · exact absurd hnil hcount.2
  · have hne : w.button.state ≠ .none := by rw [hstate]; decide
    have hzero : w.button.pressTimeSubscript = 0 := by
      rcases hsub with hlt | ⟨_, hzero⟩
      · by_contra hpos
        exact hcount ⟨hok.2 hstate (Nat.pos_of_ne_zero hpos),
          ne_nil_of_length_pos (Nat.lt_of_le_of_lt (Nat.zero_le _) hlt)⟩
      · exact hzero
    have hnothing : w.recorded = [] := by
      have hacts := hlongs.acts
      rw [hzero] at hacts
      exact List.map_eq_nil_iff.mp hacts
    have hswitched : switched level now w.button = { w.button with
          irqFlag := false
          isPressed := level
          state := .high
          active := true
          pressType := .down } := by
      rw [switched, stateHdl]
      simp only [hstate]
      rw [cntHdl, if_neg (by rw [h.registered.2.2.1]; exact hcount)]
    refine h.reports htouch hstate (by decide) hswitched ⟨rfl, rfl⟩ hok rfl hsubscribed.down
      (.click rfl rfl hzero ?_)
    simp [hnothing, poolElem, hzero, h.registered.1]

/-- A click ends with its release. -/
theorem Tracked.scan_click (hsubscribed : Subscribed b.eventFlag)
    (hok : Orderly w (.scan level now room)) (hstate : w.button.state = .high)
    (htype : w.button.pressType = .down) (hsub : w.button.pressTimeSubscript = 0)
    (hdown : w.recorded.map Prod.fst = [⟨b.buttonId, .down, 0⟩]) : Tracked b w' := by
  cases level with
  | true =>
    exact h.silent htouch hstate (by decide) (switched_high_held hstate) ⟨rfl, rfl⟩ h.inactive
      (.click hstate htype hsub hdown)
  | false =>
    have hup : (if w.button.pressType = .longDown then PressType.unset else .up) = .up := by
      rw [htype]
      rfl
    refine h.reports htouch hstate (by decide) (switched_high_released hstate) ⟨rfl, rfl⟩ hok rfl
      (by rw [hup]; exact hsubscribed.up) (.ended rfl (.inr (.inl (.inr ?_))))
    simp [hdown, poolElem, hup, hsub, h.registered.1]

/-- A long press ends with its release, which is not reported. -/
theorem Tracked.scan_long (hsubscribed : Subscribed b.eventFlag)
    (hstate : w.button.state = .high) (htype : w.button.pressType = .longDown)
    (hwhole : ClickOrLong b w.began w.recorded) : Tracked b w' := by
  cases level with
  | true =>
    exact h.silent htouch hstate (by decide) (switched_high_held hstate) ⟨rfl, rfl⟩ h.inactive
      (.long hstate htype hwhole)
  | false =>
    have hunset : (if w.button.pressType = .longDown then PressType.unset else .up) = .unset :=
      if_pos htype
    exact h.dropped htouch hstate (by decide) (switched_high_released hstate) ⟨rfl, rfl⟩ rfl
      (by rw [hunset]; exact hsubscribed.unset) (.ended rfl hwhole)

/-- The button waits for its next press. -/
theorem Tracked.scan_ended (hgpio : b.ops = .gpio) (hstate : w.button.state = .ended)
    (hwhole : ClickOrLong b w.began w.recorded) : Tracked b w' := by
  have hops : w.button.ops = .gpio := h.registered.2.1.trans hgpio
  have hswitched : switched level now w.button =
      reset { w.button with irqFlag := false, isPressed := level } := by
    simp [switched, stateHdl, hstate, irqEnable_gpio, hops, reset]
  exact h.silent htouch hstate (by decide) hswitched ⟨rfl, rfl⟩ rfl (.none rfl rfl hwhole)

end Steps

/-- An interrupt starts the time of a press anew. -/
theorem Tracked.irq (h : Tracked b w) (htouch : touch w (.irq now) = some w') : Tracked b w' := by
  rw [touch] at htouch
  split_ifs at htouch with hle
  have hst : w.button.stMs ≤ now := Int.le_trans h.stMs_le hle
  have hw' := Option.some.inj htouch
  subst hw'
  refine ⟨h.setup, h.inactive, Int.le_refl now, ?_⟩
  rcases h.stage with ⟨hstate, hsub, hwhole⟩ | ⟨hstate, hsub, hbegan, hnothing⟩ |
    ⟨hstate, hbegan, hsub, hlongs⟩ | ⟨hstate, htype, hsub, hdown⟩ | ⟨hstate, htype, hwhole⟩ |
    ⟨hstate, hwhole⟩
  · exact .none hstate hsub hwhole
  · exact .start hstate hsub (Int.le_trans hbegan hst) hnothing
  · exact .cnt hstate (Int.le_trans hbegan hst) hsub hlongs
  · exact .click hstate htype hsub hdown
  · exact .long hstate htype hwhole
  · exact .ended hstate hwhole

/-- Every orderly step keeps the stage of the press. -/
theorem Tracked.step (hgpio : b.ops = .gpio) (hsubscribed : Subscribed b.eventFlag) (w : PressLog)
    (t : Touch) (w' : PressLog) (hok : Orderly w t) (h : Tracked b w) (htouch : touch w t = some w')
    : Tracked b w' := by
  cases t with
  | irq now => exact h.irq htouch
  | scan level now room =>
    rcases h.stage with ⟨hstate, hsub, hwhole⟩ | ⟨hstate, hsub, hbegan, hnothing⟩ |
      ⟨hstate, hbegan, hsub, hlongs⟩ | ⟨hstate, htype, hsub, hdown⟩ | ⟨hstate, htype, hwhole⟩ |
      ⟨hstate, hwhole⟩
    · exact h.scan_none htouch hgpio hstate hsub hwhole
    · exact h.scan_start htouch hgpio hstate hsub hbegan hnothing
    · exact h.scan_cnt htouch hsubscribed hok hstate hbegan hsub hlongs
    · exact h.scan_click htouch hsubscribed hok hstate htype hsub hdown
    · exact h.scan_long htouch hsubscribed hstate htype hwhole
    · exact h.scan_ended htouch hgpio hstate hwhole

/-- What a press reported so far is part of a click or of a long press. -/
theorem Tracked.clickOrLong (h : Tracked b w) : ClickOrLong b w.began w.recorded := by
  rcases h.stage with ⟨_, _, hwhole⟩ | ⟨_, _, _, hnothing⟩ | ⟨_, _, hsub, hlongs⟩ |
    ⟨_, _, _, hdown⟩ | ⟨_, _, hwhole⟩ | ⟨_, hwhole⟩
  · exact hwhole
  · exact .inl hnothing
  · refine hlongs.clickOrLong ?_
    rcases hsub with hlt | ⟨_, hzero⟩
    · exact le_of_lt hlt
    · rw [hzero]
      exact Nat.zero_le _
  · exact .inr (.inl (.inl hdown))
  · exact hwhole
  · exact hwhole

/-- A press has no `LONG_DOWN` together with another action. -/
theorem ClickOrLong.not_mixed {began : ℤ} {recorded : List (ButtonEvt × ℤ)}
    (h : ClickOrLong b began recorded) {elem other : ButtonEvt}
    (helem : elem ∈ recorded.map Prod.fst) (hother : other ∈ recorded.map Prod.fst)
    (hlong : elem.pressType = .longDown) : other.pressType = .longDown := by
  rcases h with rfl | hclick | ⟨k, _, _, hlongs⟩
  · cases helem
  · rcases hclick with hacts | hacts
    · rw [hacts, mem_singleton] at helem
      rw [helem] at hlong
      cases hlong
    · rw [hacts, mem_pair] at helem
      rcases helem with rfl | rfl
      · cases hlong
      · cases hlong
  · rw [hlongs.acts] at hother
    rcases List.mem_map.mp hother with ⟨t, _, rfl⟩
    rfl

/-! ## Whole runs -/

/-- In every run of orderly steps a press is reported either as a click or as a long press. -/
theorem press_click_or_long (b : Button) (clock : ℤ) (steps : List Touch) (w : PressLog)
    (hidle : Idle b) (hsubscribed : Subscribed b.eventFlag) (hclock : b.stMs ≤ clock)
    (horderly : Along touch Orderly (.init b clock) steps)
    (hrun : run touch (.init b clock) steps = some w) :
    ClickOrLong b w.began w.recorded := by
  have hinit : Tracked b (.init b clock) :=
    ⟨rfl, hidle.inactive, hclock, .none hidle.state hidle.subscript (.inl rfl)⟩
  exact (run_keeps (Tracked.step hidle.gpio hsubscribed) horderly hinit hrun).clickOrLong

/-- A button with the thresholds of one and of three seconds. -/
def twoThresholds : Button :=
  { buttonNew 1 .gpio with eventFlag := [.down, .up, .longDown], pressTime := [1000, 3000] }

theorem twoThresholds_idle : Idle twoThresholds := ⟨rfl, rfl, rfl, rfl, rfl⟩

theorem twoThresholds_subscribed : Subscribed twoThresholds.eventFlag :=
  ⟨by decide, by decide, by decide, by decide⟩

/-- A press that is held for three seconds, and its release. -/
def heldPress : List Touch :=
  [.irq 0, .scan true 30 true, .scan true 90 true, .scan true 1000 true, .scan true 3000 true,
    .scan false 3030 true, .scan false 3060 true]

/-- It reports both thresholds. -/
theorem press_click_or_long_held :
    ∃ w, Along touch Orderly (.init twoThresholds 0) heldPress ∧
      run touch (.init twoThresholds 0) heldPress = some w ∧ w.button.state = .none ∧
      w.recorded = [(⟨1, .longDown, 1000⟩, 1000), (⟨1, .longDown, 3000⟩, 3000)] ∧
      ClickOrLong twoThresholds w.began w.recorded := by
  have horderly : Along touch Orderly (.init twoThresholds 0) heldPress := by decide +kernel
  obtain ⟨w, hw, hstate, hrecorded⟩ : ∃ w, run touch (.init twoThresholds 0) heldPress = some w ∧
      w.button.state = .none ∧
      w.recorded = [(⟨1, .longDown, 1000⟩, 1000), (⟨1, .longDown, 3000⟩, 3000)] := by
    decide +kernel
  exact ⟨w, horderly, hw, hstate, hrecorded, press_click_or_long twoThresholds 0 heldPress w
    twoThresholds_idle twoThresholds_subscribed (Int.le_refl 0) horderly hw⟩

/-- A press that is released between its thresholds. -/
def releasedPress : List Touch :=
  [.irq 0, .scan true 30 true, .scan true 90 true, .scan true 1000 true, .scan false 1030 true,
    .scan false 1060 true, .scan false 1090 true]

/-- It is reported as a long press, and as a click with the press time of a long press. -/
theorem released_press_mixed :
    ∃ w, run touch (.init twoThresholds 0) releasedPress = some w ∧ w.button.state = .none ∧
      w.recorded = [(⟨1, .longDown, 1000⟩, 1000), (⟨1, .down, 1000⟩, 1030),
        (⟨1, .up, 1000⟩, 1060)] ∧
      ¬ClickOrLong twoThresholds w.began w.recorded := by
  obtain ⟨w, hw, hstate, hrecorded⟩ : ∃ w, run touch (.init twoThresholds 0) releasedPress = some w ∧
      w.button.state = .none ∧ w.recorded = [(⟨1, .longDown, 1000⟩, 1000),
        (⟨1, .down, 1000⟩, 1030), (⟨1, .up, 1000⟩, 1060)] := by
    decide +kernel
  refine ⟨w, hw, hstate, hrecorded, fun hwhole => ?_⟩
  rw [hrecorded] at hwhole
  have hdown := hwhole.not_mixed mem_cons_self (mem_cons_of_mem _ mem_cons_self) rfl
  cases hdown

/-- A `DOWN` that finds the pool full is lost if the next scan sees the release. -/
example : (run touch (.init twoThresholds 0)
    [.irq 0, .scan true 30 true, .scan true 90 true, .scan false 120 false, .scan false 150 true,
      .scan false 180 true]).map (fun w => w.recorded) = some [(⟨1, .up, 0⟩, 150)] := by
  decide +kernel

end PineVoice.Buttons
