import Mathlib.Algebra.Group.Nat.Defs
import PineVoice.ClockAlarm

/-!
# The table of alarms

`update_clock_alarm` moves a recurring alarm by one period and deletes the others, so an alarm
that is overdue by more than a period stays so. The timer callback also moves those that are due
in the same seconds. The copy in the key-value store, the status and the timers are left out.
-/

namespace PineVoice.ClockAlarm

/-- `clock_alarm_ctx_t`; `alarm_cb` is not used. -/
structure ClockAlarmCtx where
  /-- `id`: zero, or the position in the table from one on. -/
  id : ℕ
  /-- `time`. -/
  time : ℤ
  /-- `enable`. -/
  enable : Bool
  /-- `period`. -/
  period : ℤ
deriving DecidableEq

/-- An entry without an alarm. -/
instance : Inhabited ClockAlarmCtx := ⟨⟨0, 0, false, clockAlarmPeriodDisable⟩⟩

/-- The value of an `int`. -/
def int32 (x : ℤ) : ℤ := x.bmod (2^32)

section Code

variable (gmtime : ℤ → Tm)

/-- `update_clock_alarm`. -/
def updateClockAlarm (a : ClockAlarmCtx) : ClockAlarmCtx :=
  if a.period = clockAlarmPeriodDisable ∨ a.period = clockAlarmOnce then default
  else { a with time := updatePeriod gmtime a.period a.time }

/-- `get_mini_clock_id`. -/
def getMiniClockId (table : List ClockAlarmCtx) : ℕ :=
  (table.foldl (fun (clockTime, minId) a =>
    if a.enable ∧ (clockTime = 0 ∨ clockTime > a.time) then (a.time, a.id)
    else (clockTime, minId)) ((0 : ℤ), 0)).2

/-- The table after the `enable` field of the first alarm with an id is set. -/
def setEnable (id : ℕ) (enable : Bool) : List ClockAlarmCtx → List ClockAlarmCtx
  | [] => []
  | a :: table =>
    if a.id = id then { a with enable } :: table else a :: setEnable id enable table

/-- `clock_alarm_enable` at a time. -/
def clockAlarmEnable (table : List ClockAlarmCtx) (now : ℤ) (id : ℕ) (enable : Bool) :
    List ClockAlarmCtx :=
  if ∀ a ∈ table, a.id ≠ id then table
  else (setEnable id enable table).map fun a =>
    if a.time ≠ 0 ∧ a.time ≤ now then updateClockAlarm gmtime a else a

/-- `clock_alarm_handle` gets to the loop that updates the alarms: the first one is less than 90
seconds ahead, or overdue if `CONFIG_CLOCK_ALARM_SCHEDULE` is set. -/
def HandleUpdates (schedule : Bool) (table : List ClockAlarmCtx) (now : ℤ) : Prop :=
  getMiniClockId table ≠ 0 ∧
    int32 ((table.getD (getMiniClockId table-1) default).time-now) < if schedule then 0 else 90

instance (schedule : Bool) (table : List ClockAlarmCtx) (now : ℤ) :
    Decidable (HandleUpdates schedule table now) := inferInstanceAs (Decidable (_ ∧ _))

/-- `clock_alarm_handle` at a time. -/
def clockAlarmHandle (schedule : Bool) (table : List ClockAlarmCtx) (now : ℤ) :
    List ClockAlarmCtx :=
  if HandleUpdates schedule table now then
    table.map fun a => if a.time ≠ 0 ∧ a.time < now then updateClockAlarm gmtime a else a
  else table

/-- `clock_timer_callback` for the id that belongs to a position: the table, and the ids for which
the user's callback, if there is one, is invoked. -/
def clockTimerCallback (cb : Bool) (table : List ClockAlarmCtx) (now : ℤ) (idx : ℕ) :
    List ClockAlarmCtx × List ℕ :=
  let due := (int32 (now-(table.getD idx default).time)).natAbs < 3
  ((if due then table.modify idx (updateClockAlarm gmtime) else table).map fun a =>
      if a.time < now then updateClockAlarm gmtime a else a,
    if due ∧ cb then [idx+1] else [])

/-- An enabled alarm with a daily, weekly or workday period. -/
def ClockAlarmCtx.Recurs (a : ClockAlarmCtx) : Prop :=
  a.enable = true ∧ (a.period = clockAlarmPeriodDay ∨ a.period = clockAlarmPeriodWeek ∨
    a.period = clockAlarmPeriodWorkday)

/-- No recurring alarm is overdue. -/
def NoneOverdue (table : List ClockAlarmCtx) (now : ℤ) : Prop :=
  ∀ a ∈ table, a.Recurs → now ≤ a.time

/-- By how many seconds an alarm may be overdue. A workday alarm has until Monday if its last time
was a Friday or a Saturday. -/
structure ClockAlarmCtx.OnePeriodBehind (a : ClockAlarmCtx) (now : ℤ) : Prop where
  /-- A daily alarm. -/
  day : a.period = clockAlarmPeriodDay → now-a.time ≤ 86400
  /-- A weekly alarm. -/
  week : a.period = clockAlarmPeriodWeek → now-a.time ≤ 604800
  /-- A workday alarm on a Friday. -/
  friday : a.period = clockAlarmPeriodWorkday → (gmtime a.time).wday = 5 → now-a.time ≤ 259200
  /-- A workday alarm on a Saturday. -/
  saturday : a.period = clockAlarmPeriodWorkday → (gmtime a.time).wday = 6 → now-a.time ≤ 172800
  /-- A workday alarm on another day. -/
  otherDay : a.period = clockAlarmPeriodWorkday → (gmtime a.time).wday ≠ 5 →
    (gmtime a.time).wday ≠ 6 → now-a.time ≤ 86400

/-- Every recurring alarm that is overdue is reached by an update, and by no more than one period
behind. -/
def UpdatesSuffice (table : List ClockAlarmCtx) (now : ℤ) (updates : Prop) : Prop :=
  ∀ a ∈ table, a.Recurs → a.time < now →
    updates ∧ a.time ≠ 0 ∧ a.OnePeriodBehind gmtime now

/-- Every period but the single alarm moves the time forward. -/
theorem lt_updatePeriod {period : ℤ} (h : period ≠ clockAlarmOnce) (time : ℤ) :
    time < updatePeriod gmtime period time := by
  rw [updatePeriod, if_neg h, oneDayTime, oneWeekTime]
  split_ifs <;> omega

/-- What an update does with an alarm that it does not delete. -/
theorem updateClockAlarm_moves {a : ClockAlarmCtx} (hdisable : a.period ≠ clockAlarmPeriodDisable)
    (honce : a.period ≠ clockAlarmOnce) :
    updateClockAlarm gmtime a = { a with time := updatePeriod gmtime a.period a.time } :=
  if_neg (not_or.mpr ⟨hdisable, honce⟩)

/-- An update deletes no recurring alarm. -/
theorem ClockAlarmCtx.Recurs.not_deleted {a : ClockAlarmCtx} (h : a.Recurs) :
    a.period ≠ clockAlarmPeriodDisable ∧ a.period ≠ clockAlarmOnce := by
  rcases h.2 with hp | hp | hp <;> rw [hp] <;> decide

/-- One period is enough exactly within the bounds. -/
theorem ClockAlarmCtx.Recurs.le_updatePeriod_iff {a : ClockAlarmCtx} (h : a.Recurs) (now : ℤ) :
    now ≤ updatePeriod gmtime a.period a.time ↔ a.OnePeriodBehind gmtime now := by
  rw [updatePeriod, if_neg h.not_deleted.2, oneDayTime, oneWeekTime]
  constructor
  · intro hle
    constructor
    · intro hp
      rw [if_pos hp] at hle
      omega
    · intro hp
      rw [hp, if_neg (by decide), if_pos rfl] at hle
      omega
    all_goals
      intro hp
      rw [hp, if_neg (by decide), if_neg (by decide)] at hle
    · intro hday
      rw [if_pos hday] at hle
      omega
    · intro hday
      rw [hday, if_neg (by decide), if_pos rfl] at hle
      omega
    · intro hfriday hsaturday
      rw [if_neg hfriday, if_neg hsaturday] at hle
      omega
  · intro hbehind
    rcases h.2 with hp | hp | hp
    · have hday := hbehind.day hp
      rw [if_pos hp]
      omega
    · have hweek := hbehind.week hp
      rw [hp, if_neg (by decide), if_pos rfl]
      omega
    · have hfriday := hbehind.friday hp
      have hsaturday := hbehind.saturday hp
      have hother := hbehind.otherDay hp
      rw [hp, if_neg (by decide), if_neg (by decide)]
      split_ifs with h5 h6
      · have hle := hfriday h5
        omega
      · have hle := hsaturday h6
        omega
      · have hle := hother h5 h6
        omega

/-- An update makes no alarm recurring, and ends no recurring one. -/
theorem recurs_updateClockAlarm (a : ClockAlarmCtx) :
    (updateClockAlarm gmtime a).Recurs ↔ a.Recurs := by
  by_cases hdeleted : a.period = clockAlarmPeriodDisable ∨ a.period = clockAlarmOnce
  · rw [updateClockAlarm, if_pos hdeleted]
    refine iff_of_false (fun h => Bool.false_ne_true h.1) fun h => ?_
    exact hdeleted.elim h.not_deleted.1 h.not_deleted.2
  · rw [updateClockAlarm, if_neg hdeleted]
    rfl

variable {now : ℤ}

/-- One pass of updates over those that are overdue, and maybe those that are due now. -/
theorem noneOverdue_map (table : List ClockAlarmCtx) {p : ClockAlarmCtx → Prop} [DecidablePred p]
    (hreached : ∀ a, a.time ≠ 0 → a.time < now → p a)
    (hdue : ∀ a, p a → a.time ≠ 0 ∧ a.time ≤ now) :
    NoneOverdue (table.map fun a => if p a then updateClockAlarm gmtime a else a) now ↔
      UpdatesSuffice gmtime table now True := by
  simp only [NoneOverdue, List.forall_mem_map]
  refine forall₂_congr fun a _ => ?_
  by_cases hp : p a
  · rw [if_pos hp, recurs_updateClockAlarm]
    refine imp_congr_right fun hr => ?_
    rw [updateClockAlarm_moves gmtime hr.not_deleted.1 hr.not_deleted.2]
    constructor
    · exact fun hle _ => ⟨trivial, (hdue a hp).1, (hr.le_updatePeriod_iff gmtime now).mp hle⟩
    · intro hsuffice
      rcases (hdue a hp).2.lt_or_eq with hlt | heq
      · exact (hr.le_updatePeriod_iff gmtime now).mpr (hsuffice hlt).2.2
      · have hmoved := lt_updatePeriod gmtime hr.not_deleted.2 a.time
        exact heq ▸ hmoved.le
  · rw [if_neg hp]
    refine imp_congr_right fun _ => ⟨fun hle hlt => absurd hlt (not_lt.mpr hle), fun h => ?_⟩
    by_contra hlt
    have hlt := not_le.mp hlt
    exact hp (hreached a (h hlt).2.1 hlt)

/-- Without updates no recurring alarm may be overdue before. -/
theorem noneOverdue_iff_false (table : List ClockAlarmCtx) :
    NoneOverdue table now ↔ UpdatesSuffice gmtime table now False := by
  refine forall₂_congr fun a _ => imp_congr_right fun _ => ?_
  rw [false_and, ← not_lt]

/-- After either function no recurring alarm is overdue exactly if each one that was is reached by
the updates, and is behind by no more than a period. -/
theorem noneOverdue_iff (table : List ClockAlarmCtx) (now : ℤ) (id : ℕ) (enable schedule : Bool) :
    (NoneOverdue (clockAlarmEnable gmtime table now id enable) now ↔
        UpdatesSuffice gmtime (if ∀ a ∈ table, a.id ≠ id then table else setEnable id enable table)
          now (∃ a ∈ table, a.id = id)) ∧
      (NoneOverdue (clockAlarmHandle gmtime schedule table now) now ↔
        UpdatesSuffice gmtime table now (HandleUpdates schedule table now)) := by
  constructor
  · rw [clockAlarmEnable]
    by_cases hfound : ∀ a ∈ table, a.id ≠ id
    · have hno : ¬∃ a ∈ table, a.id = id := fun ⟨a, ha, hid⟩ => hfound a ha hid
      rw [if_pos hfound, if_pos hfound, eq_false hno]
      exact noneOverdue_iff_false gmtime table
    · have hyes : ∃ a ∈ table, a.id = id := by simpa using hfound
      rw [if_neg hfound, if_neg hfound, eq_true hyes]
      exact noneOverdue_map gmtime _ (fun a hne hlt => ⟨hne, hlt.le⟩) fun a hp => hp
  · rw [clockAlarmHandle]
    by_cases hupdates : HandleUpdates schedule table now
    · rw [if_pos hupdates, eq_true hupdates]
      exact noneOverdue_map gmtime _ (fun a hne hlt => ⟨hne, hlt⟩) fun a hp => ⟨hp.1, hp.2.le⟩
    · rw [if_neg hupdates, eq_false hupdates]
      exact noneOverdue_iff_false gmtime table

end Code

/-- A daily alarm. -/
def dailyAlarm (id : ℕ) (time : ℤ) : ClockAlarmCtx := ⟨id, time, true, clockAlarmPeriodDay⟩

/-- A daily alarm, two days after it was due. -/
theorem daily_alarm_overdue :
    clockAlarmEnable gmtime [dailyAlarm 1 1000000] 1172801 1 true = [dailyAlarm 1 1086400] ∧
      clockAlarmHandle gmtime false [dailyAlarm 1 1000000] 1172801 = [dailyAlarm 1 1086400] ∧
      ¬NoneOverdue [dailyAlarm 1 1086400] 1172801 :=
  ⟨by decide +kernel, by decide +kernel, fun h =>
    absurd (h _ List.mem_cons_self ⟨rfl, .inl rfl⟩) (by decide)⟩

section Callback

variable (gmtime : ℤ → Tm)

/-- One or two updates of an enabled alarm change it. -/
theorem updateClockAlarm_ne {a : ClockAlarmCtx} (h : a.enable = true) :
    updateClockAlarm gmtime a ≠ a ∧ updateClockAlarm gmtime (updateClockAlarm gmtime a) ≠ a := by
  by_cases hdeleted : a.period = clockAlarmPeriodDisable ∨ a.period = clockAlarmOnce
  · have hgone : default ≠ a := fun heq => by
      rw [← heq] at h
      exact Bool.false_ne_true h
    have hagain : updateClockAlarm gmtime default = default := if_pos (.inl rfl)
    rw [updateClockAlarm, if_pos hdeleted, hagain]
    exact ⟨hgone, hgone⟩
  · obtain ⟨hdisable, honce⟩ := not_or.mp hdeleted
    have hfirst := lt_updatePeriod gmtime honce a.time
    have hsecond := lt_updatePeriod gmtime honce (updatePeriod gmtime a.period a.time)
    rw [updateClockAlarm_moves gmtime hdisable honce]
    refine ⟨fun heq => hfirst.ne' (congrArg ClockAlarmCtx.time heq), fun heq => ?_⟩
    rw [updateClockAlarm, if_neg hdeleted] at heq
    exact (hfirst.trans hsecond).ne' (congrArg ClockAlarmCtx.time heq)

/-- The callback changes an enabled alarm exactly if it is overdue, or if the timer was started for
it and the alarm is due. -/
theorem clockTimerCallback_changes_iff (cb : Bool) {table : List ClockAlarmCtx} (now : ℤ)
    (idx : ℕ) {i : ℕ} {a : ClockAlarmCtx} (ha : table[i]? = some a) (henable : a.enable = true) :
    (clockTimerCallback gmtime cb table now idx).1[i]? ≠ some a ↔
      a.time < now ∨ i = idx ∧ (int32 (now-(table.getD idx default).time)).natAbs < 3 := by
  have hne := updateClockAlarm_ne gmtime henable
  have hstarted : (if (updateClockAlarm gmtime a).time < now then
      updateClockAlarm gmtime (updateClockAlarm gmtime a) else updateClockAlarm gmtime a) ≠ a := by
    split_ifs
    · exact hne.2
    · exact hne.1
  have hplain : (if a.time < now then updateClockAlarm gmtime a else a) ≠ a ↔ a.time < now := by
    by_cases hlt : a.time < now
    · rw [if_pos hlt]
      exact iff_of_true hne.1 hlt
    · rw [if_neg hlt]
      exact iff_of_false (fun h => h rfl) hlt
  rw [clockTimerCallback]
  dsimp only
  rw [List.getElem?_map]
  by_cases hdue : (int32 (now-(table.getD idx default).time)).natAbs < 3
  · have hget : (table.modify idx (updateClockAlarm gmtime))[i]? =
        some (if idx = i then updateClockAlarm gmtime a else a) := by
      rw [List.getElem?_modify, ha]
      rfl
    rw [if_pos hdue, hget, Option.map_some, Ne, Option.some.injEq]
    by_cases hi : i = idx
    · rw [if_pos hi.symm]
      exact iff_of_true hstarted (.inr ⟨hi, hdue⟩)
    · have hother : ¬idx = i := fun h => hi h.symm
      rw [if_neg hother, or_iff_left fun h => hi h.1]
      exact hplain
  · rw [if_neg hdue, ha, or_iff_left fun h => hdue h.2, ← hplain, Option.map_some, Ne,
      Option.some.injEq]

/-- Every due alarm that a run of the timer callback changes is reported exactly if each one that
is overdue, or that the timer was started for, is the one whose id is reported. -/
theorem clockTimerCallback_reports_iff (cb : Bool) (table : List ClockAlarmCtx) (now : ℤ)
    (idx : ℕ) :
    (∀ (i : ℕ) (a : ClockAlarmCtx), table[i]? = some a → a.enable = true →
        (now-a.time).natAbs < 3 → (clockTimerCallback gmtime cb table now idx).1[i]? ≠ some a →
        a.id ∈ (clockTimerCallback gmtime cb table now idx).2) ↔
      ∀ (i : ℕ) (a : ClockAlarmCtx), table[i]? = some a → a.enable = true →
        (now-a.time).natAbs < 3 → a.time < now ∨ i = idx →
        cb = true ∧ a.id = idx+1 ∧ (int32 (now-(table.getD idx default).time)).natAbs < 3 := by
  refine forall₄_congr fun i a ha henable => forall_congr' fun hdue => ?_
  have hstarted : i = idx → (int32 (now-(table.getD idx default).time)).natAbs < 3 := by
    rintro rfl
    have hsame : int32 (now-a.time) = now-a.time := by
      rw [int32, Int.bmod_eq_of_le] <;> omega
    rw [List.getD_eq_getElem?_getD, ha, Option.getD_some, hsame]
    exact hdue
  rw [clockTimerCallback_changes_iff gmtime cb now idx ha henable,
    and_iff_left_of_imp hstarted]
  refine imp_congr_right fun _ => ?_
  rw [clockTimerCallback]
  dsimp only
  by_cases hreport : (int32 (now-(table.getD idx default).time)).natAbs < 3 ∧ cb = true
  · rw [if_pos hreport, List.mem_singleton]
    exact ⟨fun hid => ⟨hreport.2, hid, hreport.1⟩, fun h => h.2.1⟩
  · rw [if_neg hreport]
    exact iff_of_false List.not_mem_nil fun h => hreport ⟨h.2.2, h.1⟩

end Callback

/-- Two alarms are one second apart, and the callback for the second one moves both. -/
theorem clockTimerCallback_skips :
    clockTimerCallback gmtime true [dailyAlarm 1 1000000, dailyAlarm 2 1000001] 1000001 1 =
      ([dailyAlarm 1 1086400, dailyAlarm 2 1086401], [2]) := by
  decide +kernel

end PineVoice.ClockAlarm
