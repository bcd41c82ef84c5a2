import Mathlib.Order.Bounds.Basic
import PineVoice.Calendar

/-!
# The next time of an alarm

`convert_to_absolute_time` turns the time of day of an alarm and its period into the next
instant at which the alarm is due. The conversions of the C library are assumed to be those of
UTC and inverse to each other; the Gregorian calendar is one that meets the assumption.
-/

namespace PineVoice.ClockAlarm

open Calendar

/-- `ONE_DAY_TIME`. -/
def oneDayTime : ℤ := 24*3600

/-- `ONE_WEEK_TIME`. -/
def oneWeekTime : ℤ := 7*24*3600

/-- `CLOCK_ALARM_ONCE`. -/
def clockAlarmOnce : ℤ := 0

/-- `CLOCK_ALARM_PERIOD_DAY`. -/
def clockAlarmPeriodDay : ℤ := 1

/-- `CLOCK_ALARM_PERIOD_WEEK`. -/
def clockAlarmPeriodWeek : ℤ := 2

/-- `CLOCK_ALARM_PERIOD_WORKDAY`. -/
def clockAlarmPeriodWorkday : ℤ := 3

/-- `CLOCK_ALARM_PERIOD_DISABLE`. -/
def clockAlarmPeriodDisable : ℤ := 4

/-- `clock_alarm_config_t`; `week` is not used. -/
structure ClockAlarmConfig where
  /-- `period`, any number: neither the command line nor the key-value store check it. -/
  period : ℤ
  /-- `hour`. -/
  hour : ℤ
  /-- `min`. -/
  min : ℤ
  /-- `sec`. -/
  sec : ℤ
deriving DecidableEq

/-- `struct tm`, without the fields that are not used. -/
@[ext]
structure Tm where
  /-- `tm_sec`. -/
  sec : ℤ
  /-- `tm_min`. -/
  min : ℤ
  /-- `tm_hour`. -/
  hour : ℤ
  /-- `tm_mday`. -/
  mday : ℤ
  /-- `tm_mon`. -/
  mon : ℤ
  /-- `tm_year`. -/
  year : ℤ
  /-- `tm_wday`. -/
  wday : ℤ
deriving DecidableEq

section Code

variable (gmtime : ℤ → Tm) (mktime : Tm → ℤ)

/-- `update_period`. -/
def updatePeriod (period time : ℤ) : ℤ :=
  if period = clockAlarmOnce then 0
  else if period = clockAlarmPeriodDay then time+oneDayTime
  else if period = clockAlarmPeriodWeek then time+oneWeekTime
  else if (gmtime time).wday = 5 then time+oneDayTime*3
  else if (gmtime time).wday = 6 then time+oneDayTime*2
  else time+oneDayTime

/-- The day for which `convert_to_absolute_time` sets the time of day. -/
def alarmDay (period time : ℤ) : ℤ :=
  if period = clockAlarmPeriodWorkday then
    if (gmtime time).wday = 6 then time+oneDayTime*2
    else if (gmtime time).wday = 0 then time+oneDayTime
    else time
  else time

/-- `convert_to_absolute_time`, with the results of `time` and of `rtc_get_time`. -/
def convertToAbsoluteTime (time rtcGetTime : ℤ) (cfgTime : Option ClockAlarmConfig) : ℤ :=
  match cfgTime with
  | none => 0
  | some cfg =>
    if cfg.hour ≥ 24 ∨ cfg.hour < 0 then 0
    else if cfg.min ≥ 60 ∨ cfg.min < 0 then 0
    else if cfg.sec ≥ 60 ∨ cfg.sec < 0 then 0
    else
      let tmNow := gmtime (alarmDay gmtime cfg.period time)
      let absoluteTime := mktime { tmNow with hour := cfg.hour, min := cfg.min, sec := cfg.sec }
      if absoluteTime ≤ rtcGetTime then
        if cfg.period = clockAlarmOnce then absoluteTime+oneDayTime
        else updatePeriod gmtime cfg.period absoluteTime
      else absoluteTime

/-- The conversions are those of UTC, and inverse to each other. -/
structure InverseUtc : Prop where
  /-- The second. -/
  sec : ∀ t, (gmtime t).sec = t%60
  /-- The minute. -/
  min : ∀ t, (gmtime t).min = t/60%60
  /-- The hour. -/
  hour : ∀ t, (gmtime t).hour = t/3600%24
  /-- The first day was a Thursday. -/
  wday : ∀ t, (gmtime t).wday = (t/oneDayTime+4)%7
  /-- All instants of a day have one date. -/
  date : ∀ t t', t/oneDayTime = t'/oneDayTime → (gmtime t).mday = (gmtime t').mday ∧
    (gmtime t).mon = (gmtime t').mon ∧ (gmtime t).year = (gmtime t').year
  /-- A time is recovered. -/
  mktime_gmtime : ∀ t, mktime (gmtime t) = t

/-- The alarm is due at the time. -/
structure Due (now : ℤ) (cfg : ClockAlarmConfig) (t : ℤ) : Prop where
  /-- The hour. -/
  hour : (gmtime t).hour = cfg.hour
  /-- The minute. -/
  min : (gmtime t).min = cfg.min
  /-- The second. -/
  sec : (gmtime t).sec = cfg.sec
  /-- A workday alarm is due from Monday to Friday. -/
  workday : cfg.period = clockAlarmPeriodWorkday → 1 ≤ (gmtime t).wday ∧ (gmtime t).wday ≤ 5
  /-- A weekly alarm is due on the weekday of the current time. -/
  week : cfg.period = clockAlarmPeriodWeek → (gmtime t).wday = (gmtime now).wday

end Code

/-- A time of day. -/
structure ClockAlarmConfig.InRange (cfg : ClockAlarmConfig) : Prop where
  /-- The hour. -/
  hour : 0 ≤ cfg.hour ∧ cfg.hour < 24
  /-- The minute. -/
  min : 0 ≤ cfg.min ∧ cfg.min < 60
  /-- The second. -/
  sec : 0 ≤ cfg.sec ∧ cfg.sec < 60

/-- The seconds since midnight. -/
def ClockAlarmConfig.ofDay (cfg : ClockAlarmConfig) : ℤ := 3600*cfg.hour+60*cfg.min+cfg.sec

theorem ClockAlarmConfig.InRange.ofDay_bounds {cfg : ClockAlarmConfig} (h : cfg.InRange) :
    0 ≤ cfg.ofDay ∧ cfg.ofDay < oneDayTime := by
  have hhour := h.hour
  have hmin := h.min
  have hsec := h.sec
  rw [ofDay, oneDayTime]
  omega

section Utc

variable {gmtime : ℤ → Tm} {mktime : Tm → ℤ} {cfg : ClockAlarmConfig}

/-- The time of day in seconds. -/
theorem InverseUtc.ofDay_iff (h : InverseUtc gmtime mktime) (hcfg : cfg.InRange) (t : ℤ) :
    (gmtime t).hour = cfg.hour ∧ (gmtime t).min = cfg.min ∧ (gmtime t).sec = cfg.sec ↔
      t%oneDayTime = cfg.ofDay := by
  have hmin := hcfg.min
  have hsec := hcfg.sec
  rw [h.hour, h.min, h.sec, ClockAlarmConfig.ofDay, oneDayTime]
  omega

/-- `mktime` of a day with another time of day. -/
theorem InverseUtc.mktime_ofDay (h : InverseUtc gmtime mktime) (hcfg : cfg.InRange) (t : ℤ) :
    mktime { gmtime t with hour := cfg.hour, min := cfg.min, sec := cfg.sec } =
      t/oneDayTime*oneDayTime+cfg.ofDay := by
  have hbounds := hcfg.ofDay_bounds
  have hday : t/oneDayTime = (t/oneDayTime*oneDayTime+cfg.ofDay)/oneDayTime := by
    rw [oneDayTime] at *
    omega
  have hofDay : (t/oneDayTime*oneDayTime+cfg.ofDay)%oneDayTime = cfg.ofDay := by
    rw [oneDayTime] at *
    omega
  rcases (h.ofDay_iff hcfg _).mpr hofDay with ⟨hhour, hmin, hsec⟩
  rcases h.date _ _ hday with ⟨hmday, hmon, hyear⟩
  have htm : { gmtime t with hour := cfg.hour, min := cfg.min, sec := cfg.sec } =
      gmtime (t/oneDayTime*oneDayTime+cfg.ofDay) := by
    ext
    · exact hsec.symm
    · exact hmin.symm
    · exact hhour.symm
    · exact hmday
    · exact hmon
    · exact hyear
    · rw [h.wday, h.wday, ← hday]
  rw [htm, h.mktime_gmtime]

/-- What is due, by the number of the day. -/
theorem InverseUtc.due_iff (h : InverseUtc gmtime mktime) (hcfg : cfg.InRange) (now t : ℤ) :
    Due gmtime now cfg t ↔ t%oneDayTime = cfg.ofDay ∧
      (cfg.period = clockAlarmPeriodWorkday →
        1 ≤ (t/oneDayTime+4)%7 ∧ (t/oneDayTime+4)%7 ≤ 5) ∧
      (cfg.period = clockAlarmPeriodWeek → (t/oneDayTime+4)%7 = (now/oneDayTime+4)%7) := by
  rw [← h.ofDay_iff hcfg t, ← h.wday, ← h.wday]
  constructor
  · exact fun hdue => ⟨⟨hdue.hour, hdue.min, hdue.sec⟩, hdue.workday, hdue.week⟩
  · exact fun ⟨⟨hhour, hmin, hsec⟩, hworkday, hweek⟩ => ⟨hhour, hmin, hsec, hworkday, hweek⟩

/-- The result for a time of day, from the alarm's time on its first day. -/
theorem InverseUtc.convertToAbsoluteTime_eq (h : InverseUtc gmtime mktime) (hcfg : cfg.InRange)
    (now : ℤ) {first : ℤ}
    (hfirst : first = alarmDay gmtime cfg.period now/oneDayTime*oneDayTime+cfg.ofDay) :
    convertToAbsoluteTime gmtime mktime now now (some cfg) = if first ≤ now then
        if cfg.period = clockAlarmOnce then first+oneDayTime
        else updatePeriod gmtime cfg.period first
      else first := by
  have hhour : ¬(cfg.hour ≥ 24 ∨ cfg.hour < 0) := by
    have := hcfg.hour
    omega
  have hmin : ¬(cfg.min ≥ 60 ∨ cfg.min < 0) := by
    have := hcfg.min
    omega
  have hsec : ¬(cfg.sec ≥ 60 ∨ cfg.sec < 0) := by
    have := hcfg.sec
    omega
  simp only [convertToAbsoluteTime, if_neg hhour, if_neg hmin, if_neg hsec,
    h.mktime_ofDay hcfg, ← hfirst]

/-- For every time and every alarm that is due once, daily, weekly or on workdays the result is
the next instant at which the alarm is due. -/
theorem convertToAbsoluteTime_next (h : InverseUtc gmtime mktime) (hcfg : cfg.InRange)
    (hperiod : cfg.period = clockAlarmOnce ∨ cfg.period = clockAlarmPeriodDay ∨
      cfg.period = clockAlarmPeriodWeek ∨ cfg.period = clockAlarmPeriodWorkday) (now : ℤ) :
    IsLeast { t | now < t ∧ Due gmtime now cfg t }
      (convertToAbsoluteTime gmtime mktime now now (some cfg)) := by
  have hbounds := hcfg.ofDay_bounds
  generalize hfirst : alarmDay gmtime cfg.period now/oneDayTime*oneDayTime+cfg.ofDay = first
  rw [h.convertToAbsoluteTime_eq hcfg now hfirst.symm]
  simp only [alarmDay] at hfirst
  simp only [updatePeriod, IsLeast, Set.mem_ofPred_eq, h.due_iff hcfg, h.wday, oneDayTime,
    oneWeekTime, clockAlarmOnce, clockAlarmPeriodDay, clockAlarmPeriodWeek,
    clockAlarmPeriodWorkday] at *
  constructor
  · split_ifs at hfirst ⊢ <;> omega
  · rintro t ⟨hlt, hdue⟩
    split_ifs at hfirst ⊢ <;> omega

end Utc

/-! ## The Gregorian calendar -/

/-- `gmtime` of the Gregorian calendar. -/
def gmtime (t : ℤ) : Tm where
  sec := t%60
  min := t/60%60
  hour := t/3600%24
  mday := (dateOfDay (t/oneDayTime)).mday
  mon := (dateOfDay (t/oneDayTime)).mon
  year := (dateOfDay (t/oneDayTime)).year-1900
  wday := (t/oneDayTime+4)%7

/-- `mktime` for UTC. -/
def mktime (tm : Tm) : ℤ :=
  dayOfDate ⟨tm.mday, tm.mon, tm.year+1900⟩*oneDayTime+3600*tm.hour+60*tm.min+tm.sec

/-- It meets the assumption. -/
theorem gregorian_inverseUtc : InverseUtc gmtime mktime where
  sec _ := rfl
  min _ := rfl
  hour _ := rfl
  wday _ := rfl
  date t t' hday := by
    simp [gmtime, hday]
  mktime_gmtime t := by
    have hyear : (dateOfDay (t/oneDayTime)).year-1900+1900 = (dateOfDay (t/oneDayTime)).year := by
      omega
    rw [mktime]
    simp only [gmtime, hyear]
    rw [dayOfDate_dateOfDay, oneDayTime]
    omega

/-- Friday, 1 March 2024, at noon. -/
def fridayNoon : ℤ := 1709294400

/-- An alarm at 7:30. -/
def halfPastSeven (period : ℤ) : ClockAlarmConfig := ⟨period, 7, 30, 0⟩

/-- A workday alarm at 7:30 that is set on a Friday at noon is due on Monday. -/
theorem convertToAbsoluteTime_next_friday :
    convertToAbsoluteTime gmtime mktime fridayNoon fridayNoon
        (some (halfPastSeven clockAlarmPeriodWorkday)) = 1709537400 ∧
      IsLeast { t | fridayNoon < t ∧
          Due gmtime fridayNoon (halfPastSeven clockAlarmPeriodWorkday) t }
        (convertToAbsoluteTime gmtime mktime fridayNoon fridayNoon
          (some (halfPastSeven clockAlarmPeriodWorkday))) :=
  ⟨by decide +kernel, convertToAbsoluteTime_next gregorian_inverseUtc
    ⟨by decide, by decide, by decide⟩ (by decide) fridayNoon⟩

/-- A disabled alarm has no condition on the weekday, but is set to Monday instead of the next day;
so is an alarm whose period has no name. -/
theorem convertToAbsoluteTime_disabled :
    [clockAlarmPeriodDisable, 5, -1].map (fun period =>
        convertToAbsoluteTime gmtime mktime fridayNoon fridayNoon (some (halfPastSeven period))) =
      [1709537400, 1709537400, 1709537400] ∧
    Due gmtime fridayNoon (halfPastSeven clockAlarmPeriodDisable) 1709364600 ∧
      ¬IsLeast { t | fridayNoon < t ∧
          Due gmtime fridayNoon (halfPastSeven clockAlarmPeriodDisable) t }
        (convertToAbsoluteTime gmtime mktime fridayNoon fridayNoon
          (some (halfPastSeven clockAlarmPeriodDisable))) := by
  have htomorrow : Due gmtime fridayNoon (halfPastSeven clockAlarmPeriodDisable) 1709364600 :=
    ⟨by decide, by decide, by decide, by decide, by decide⟩
  refine ⟨by decide +kernel, htomorrow, fun hleast => ?_⟩
  have hle := hleast.2 ⟨by decide, htomorrow⟩
  exact absurd hle (by decide +kernel)

end PineVoice.ClockAlarm
