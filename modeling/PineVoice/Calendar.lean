import Mathlib.Data.Int.Notation

/-!
# Days and dates

The dates of the Gregorian calendar and the number of days since 1 January 1970, for all days
before and after. A year begins on 1 March here, so that a leap day is its last one: the days
are counted in eras of 400 years, centuries, leap cycles of four years, years and months.
-/

namespace PineVoice.Calendar

/-- A date. The months are counted from zero. -/
structure Date where
  /-- The day of the month. -/
  mday : ℤ
  /-- The month. -/
  mon : ℤ
  /-- The year. -/
  year : ℤ
deriving DecidableEq

/-- The first day of an era that begins on 1 March of the year zero. -/
def epoch : ℤ := 719468

/-- The century of a day of an era. -/
def century (doe : ℤ) : ℤ := min (doe/36524) 3

/-- The leap cycle of a day of a century. -/
def cycle (doc : ℤ) : ℤ := doc/1461

/-- The year of a day of a leap cycle. -/
def cycleYear (day : ℤ) : ℤ := min (day/365) 3

/-- The year of a day of an era. -/
def eraYear (doe : ℤ) : ℤ :=
  let doc := doe-36524*century doe
  100*century doe+4*cycle doc+cycleYear (doc%1461)

/-- The first day of a year of an era. -/
def yearStart (yoe : ℤ) : ℤ := 365*yoe+yoe/4-yoe/100

/-- The first day of a month of a year that begins in March. -/
def monthStart (month : ℤ) : ℤ := (153*month+2)/5

/-- The date of a day. -/
def dateOfDay (day : ℤ) : Date :=
  let doe := (day+epoch)%146097
  let doy := doe-yearStart (eraYear doe)
  let month := (5*doy+2)/153
  { mday := doy-monthStart month+1
    mon := if month < 10 then month+2 else month-10
    year := (day+epoch)/146097*400+eraYear doe+(if month < 10 then 0 else 1) }

/-- The day of a date. -/
def dayOfDate (date : Date) : ℤ :=
  let year := if date.mon < 2 then date.year-1 else date.year
  let month := if date.mon < 2 then date.mon+10 else date.mon-2
  year/400*146097+yearStart (year%400)+monthStart month+date.mday-1-epoch

/-- An era has 400 years. -/
theorem eraYear_bounds {doe : ℤ} (hpos : 0 ≤ doe) (hlt : doe < 146097) :
    0 ≤ eraYear doe ∧ eraYear doe < 400 := by
  simp only [eraYear, century, cycle, cycleYear]
  omega

/-- A year has at most 366 days. -/
theorem dayOfYear_bounds {doe : ℤ} (hpos : 0 ≤ doe) (hlt : doe < 146097) :
    0 ≤ doe-yearStart (eraYear doe) ∧ doe-yearStart (eraYear doe) < 366 := by
  have hdoc : 0 ≤ doe-36524*century doe ∧ doe-36524*century doe ≤ 36524 := by
    rw [century]
    omega
  generalize hc : century doe = c at hdoc
  generalize hd : doe-36524*c = doc at hdoc
  have hyear : 0 ≤ cycleYear (doc%1461) ∧ cycleYear (doc%1461) ≤ 3 ∧
      0 ≤ doc%1461-365*cycleYear (doc%1461) ∧ doc%1461-365*cycleYear (doc%1461) < 366 := by
    rw [cycleYear]
    omega
  have hparts : doc = 1461*cycle doc+doc%1461 := by
    rw [cycle]
    omega
  rw [yearStart, eraYear]
  simp only [hc, hd]
  generalize hr : doc%1461 = r at hyear hparts ⊢
  generalize cycle doc = q at hparts ⊢
  generalize cycleYear r = y at hyear ⊢
  have hhundred : (100*c+4*q+y)/100 = c := by omega
  omega

/-- The year and the month of a date from those of its day. -/
theorem dayOfDate_month {era yoe month : ℤ} (hyear : 0 ≤ yoe ∧ yoe < 400)
    (hmonth : 0 ≤ month ∧ month < 12) (mday : ℤ) :
    dayOfDate
        { mday := mday
          mon := if month < 10 then month+2 else month-10
          year := era*400+yoe+(if month < 10 then 0 else 1) } =
      era*146097+yearStart yoe+monthStart month+mday-1-epoch := by
  have hmod : (era*400+yoe)%400 = yoe := by omega
  have hdiv : (era*400+yoe)/400 = era := by omega
  by_cases hten : month < 10
  · have hmon : ¬month+2 < 2 := by omega
    have hback : month+2-2 = month := by omega
    simp only [dayOfDate, if_pos hten, if_neg hmon, Int.add_zero, hmod, hdiv, hback]
  · have hyears : era*400+yoe+1-1 = era*400+yoe := by omega
    have hmon : month-10 < 2 := by omega
    have hback : month-10+10 = month := by omega
    simp only [dayOfDate, if_neg hten, if_pos hmon, hyears, hmod, hdiv, hback]

/-- The day of a date is recovered. -/
theorem dayOfDate_dateOfDay (day : ℤ) : dayOfDate (dateOfDay day) = day := by
  have hpos : 0 ≤ (day+epoch)%146097 := Int.emod_nonneg _ (by decide)
  have hlt : (day+epoch)%146097 < 146097 := Int.emod_lt_of_pos _ (by decide)
  have hyear := eraYear_bounds hpos hlt
  have hdoy := dayOfYear_bounds hpos hlt
  have hmonth : 0 ≤ (5*((day+epoch)%146097-yearStart (eraYear ((day+epoch)%146097)))+2)/153 ∧
      (5*((day+epoch)%146097-yearStart (eraYear ((day+epoch)%146097)))+2)/153 < 12 := by
    omega
  rw [dateOfDay, dayOfDate_month hyear hmonth]
  omega

example : dateOfDay 0 = ⟨1, 0, 1970⟩ ∧ dateOfDay 19782 = ⟨29, 1, 2024⟩ := by decide

end PineVoice.Calendar
