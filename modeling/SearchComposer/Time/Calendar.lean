/-!
# The calendar

Dates of the Gregorian calendar, extended to all years before and after its introduction, and their
numbers: the days since 1970-01-01. Days are counted in years that start with March, so that the
leap day is the last day of its year.
-/

namespace SearchComposer.Time

/-- A date. -/
structure Date where
  /-- The year; the year before year 1 is year 0. -/
  year : Int
  /-- The month, from 1. -/
  month : Nat
  /-- The day of the month, from 1. -/
  day : Nat
  deriving DecidableEq, Repr

namespace Date

/-- Whether a year has a leap day. -/
def isLeapYear (year : Int) : Bool :=
  year % 4 == 0 && (year % 100 != 0 || year % 400 == 0)

/-- The number of days of a month. -/
def daysInMonth (year : Int) (month : Nat) : Nat :=
  if month = 2 then (if isLeapYear year then 29 else 28)
  else if month = 4 ∨ month = 6 ∨ month = 9 ∨ month = 11 then 30
  else 31

/-- The earliest year that dates are kept for. -/
def firstYear : Int := -262143

/-- The latest year that dates are kept for. -/
def lastYear : Int := 262142

/-- Whether the calendar has a date, in one of the years that dates are kept for. -/
def Exists (d : Date) : Prop :=
  firstYear ≤ d.year ∧ d.year ≤ lastYear ∧ 1 ≤ d.month ∧ d.month ≤ 12 ∧ 1 ≤ d.day ∧
    d.day ≤ daysInMonth d.year d.month

instance (d : Date) : Decidable d.Exists := by
  unfold Exists
  infer_instance

/-- The number of 0000-03-01, counted from 1970-01-01 backwards. -/
def marchEpoch : Int := 719468

/-- The days from 0000-03-01 to the first of March of a year. -/
def daysBeforeMarch (year : Int) : Int :=
  365 * year + year / 4 - year / 100 + year / 400

/-- The days from the first of March to the first of the month that is `k` months later. -/
def daysBeforeMonth (k : Int) : Int :=
  (153 * k + 2) / 5

/-- The number of a date. -/
def number (d : Date) : Int :=
  let beforeMarch := d.month ≤ 2
  let year := if beforeMarch then d.year - 1 else d.year
  let month : Int := if beforeMarch then d.month + 9 else (d.month : Int) - 3
  daysBeforeMarch year + daysBeforeMonth month + ((d.day : Int) - 1) - marchEpoch

/-- The date with a number. -/
def ofNumber (n : Int) : Date :=
  let fromMarch := n + marchEpoch
  let era := fromMarch / 146097
  let dayOfEra := fromMarch % 146097
  let yearOfEra := (dayOfEra - dayOfEra / 1460 + dayOfEra / 36524 - dayOfEra / 146096) / 365
  let dayOfYear := dayOfEra - daysBeforeMarch yearOfEra
  let month := (5 * dayOfYear + 2) / 153
  let day := dayOfYear - daysBeforeMonth month + 1
  let year := 400 * era + yearOfEra
  if month < 10 then ⟨year, (month + 3).toNat, day.toNat⟩
  else ⟨year + 1, (month - 9).toNat, day.toNat⟩

/-- The days since the last Sunday, of the day with a number. -/
def daysSinceSunday (n : Int) : Int :=
  (n + 4) % 7

/-- The number of the last Sunday of a month of 31 days. -/
def lastSunday (year : Int) (month : Nat) : Int :=
  let last := number ⟨year, month, 31⟩
  last - daysSinceSunday last

end Date

end SearchComposer.Time
