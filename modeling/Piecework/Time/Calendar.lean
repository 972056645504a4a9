/-!
# The calendar

The proleptic Gregorian calendar: dates of year, month and day, and the number of
days since 1 January 1970.  Years may be zero or negative.
-/

namespace Piecework.Time

/-- A day of the calendar. -/
structure Date where
  year : Int
  month : Nat
  day : Nat
deriving DecidableEq, Repr

/-- Every fourth year is a leap year, except full centuries that are not divisible
by four hundred. -/
def isLeap (year : Int) : Bool :=
  year % 4 == 0 && (year % 100 != 0 || year % 400 == 0)

/-- The days of a common year before the first of each month. -/
def commonDaysBefore : Nat → Nat
  | 1 => 0
  | 2 => 31
  | 3 => 59
  | 4 => 90
  | 5 => 120
  | 6 => 151
  | 7 => 181
  | 8 => 212
  | 9 => 243
  | 10 => 273
  | 11 => 304
  | 12 => 334
  | _ => 365

/-- The days of a year before the first of a month. -/
def daysBeforeMonth (leap : Bool) (month : Nat) : Nat :=
  commonDaysBefore month + if leap && 2 < month then 1 else 0

/-- The number of days in a month. -/
def monthLength (leap : Bool) (month : Nat) : Nat :=
  daysBeforeMonth leap (month + 1) - daysBeforeMonth leap month

/-- The days from 1 January of year zero to 1 January of a year. -/
def daysBeforeYear (year : Int) : Int :=
  365 * year + (year + 3) / 4 - (year + 99) / 100 + (year + 399) / 400

/-- The day number of 1 January 1970, counted from 1 January of year zero. -/
def epochDay : Int := 719528

namespace Date

/-- Whether the month and the day exist in the year. -/
def isValid (d : Date) : Bool :=
  1 ≤ d.month && d.month ≤ 12 && 1 ≤ d.day && d.day ≤ monthLength (isLeap d.year) d.month

/-- The days since 1 January 1970. -/
def toDays (d : Date) : Int :=
  daysBeforeYear d.year + daysBeforeMonth (isLeap d.year) d.month + d.day - 1 - epochDay

end Date

/-- The year of a day that is counted from 1 January of year zero.  The mean year
is off by at most one. -/
def yearOfDay (n : Int) : Int :=
  let guess := n * 400 / 146097
  if n < daysBeforeYear guess then guess - 1
  else if daysBeforeYear (guess + 1) ≤ n then guess + 1
  else guess

/-- The month of a day of the year, counted from zero: the last month that starts
on or before it. -/
def monthOfDay (leap : Bool) (n : Nat) : Nat :=
  let starts (m : Nat) : Bool := daysBeforeMonth leap m ≤ n
  if starts 7 then
    if starts 10 then (if starts 12 then 12 else if starts 11 then 11 else 10)
    else (if starts 9 then 9 else if starts 8 then 8 else 7)
  else
    if starts 4 then (if starts 6 then 6 else if starts 5 then 5 else 4)
    else (if starts 3 then 3 else if starts 2 then 2 else 1)

/-- The date of a day that is counted from 1 January 1970. -/
def Date.ofDays (days : Int) : Date :=
  let n := days + epochDay
  let year := yearOfDay n
  let leap := isLeap year
  let dayOfYear := (n - daysBeforeYear year).toNat
  let month := monthOfDay leap dayOfYear
  ⟨year, month, dayOfYear - daysBeforeMonth leap month + 1⟩

/-- The earliest day that an instant can have. -/
def firstDate : Date := ⟨-262143, 1, 1⟩

/-- The latest day that an instant can have. -/
def lastDate : Date := ⟨262142, 12, 31⟩

end Piecework.Time
