import Piecework.Time.Calendar

/-!
# Instants

A point in time in UTC, to the nanosecond, and its RFC 3339 text.  A leap second
shares the number of the second before it and has a fraction of one second or
more.  Texts of equal precision within the years 0 to 9999 have equal width, so
their order is the order in time.
-/

namespace Piecework.Time

/-- Seconds since the start of 1970, and nanoseconds on top of them. -/
structure Instant where
  seconds : Int
  nanos : Nat
deriving DecidableEq, Repr, Inhabited

/-- A time of day; `second` is 60 in a leap second. -/
structure Clock where
  hour : Nat
  minute : Nat
  second : Nat
  nano : Nat
deriving DecidableEq, Repr

/-- How many digits of the fraction are written. -/
inductive Precision where
  /-- Exactly six digits. -/
  | micros
  /-- None, three, six or nine digits, as few as keep the value. -/
  | asNeeded
deriving DecidableEq, Repr

/-- A number in decimal, padded with zeros on the left. -/
def padded (width n : Nat) : List Char :=
  let digits := Nat.toDigits 10 n
  List.replicate (width - digits.length) '0' ++ digits

/-- The text of a year: four digits, and a sign outside of 0 to 9999. -/
def yearChars (year : Int) : List Char :=
  if 0 ≤ year ∧ year ≤ 9999 then padded 4 year.toNat
  else (if 0 ≤ year then '+' else '-') :: padded 4 year.natAbs

/-- The text of a fraction of a second. -/
def fractionChars (precision : Precision) (nano : Nat) : List Char :=
  match precision with
  | .micros => '.' :: padded 6 (nano / 1000)
  | .asNeeded =>
    if nano = 0 then []
    else if nano % 1000000 = 0 then '.' :: padded 3 (nano / 1000000)
    else if nano % 1000 = 0 then '.' :: padded 6 (nano / 1000)
    else '.' :: padded 9 nano

namespace Instant

/-- The earliest instant.  A stored text that is no time reads as this one. -/
def earliest : Instant := ⟨firstDate.toDays * 86400, 0⟩

/-- The instant of a date and a time of day. -/
def ofCivil (date : Date) (clock : Clock) : Instant :=
  let leap := clock.second = 60
  let second := if leap then 59 else clock.second
  ⟨date.toDays * 86400 + (clock.hour * 3600 + clock.minute * 60 + second : Nat),
    if leap then clock.nano + 1000000000 else clock.nano⟩

/-- The date of an instant. -/
def date (t : Instant) : Date := Date.ofDays (t.seconds / 86400)

/-- The time of day of an instant. -/
def clock (t : Instant) : Clock :=
  let second := (t.seconds % 86400).toNat
  let leap := 1000000000 ≤ t.nanos
  ⟨second / 3600, second / 60 % 60, second % 60 + (if leap then 1 else 0),
    if leap then t.nanos - 1000000000 else t.nanos⟩

/-- The instant a number of seconds later. -/
def addSeconds (t : Instant) (n : Int) : Instant := ⟨t.seconds + n, t.nanos⟩

/-- The instant a microsecond later. -/
def tick (t : Instant) : Instant :=
  if t.nanos + 1000 < 1000000000 then ⟨t.seconds, t.nanos + 1000⟩
  else ⟨t.seconds + 1, t.nanos + 1000 - 1000000000⟩

/-- Whether the day lies in the range of instants. -/
def inRange (t : Instant) : Bool :=
  firstDate.toDays ≤ t.seconds / 86400 && t.seconds / 86400 ≤ lastDate.toDays

/-- The RFC 3339 text of an instant, in UTC. -/
def chars (precision : Precision) (t : Instant) : List Char :=
  let d := t.date
  let c := t.clock
  yearChars d.year ++ '-' :: padded 2 d.month ++ '-' :: padded 2 d.day ++
    'T' :: padded 2 c.hour ++ ':' :: padded 2 c.minute ++ ':' :: padded 2 c.second ++
    fractionChars precision c.nano ++ ['Z']

/-- The text that rows are stamped with: six digits of the fraction, so that all
stamps have the same width. -/
def stamp (t : Instant) : String := String.ofList (t.chars .micros)

/-- The text of an instant with as few digits of the fraction as keep it. -/
def text (t : Instant) : String := String.ofList (t.chars .asNeeded)

end Instant

end Piecework.Time
