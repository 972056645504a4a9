import Piecework.Text.Integer
import Piecework.Time.Instant

/-!
# Reading times

Three forms of text are read.  `rfc3339?` takes the standard form with every field
at its full width.  `relaxed?` also takes short fields, blanks between the parts,
signed years and offsets without a colon.  `spaced?` takes a date and a time of
day apart by white space and without an offset, which stands for UTC.  In all of
them a leap second may end any minute.

A stored stamp is the first form, or the last one as a fallback; a text that is
neither reads as the earliest instant.
-/

namespace Piecework.Time

/-- The parts of a time in text, before any of them is checked. -/
structure Parts where
  year : Int
  month : Nat
  day : Nat
  hour : Nat
  minute : Nat
  second : Nat
  nano : Nat
  /-- Seconds east of UTC. -/
  offset : Int
deriving DecidableEq, Repr

/-- The instant of the parts, if each lies in its range and the date exists. -/
def Parts.instant? (p : Parts) : Option Instant :=
  let date : Date := ⟨p.year, p.month, p.day⟩
  if date.isValid ∧ p.hour ≤ 23 ∧ p.minute ≤ 59 ∧ p.second ≤ 60 ∧ p.offset.natAbs < 86400 ∧
      firstDate.year ≤ p.year ∧ p.year ≤ lastDate.year then
    let t := (Instant.ofCivil date ⟨p.hour, p.minute, p.second, p.nano⟩).addSeconds (-p.offset)
    if t.inRange then some t else none
  else
    none

namespace Scan

/-- What a scanner finds at the front of a text, and the rest of the text. -/
abbrev Scanner (α : Type) := List Char → Option (α × List Char)

/-- At least `least` and at most `most` digits. -/
def number (least most : Nat) : Scanner Nat := fun cs =>
  let run := (cs.take most).takeWhile Char.isDigit
  if run.length < least then none
  else (Text.digits? run).map fun n => (n, cs.drop run.length)

/-- One given character. -/
def literal (c : Char) : Scanner Unit
  | [] => none
  | x :: rest => if x = c then some ((), rest) else none

/-- A number of at most two digits, with blanks allowed in front of it. -/
def short : Scanner Nat := fun cs => number 1 2 (Text.trimFront cs)

/-- A given character, with blanks allowed in front of it. -/
def spacedLiteral (c : Char) : Scanner Unit := fun cs => literal c (Text.trimFront cs)

/-- A year: up to four digits, or a sign and any number of them. -/
def year : Scanner Int := fun cs =>
  match Text.trimFront cs with
  | '-' :: rest => (number 1 rest.length rest).map fun (n, tail) => (-(n : Int), tail)
  | '+' :: rest => (number 1 rest.length rest).map fun (n, tail) => ((n : Int), tail)
  | cs => (number 1 4 cs).map fun (n, tail) => ((n : Int), tail)

/-- A fraction of a second in nanoseconds.  Digits behind the ninth are dropped;
without a point the fraction is zero. -/
def fraction : Scanner Nat
  | '.' :: rest => do
    let (n, tail) ← number 1 9 rest
    let read := rest.length - tail.length
    some (n * Nat.pow 10 (9 - read), tail.dropWhile Char.isDigit)
  | cs => some (0, cs)

/-- The separator of date and time. -/
def separator : Scanner Unit
  | 'T' :: rest => some ((), rest)
  | 't' :: rest => some ((), rest)
  | ' ' :: rest => some ((), rest)
  | _ => none

/-- The sign of an offset, as a factor.  The mathematical minus sign counts. -/
def offsetSign : Scanner Int
  | '+' :: rest => some (1, rest)
  | '-' :: rest => some (-1, rest)
  | '\u2212' :: rest => some (-1, rest)
  | _ => none

/-- The seconds of an offset.  `colon` reads what stands between hours and minutes. -/
def offset (colon : Scanner Unit) : Scanner Int
  | 'Z' :: rest => some (0, rest)
  | 'z' :: rest => some (0, rest)
  | cs => do
    let (sign, cs) ← offsetSign cs
    let (hours, cs) ← number 2 2 cs
    let ((), cs) ← colon cs
    let (minutes, cs) ← number 2 2 cs
    if 60 ≤ minutes then none
    else some (sign * (hours * 3600 + minutes * 60 : Nat), cs)

/-- Any run of colons and blanks, also an empty one. -/
def colonOrBlanks : Scanner Unit := fun cs =>
  some ((), cs.dropWhile fun c => c == ':' || Text.isBlank c)

/-- An offset in the relaxed form: `UTC` counts, and so does a missing colon. -/
def relaxedOffset : Scanner Int := fun cs =>
  match cs with
  | u :: t :: c :: rest =>
    if [u, t, c].map Char.toUpper = ['U', 'T', 'C'] then some (0, rest)
    else offset colonOrBlanks cs
  | _ => offset colonOrBlanks cs

end Scan

open Scan

/-- A time in RFC 3339, every field at its full width. -/
def rfc3339? (cs : List Char) : Option Instant := do
  let (year, cs) ← number 4 4 cs
  let ((), cs) ← literal '-' cs
  let (month, cs) ← number 2 2 cs
  let ((), cs) ← literal '-' cs
  let (day, cs) ← number 2 2 cs
  let ((), cs) ← separator cs
  let (hour, cs) ← number 2 2 cs
  let ((), cs) ← literal ':' cs
  let (minute, cs) ← number 2 2 cs
  let ((), cs) ← literal ':' cs
  let (second, cs) ← number 2 2 cs
  let (nano, cs) ← fraction cs
  let (offset, cs) ← offset (literal ':') cs
  if cs.isEmpty then Parts.instant? ⟨year, month, day, hour, minute, second, nano, offset⟩
  else none

/-- A time in a relaxed form of RFC 3339. -/
def relaxed? (cs : List Char) : Option Instant := do
  let (year, cs) ← Scan.year cs
  let ((), cs) ← spacedLiteral '-' cs
  let (month, cs) ← short cs
  let ((), cs) ← spacedLiteral '-' cs
  let (day, cs) ← short cs
  let ((), cs) ← separator cs
  let (hour, cs) ← short cs
  let ((), cs) ← spacedLiteral ':' cs
  let (minute, cs) ← short cs
  let ((), cs) ← spacedLiteral ':' cs
  let (second, cs) ← short cs
  let (nano, cs) ← fraction cs
  let (offset, cs) ← relaxedOffset (Text.trimFront cs)
  if (Text.trimFront cs).isEmpty then
    Parts.instant? ⟨year, month, day, hour, minute, second, nano, offset⟩
  else none

/-- A date and a time of day in UTC, with any blanks between them. -/
def spaced? (cs : List Char) : Option Instant := do
  let (year, cs) ← Scan.year cs
  let ((), cs) ← literal '-' cs
  let (month, cs) ← short cs
  let ((), cs) ← literal '-' cs
  let (day, cs) ← short cs
  let (hour, cs) ← short cs
  let ((), cs) ← literal ':' cs
  let (minute, cs) ← short cs
  let ((), cs) ← literal ':' cs
  let (second, cs) ← short cs
  if cs.isEmpty then Parts.instant? ⟨year, month, day, hour, minute, second, 0, 0⟩
  else none

/-- The instant of a stored stamp. -/
def ofStamp (s : String) : Instant :=
  ((rfc3339? s.toList).orElse fun _ => spaced? s.toList).getD .earliest

end Piecework.Time
