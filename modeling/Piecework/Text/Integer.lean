import Piecework.Text.Blank

/-!
# Integers in text

Whole numbers as people write them into a setting or a path: an optional sign
and at least one ASCII digit, nothing else.  A reader is given the range it
accepts; a number outside of it is refused like a malformed one.
-/

namespace Piecework.Text

/-- The value of an ASCII digit. -/
def digit? (c : Char) : Option Nat :=
  if '0' ≤ c ∧ c ≤ '9' then some (c.toNat - '0'.toNat) else none

/-- Appends decimal digits to a number that was read so far. -/
def digitsFrom? (value : Nat) : List Char → Option Nat
  | [] => some value
  | c :: rest =>
    match digit? c with
    | some d => digitsFrom? (10 * value + d) rest
    | none => none

/-- A non-empty run of ASCII digits. -/
def digits? : List Char → Option Nat
  | [] => none
  | cs => digitsFrom? 0 cs

/-- A natural number below `bound`, with an optional `+`. -/
def natural? (bound : Nat) (cs : List Char) : Option Nat :=
  let value? := match cs with
    | '+' :: rest => digits? rest
    | _ => digits? cs
  value?.filter (· < bound)

/-- An integer of `lo ≤ n ≤ hi`, with an optional sign. -/
def integer? (lo hi : Int) (cs : List Char) : Option Int :=
  let value? : Option Int := match cs with
    | '+' :: rest => (digits? rest).map Int.ofNat
    | '-' :: rest => (digits? rest).map fun n => -Int.ofNat n
    | _ => (digits? cs).map Int.ofNat
  value?.filter fun n => lo ≤ n ∧ n ≤ hi

/-- The smallest identifier a row can have. -/
def minId : Int := -9223372036854775808

/-- The largest identifier a row can have. -/
def maxId : Int := 9223372036854775807

/-- Identifiers are signed 64-bit integers. -/
def identifier? (s : String) : Option Int :=
  integer? minId maxId s.toList

end Piecework.Text
