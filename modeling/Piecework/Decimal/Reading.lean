import Piecework.Text.Integer

/-!
# Reading decimals

Two ways from a decimal number to a float.  `nearest` rounds once, ties to even.
`scaled` takes the digits and the power of ten as floats and multiplies or divides
them; each of these steps rounds, so it may end at a neighbour of the nearest float.
Overflow shows as an infinity, which the callers refuse.
-/

namespace Piecework.Decimal

/-- The float nearest to `digits · 10 ^ exponent`. -/
def nearest (digits : Nat) (exponent : Int) : Float :=
  Float.ofScientific digits (exponent < 0) exponent.natAbs

/-- The largest exponent of a power of ten that is finite as a float. -/
def maxPower : Nat := 308

/-- The float nearest to a power of ten. -/
def power (exponent : Nat) : Float := nearest 1 exponent

/-- The float of `digits · 10 ^ exponent` by floating arithmetic: one multiplication or
division by a power of ten, or two divisions when one power is not enough.  Behind
two nothing is left of any number below `2 ^ 64`. -/
def scaled (digits : Nat) (exponent : Int) : Float :=
  let whole := nearest digits 0
  let size := exponent.natAbs
  if digits = 0 then 0
  else if 0 ≤ exponent then
    if size ≤ maxPower then whole * power size else 1 / 0
  else if size ≤ maxPower then whole / power size
  else whole / power maxPower / power (min (size - maxPower) maxPower)

/-- The digits of a literal as one number, with the number of digits behind the
point.  `none` when there is no digit, when a second point follows, or when any
other character occurs. -/
def literalFrom? : Nat → Option Nat → Bool → List Char → Option (Nat × Nat)
  | digits, places, seen, [] => if seen then some (digits, places.getD 0) else none
  | digits, places, seen, c :: rest =>
    if c = '.' then
      match places with
      | none => literalFrom? digits (some 0) seen rest
      | some _ => none
    else
      match Text.digit? c with
      | some d => literalFrom? (10 * digits + d) (places.map (· + 1)) true rest
      | none => none

/-- The value of a literal of ASCII digits with at most one point, if it is finite. -/
def literal? (cs : List Char) : Option Float :=
  match literalFrom? 0 none false cs with
  | some (digits, places) =>
    let value := nearest digits (-(places : Int))
    if value.isFinite then some value else none
  | none => none

end Piecework.Decimal
