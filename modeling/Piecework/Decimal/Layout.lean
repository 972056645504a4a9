import Piecework.Decimal.Shortest

/-!
# Layout of decimals

How the shortest digits of a float become text.  A `Layout` fixes what the
digits leave open: for which magnitudes the point is written in place, what a
whole number ends in, which of two equally near decimals is taken, and the
texts of the values that have no digits.

Two layouts are in use.  `plain` writes every digit in place; it is the text of
trees and of step traces.  `json` switches to an exponent far from one and
always shows that the number is a float.
-/

namespace Piecework.Decimal

/-- The choices that turn digits into text. -/
structure Layout where
  tie : Tie
  /-- Smallest decimal exponent that is written in place. -/
  lowest : Option Int
  /-- Largest decimal exponent that is written in place. -/
  highest : Option Int
  /-- What follows the digits of a whole number. -/
  wholeEnd : String
  nan : String
  infinite : String
deriving DecidableEq, Repr

/-- Every digit in place, no mark on whole numbers; of two equally near decimals
the one farther from zero. -/
def plain : Layout := ⟨.away, none, none, "", "NaN", "inf"⟩

/-- In place from `10 ^ -5` up to `10 ^ 15`, with a fractional part always; values
that are not finite have no number in JSON. -/
def json : Layout := ⟨.even, some (-5), some 15, ".0", "null", "null"⟩

/-- The decimal digits of a number, most significant first. -/
def digitChars (n : Nat) : List Char :=
  Nat.toDigits 10 n

namespace Layout

/-- Digits with the point in place.  `scale` is the decimal exponent of the last
digit. -/
def inPlace (layout : Layout) (digits : List Char) (scale : Int) : List Char :=
  if 0 ≤ scale then
    digits ++ List.replicate scale.toNat '0' ++ layout.wholeEnd.toList
  else
    let places := (-scale).toNat
    if places < digits.length then
      digits.take (digits.length - places) ++ '.' :: digits.drop (digits.length - places)
    else
      '0' :: '.' :: List.replicate (places - digits.length) '0' ++ digits

/-- Digits with an exponent: one digit before the point, the sign of the exponent
always written. -/
def withExponent (digits : List Char) (exponent : Int) : List Char :=
  let mantissa := match digits with
    | first :: second :: rest => first :: '.' :: second :: rest
    | short => short
  let sign := if 0 ≤ exponent then '+' else '-'
  mantissa ++ 'e' :: sign :: digitChars exponent.natAbs

/-- Whether a number whose first digit stands for `10 ^ exponent` is written in
place. -/
def writesInPlace (layout : Layout) (exponent : Int) : Bool :=
  layout.lowest.all (· ≤ exponent) && layout.highest.all (exponent ≤ ·)

/-- The text of positive digits. -/
def magnitude (layout : Layout) (d : Digits) : List Char :=
  let digits := digitChars d.digits
  let exponent := d.exponent + digits.length - 1
  if layout.writesInPlace exponent then
    layout.inPlace digits d.exponent
  else
    withExponent digits exponent

/-- A sign in front of a text. -/
def signed (negative : Bool) (text : List Char) : List Char :=
  if negative then '-' :: text else text

/-- The text of a float. -/
def write (layout : Layout) (x : Float) : List Char :=
  match classify x with
  | .nan => layout.nan.toList
  | .infinite negative => signed negative layout.infinite.toList
  | .zero negative => signed negative (layout.inPlace ['0'] 0)
  | .finite negative b => signed negative (layout.magnitude (b.shortest layout.tie))

end Layout

/-- The plain text of a float, as trees and traces show it. -/
def text (x : Float) : String :=
  String.ofList (plain.write x)

/-- The text of a float as a JSON number.  JSON has no number for a float that is
not finite; `null` stands in for it. -/
def jsonChars (x : Float) : List Char :=
  if x.isFinite then json.write x else json.nan.toList

end Piecework.Decimal
