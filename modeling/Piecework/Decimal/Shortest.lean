/-!
# Shortest decimals

A finite binary number is written with the fewest decimal digits that still
lie nearer to it than to any other binary number of its format.  The search is
in exact natural number arithmetic: the reals that round to the value form an
interval, a decimal grid is the set of multiples of a power of ten, and the
coarsest grid with a point in the interval supplies the digits.

The two candidates on a grid are the neighbours of the value itself.  When both
lie in the interval the nearer one is taken; `Tie` says which one when they are
equally near.
-/

namespace Piecework.Decimal

/-- Which of two equally near candidates is taken. -/
inductive Tie where
  /-- The candidate that is farther from zero. -/
  | away
  /-- The candidate with an even last digit. -/
  | even
deriving DecidableEq, Repr

/-- A positive decimal number `digits · 10 ^ exponent`. -/
structure Digits where
  digits : Nat
  exponent : Int
deriving DecidableEq, Repr

/-- A positive binary number `mantissa · 2 ^ exponent`.  `narrow` holds when the
next smaller number of the format is only half as far away as the next larger
one, which happens at powers of two. -/
structure Binary where
  mantissa : Nat
  exponent : Int
  narrow : Bool
deriving DecidableEq, Repr

namespace Binary

/-- Numerator of a quarter of the unit in the last place, on the grid `10 ^ k`. -/
def numerator (b : Binary) (k : Int) : Nat :=
  Nat.pow 2 (b.exponent - 2).toNat * Nat.pow 10 (-k).toNat

/-- Denominator of a quarter of the unit in the last place, on the grid `10 ^ k`. -/
def denominator (b : Binary) (k : Int) : Nat :=
  Nat.pow 2 (2 - b.exponent).toNat * Nat.pow 10 k.toNat

/-- The value in quarters of the unit in the last place. -/
def middle (b : Binary) : Nat := 4 * b.mantissa

/-- Upper end of the interval, in quarters of the unit in the last place. -/
def upper (b : Binary) : Nat := 4 * b.mantissa + 2

/-- Lower end of the interval, in quarters of the unit in the last place. -/
def lower (b : Binary) : Nat :=
  if b.narrow then 4 * b.mantissa - 1 else 4 * b.mantissa - 2

/-- Whether `n · 10 ^ k` rounds to the value: it lies in the interval, whose ends
count exactly when the mantissa is even. -/
def rounds (b : Binary) (k : Int) (n : Nat) : Bool :=
  let x := n * b.denominator k
  if b.mantissa % 2 == 0 then
    b.lower * b.numerator k ≤ x && x ≤ b.upper * b.numerator k
  else
    b.lower * b.numerator k < x && x < b.upper * b.numerator k

/-- The neighbour of the value on the grid `10 ^ k` that lies below or at it. -/
def below (b : Binary) (k : Int) : Nat :=
  b.middle * b.numerator k / b.denominator k

/-- The digits on the grid `10 ^ k`, if the grid has a point that rounds to the
value. -/
def onGrid? (tie : Tie) (b : Binary) (k : Int) : Option Nat :=
  let low := b.below k
  match low != 0 && b.rounds k low, b.rounds k (low + 1) with
  | false, false => none
  | true, false => some low
  | false, true => some (low + 1)
  | true, true =>
    let rest := b.middle * b.numerator k - low * b.denominator k
    match compare (2 * rest) (b.denominator k) with
    | .lt => some low
    | .gt => some (low + 1)
    | .eq =>
      match tie with
      | .away => some (low + 1)
      | .even => some (low + low % 2)

/-- Tries ever finer grids, starting with `10 ^ k`. -/
def search (tie : Tie) (b : Binary) : Nat → Int → Digits
  | 0, k => ⟨b.below k, k⟩
  | steps + 1, k =>
    match b.onGrid? tie k with
    | some n => ⟨n, k⟩
    | none => search tie b steps (k - 1)

/-- A power of ten above the value: the decimal exponent is at most 0.30103 times
the binary one. -/
def topGrid (b : Binary) : Int :=
  (b.exponent + b.mantissa.log2 + 1) * 30103 / 100000 + 1

/-- The fewest digits that round to the value.  Twenty grids below the top one
reach past the seventeenth digit, where every double has a hit. -/
def shortest (tie : Tie) (b : Binary) : Digits :=
  b.search tie 20 b.topGrid

end Binary

/-- A float by class: not a number, an infinity, a zero, or a sign with a positive
binary number. -/
inductive Class where
  | nan
  | infinite (negative : Bool)
  | zero (negative : Bool)
  | finite (negative : Bool) (value : Binary)
deriving DecidableEq, Repr

/-- Reads the sign, the exponent and the fraction of a double from its bits. -/
def classify (x : Float) : Class :=
  let bits := x.toBits.toNat
  let negative : Bool := decide (Nat.pow 2 63 ≤ bits)
  let biased : Nat := bits / Nat.pow 2 52 % Nat.pow 2 11
  let fraction : Nat := bits % Nat.pow 2 52
  if biased = 2047 then
    if fraction = 0 then .infinite negative else .nan
  else if biased = 0 then
    if fraction = 0 then .zero negative else .finite negative ⟨fraction, -1074, false⟩
  else
    .finite negative ⟨Nat.pow 2 52 + fraction, (biased : Int) - 1075, fraction = 0 && 1 < biased⟩

end Piecework.Decimal
