/-!
# Operators

The four binary operations on floats, their symbols, and what applying one to
two operands gives.  An operation that would leave the finite floats is an
error: such a value can neither be stored nor sent.
-/

namespace Piecework

/-- A binary operation. -/
inductive Operator where
  | add
  | sub
  | mul
  | div
deriving DecidableEq, Repr, Inhabited

/-- Why an operation has no value. -/
inductive ComputeError where
  | divisionByZero
  | unsupportedOperator (text : String)
  | nonFinite (op : Operator)
deriving DecidableEq, Repr

namespace Operator

/-- All operators. -/
def all : List Operator := [add, sub, mul, div]

/-- The symbol of an operator, in expressions and on the wire. -/
def symbol : Operator → String
  | add => "+"
  | sub => "-"
  | mul => "*"
  | div => "/"

/-- The operator with the given symbol. -/
def ofSymbol? : String → Option Operator
  | "+" => some add
  | "-" => some sub
  | "*" => some mul
  | "/" => some div
  | _ => none

@[simp] theorem ofSymbol?_symbol (op : Operator) : ofSymbol? op.symbol = some op := by
  cases op <;> rfl

/-- The operator with the given symbol; any other text is unsupported. -/
def ofSymbol (text : String) : Except ComputeError Operator :=
  match ofSymbol? text with
  | some op => .ok op
  | none => .error (.unsupportedOperator text)

/-- The float operation behind an operator. -/
def onFloats : Operator → Float → Float → Float
  | add, a, b => a + b
  | sub, a, b => a - b
  | mul, a, b => a * b
  | div, a, b => a / b

/-- The value of an operation.  A zero divisor, of either sign, is reported before
the quotient is looked at. -/
def apply (op : Operator) (a b : Float) : Except ComputeError Float :=
  if op = div ∧ b == 0 then
    .error .divisionByZero
  else
    let value := op.onFloats a b
    if value.isFinite then .ok value else .error (.nonFinite op)

end Operator

/-- What a worker says when it cannot compute a value. -/
def ComputeError.message : ComputeError → String
  | divisionByZero => "division by zero"
  | unsupportedOperator text => "unsupported operator: " ++ text
  | nonFinite op => "result of '" ++ op.symbol ++ "' is not a finite number"

/-- The arithmetic of one task: the operator named by `symbol`, applied to both
operands. -/
def compute (symbol : String) (a b : Float) : Except ComputeError Float := do
  (← Operator.ofSymbol symbol).apply a b

end Piecework
