import Piecework.Error
import Piecework.Task.Format

/-!
# Rows

Tasks and expressions as the store keeps them: states, operators and times as
text, the steps of an expression as JSON.  Reading a row gives back a task or an
expression, or says which column does not read.

A column of floats has one zero and no place for a value that is not a number,
which it keeps as no value.  A column of texts keeps every character and compares
whole texts, but gives back only what stands in front of the first NUL.
-/

namespace Piecework

/-- What a column of floats keeps of a value. -/
def columnFloat (x : Float) : Option Float :=
  if x.isNaN then none else if x == 0 then some 0 else some x

/-- What a column of texts gives back of a text. -/
def columnText (s : String) : String :=
  String.ofList (s.toList.takeWhile (· != '\x00'))

/-- A row of the table of tasks. -/
structure TaskRow where
  id : Int
  expressionId : Int
  operator : String
  operand1 : Float
  operand2 : Float
  path : String
  result : Option Float
  status : String
  retries : Int
  createdAt : String
  updatedAt : String
deriving DecidableEq, Repr

/-- A row of the table of expressions. -/
structure ExpressionRow where
  id : Int
  owner : String
  source : String
  status : String
  result : Option Float
  steps : Option String
  createdAt : String
  updatedAt : String
deriving DecidableEq, Repr

/-- Whether a row is in a state.  The name in the row is compared, so a row with an
unknown name is in none, although its task reads as pending. -/
def TaskRow.isIn (r : TaskRow) (status : TaskStatus) : Bool :=
  r.status == status.name

/-- Whether there is still work to do for an expression, by the name of its state. -/
def ExpressionRow.isUnfinished (r : ExpressionRow) : Bool :=
  r.status == ExpressionStatus.pending.name || r.status == ExpressionStatus.inProgress.name

/-- The largest count of retries that is shown. -/
def maxRetries : Nat := UInt32.size - 1

/-- The count of retries that a stored number stands for. -/
def retriesOf (n : Int) : Nat :=
  if 0 ≤ n ∧ n ≤ maxRetries then n.toNat else maxRetries

/-- The task in a row.  Only its operator can be unreadable. -/
def TaskRow.read (r : TaskRow) : Except StoreError Task :=
  match Operator.ofSymbol (columnText r.operator) with
  | .error e => .error (.serialization ("task operator: " ++ e.message))
  | .ok op =>
    .ok {
      id := r.id
      expressionId := r.expressionId
      operator := op
      operand1 := r.operand1
      operand2 := r.operand2
      path := columnText r.path
      result := r.result
      status := .ofStored (columnText r.status)
      retries := retriesOf r.retries
      createdAt := Time.ofStamp (columnText r.createdAt)
      updatedAt := Time.ofStamp (columnText r.updatedAt) }

/-- The steps in a column. -/
def readSteps : Option String → Except StoreError (Option (List String))
  | none => .ok none
  | some text =>
    match stepsFormat.decode (columnText text) with
    | .ok steps => .ok (some steps)
    | .error _ => .error (.serialization "expression steps: not a list of texts")

/-- The expression in a row.  Only its steps can be unreadable. -/
def ExpressionRow.read (r : ExpressionRow) : Except StoreError Expression :=
  match readSteps r.steps with
  | .error e => .error e
  | .ok steps =>
    .ok {
      id := r.id
      owner := columnText r.owner
      source := columnText r.source
      status := .ofStored (columnText r.status)
      result := r.result
      steps
      createdAt := Time.ofStamp (columnText r.createdAt)
      updatedAt := Time.ofStamp (columnText r.updatedAt) }

/-- The tasks in those rows that can be read. -/
def readableTasks (rows : List TaskRow) : List Task :=
  rows.filterMap fun r => r.read.toOption

/-- The expressions in those rows that can be read. -/
def readableExpressions (rows : List ExpressionRow) : List Expression :=
  rows.filterMap fun r => r.read.toOption

end Piecework
