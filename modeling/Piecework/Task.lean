import Piecework.Expr.Frontier
import Piecework.Time.Instant

/-!
# Tasks and expressions

A task is one operation of one expression, set apart for a worker.  An expression
is a text that somebody submitted, with what became of it.
-/

namespace Piecework

open Time (Instant)

/-- Where a task stands. -/
inductive TaskStatus where
  /-- Waiting for a worker. -/
  | pending
  /-- In the hands of one worker. -/
  | inProgress
  /-- Its result is recorded. -/
  | done
deriving DecidableEq, Repr, Inhabited

/-- Where an expression stands. -/
inductive ExpressionStatus where
  | pending
  | inProgress
  | done
  | error
deriving DecidableEq, Repr, Inhabited

namespace TaskStatus

/-- All states of a task. -/
def all : List TaskStatus := [pending, inProgress, done]

/-- The name of a state, in rows and on the wire. -/
def name : TaskStatus → String
  | pending => "pending"
  | inProgress => "in_progress"
  | done => "done"

/-- The state that a stored name stands for.  An unknown name reads as pending. -/
def ofStored : String → TaskStatus
  | "in_progress" => inProgress
  | "done" => done
  | _ => pending

@[simp] theorem ofStored_name (s : TaskStatus) : ofStored s.name = s := by
  cases s <;> rfl

end TaskStatus

namespace ExpressionStatus

/-- All states of an expression. -/
def all : List ExpressionStatus := [pending, inProgress, done, error]

/-- The name of a state, in rows and on the wire. -/
def name : ExpressionStatus → String
  | pending => "pending"
  | inProgress => "in_progress"
  | done => "done"
  | error => "error"

/-- The state that a stored name stands for.  An unknown name reads as pending. -/
def ofStored : String → ExpressionStatus
  | "in_progress" => inProgress
  | "done" => done
  | "error" => error
  | _ => pending

@[simp] theorem ofStored_name (s : ExpressionStatus) : ofStored s.name = s := by
  cases s <;> rfl

/-- Whether nothing more is to be done for the expression. -/
def isTerminal : ExpressionStatus → Bool
  | done | error => true
  | pending | inProgress => false

end ExpressionStatus

/-- One operation of an expression, to be carried out by a worker. -/
structure Task where
  id : Int
  expressionId : Int
  operator : Operator
  operand1 : Float
  operand2 : Float
  /-- The text of the path of the node that the task computes. -/
  path : String
  result : Option Float
  status : TaskStatus
  retries : Nat
  createdAt : Instant
  updatedAt : Instant
deriving DecidableEq, Repr

/-- A submitted formula. -/
structure Expression where
  id : Int
  owner : String
  source : String
  status : ExpressionStatus
  result : Option Float
  steps : Option (List String)
  createdAt : Instant
  updatedAt : Instant
deriving DecidableEq, Repr

namespace Task

/-- Whether the task computes the given operation at the given place.  Operands are
compared as numbers, so both zeros agree and a value that is not a number agrees
with nothing. -/
def computes (t : Task) (path : String) (op : Operator) (lhs rhs : Float) : Bool :=
  t.path == path && t.operator == op && t.operand1 == lhs && t.operand2 == rhs

/-- Whether the task computes a ready node. -/
def covers (t : Task) (r : Ready) : Bool :=
  t.computes r.path.text r.op r.lhs r.rhs

/-- The line of a finished task in the trace of its expression. -/
def traceLine (t : Task) (result : Float) : String :=
  Decimal.text t.operand1 ++ " " ++ t.operator.symbol ++ " " ++ Decimal.text t.operand2 ++
    " = " ++ Decimal.text result

end Task

/-- The trace of an expression: one line for each task with a result, in the order
of the tasks. -/
def trace (tasks : List Task) : List String :=
  tasks.filterMap fun t => t.result.map t.traceLine

end Piecework
