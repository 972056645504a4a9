import Piecework.Json.Record

/-!
# Messages between workers and the server

A worker asks for a task and is given one, or is told when to come back.  Later it
submits what became of the task and learns whether the submission counted.
-/

namespace Piecework

open Json

/-- A worker asks for a task. -/
structure TaskRequest where
  agent : String
deriving DecidableEq, Repr

/-- A task in the hands of a worker. -/
structure Assignment where
  id : Int
  operand1 : Float
  operand2 : Float
  /-- The symbol of the operator. -/
  operator : String
  /-- Milliseconds that the operation is to take. -/
  operationTime : UInt64
deriving DecidableEq, Repr

/-- What a worker that asks for a task is told. -/
inductive TaskReply where
  | task (assignment : Assignment)
  /-- There is none; come back after so many seconds. -/
  | noTask (retryAfter : UInt64)
deriving DecidableEq, Repr

/-- What became of a task in the hands of a worker. -/
inductive Outcome where
  | result (value : Float)
  | error (message : String)
deriving DecidableEq, Repr

/-- A worker hands in an outcome. -/
structure Submission where
  taskId : Int
  agent : String
  outcome : Option Outcome
deriving DecidableEq, Repr

/-- Whether a submission counted. -/
structure Receipt where
  acknowledged : Bool
deriving DecidableEq, Repr

/-- A client submits an expression. -/
structure CalculationRequest where
  expression : String
deriving DecidableEq, Repr

/-! ## Formats -/

namespace TaskRequest

/-- The fields of a request. -/
def fields : Fields (String × Unit) :=
  .cons (.required "agent_id" .text) .nil

/-- A request in JSON. -/
def format : Format TaskRequest :=
  fields.format.imap (fun (agent, _) => ⟨agent⟩) fun r => (r.agent, ())

end TaskRequest

namespace Assignment

/-- The fields of an assignment. -/
def fields : Fields (Int × Float × Float × String × UInt64 × Unit) :=
  .cons (.required "id" .identifier) <|
  .cons (.required "operand1" .float) <|
  .cons (.required "operand2" .float) <|
  .cons (.required "operator" .text) <|
  .cons (.required "operation_time_ms" .word) .nil

/-- An assignment from the values of its fields. -/
def ofTuple : Int × Float × Float × String × UInt64 × Unit → Assignment
  | (id, operand1, operand2, operator, time, _) => ⟨id, operand1, operand2, operator, time⟩

/-- The values of the fields of an assignment. -/
def toTuple (a : Assignment) : Int × Float × Float × String × UInt64 × Unit :=
  (a.id, a.operand1, a.operand2, a.operator, a.operationTime, ())

/-- An assignment in JSON. -/
def format : Format Assignment := fields.format.imap ofTuple toTuple

end Assignment

namespace TaskReply

/-- The two kinds of reply. -/
def kinds : Json.Either (Int × Float × Float × String × UInt64 × Unit) (UInt64 × Unit) where
  tag := "kind"
  leftName := "task"
  left := Assignment.fields
  rightName := "no_task"
  right := .cons (.required "retry_after_seconds" .word) .nil

/-- A reply in JSON. -/
def format : Format TaskReply :=
  kinds.format.imap
    (fun
      | .inl tuple => .task (.ofTuple tuple)
      | .inr (retryAfter, _) => .noTask retryAfter)
    (fun
      | .task assignment => .inl assignment.toTuple
      | .noTask retryAfter => .inr (retryAfter, ()))

end TaskReply

namespace Outcome

/-- The two kinds of outcome. -/
def kinds : Json.Either (Float × Unit) (String × Unit) where
  tag := "status"
  leftName := "result"
  left := .cons (.required "value" .float) .nil
  rightName := "error"
  right := .cons (.required "message" .text) .nil

/-- An outcome in JSON. -/
def format : Format Outcome :=
  kinds.format.imap
    (fun
      | .inl (value, _) => .result value
      | .inr (message, _) => .error message)
    (fun
      | .result value => .inl (value, ())
      | .error message => .inr (message, ()))

end Outcome

namespace Submission

/-- The fields of a submission.  A missing outcome can be read and sent; it is
refused by its receiver. -/
def fields : Fields (Int × String × Option Outcome × Unit) :=
  .cons (.required "task_id" .identifier) <|
  .cons (.required "agent_id" .text) <|
  .cons (.nullable "outcome" Outcome.format) .nil

/-- A submission in JSON. -/
def format : Format Submission :=
  fields.format.imap (fun (taskId, agent, outcome, _) => ⟨taskId, agent, outcome⟩)
    fun s => (s.taskId, s.agent, s.outcome, ())

end Submission

namespace Receipt

/-- The fields of a receipt. -/
def fields : Fields (Bool × Unit) :=
  .cons (.required "acknowledged" .bool) .nil

/-- A receipt in JSON. -/
def format : Format Receipt :=
  fields.format.imap (fun (acknowledged, _) => ⟨acknowledged⟩) fun r => (r.acknowledged, ())

end Receipt

namespace CalculationRequest

/-- The fields of a client's submission. -/
def fields : Fields (String × Unit) :=
  .cons (.required "expression" .text) .nil

/-- A client's submission in JSON. -/
def format : Format CalculationRequest :=
  fields.format.imap (fun (expression, _) => ⟨expression⟩) fun r => (r.expression, ())

end CalculationRequest

end Piecework
