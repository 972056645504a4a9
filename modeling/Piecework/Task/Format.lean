import Piecework.Json.Record
import Piecework.Task

/-!
# Tasks and expressions in JSON

Operators and states are written by their symbols and names.  The result and the
steps are left out as long as there are none.
-/

namespace Piecework

open Json

/-- An operator in JSON: its symbol. -/
def Operator.format : Format Operator := .choice Operator.all Operator.symbol

/-- The state of a task in JSON: its name. -/
def TaskStatus.format : Format TaskStatus := .choice TaskStatus.all TaskStatus.name

/-- The state of an expression in JSON: its name. -/
def ExpressionStatus.format : Format ExpressionStatus :=
  .choice ExpressionStatus.all ExpressionStatus.name

/-- The steps of an expression in JSON. -/
def stepsFormat : Format (List String) := .list .text

namespace Task

/-- The values of the fields of a task, in the order in which they are written. -/
abbrev Tuple :=
  Int × Int × Operator × Float × Float × String × Option Float × TaskStatus × Nat ×
    Time.Instant × Time.Instant × Unit

/-- The fields of a task. -/
def fields : Fields Tuple :=
  .cons (.required "id" .identifier) <|
  .cons (.required "expression_id" .identifier) <|
  .cons (.required "operator" Operator.format) <|
  .cons (.required "operand1" .float) <|
  .cons (.required "operand2" .float) <|
  .cons (.required "node_path" .text) <|
  .cons (.optional "result" .float) <|
  .cons (.required "status" TaskStatus.format) <|
  .cons (.required "retries" (.natural UInt32.size)) <|
  .cons (.required "created_at" .instant) <|
  .cons (.required "updated_at" .instant) .nil

/-- A task from the values of its fields. -/
def ofTuple : Tuple → Task
  | (id, expressionId, operator, operand1, operand2, path, result, status, retries, createdAt,
      updatedAt, _) =>
    ⟨id, expressionId, operator, operand1, operand2, path, result, status, retries, createdAt,
      updatedAt⟩

/-- The values of the fields of a task. -/
def toTuple (t : Task) : Tuple :=
  (t.id, t.expressionId, t.operator, t.operand1, t.operand2, t.path, t.result, t.status,
    t.retries, t.createdAt, t.updatedAt, ())

/-- A task in JSON. -/
def format : Format Task := fields.format.imap ofTuple toTuple

end Task

namespace Expression

/-- The values of the fields of an expression, in the order in which they are
written. -/
abbrev Tuple :=
  Int × String × String × ExpressionStatus × Option Float × Option (List String) ×
    Time.Instant × Time.Instant × Unit

/-- The fields of an expression. -/
def fields : Fields Tuple :=
  .cons (.required "id" .identifier) <|
  .cons (.required "owner_id" .text) <|
  .cons (.required "expression" .text) <|
  .cons (.required "status" ExpressionStatus.format) <|
  .cons (.optional "result" .float) <|
  .cons (.optional "steps" stepsFormat) <|
  .cons (.required "created_at" .instant) <|
  .cons (.required "updated_at" .instant) .nil

/-- An expression from the values of its fields. -/
def ofTuple : Tuple → Expression
  | (id, owner, source, status, result, steps, createdAt, updatedAt, _) =>
    ⟨id, owner, source, status, result, steps, createdAt, updatedAt⟩

/-- The values of the fields of an expression. -/
def toTuple (e : Expression) : Tuple :=
  (e.id, e.owner, e.source, e.status, e.result, e.steps, e.createdAt, e.updatedAt, ())

/-- An expression in JSON. -/
def format : Format Expression := fields.format.imap ofTuple toTuple

end Expression

end Piecework
