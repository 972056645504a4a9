import Piecework.Refill
import Piecework.Store.Program

/-!
# Scheduling passes

A pass takes one expression as far as its results allow.  It parses the text anew,
folds in what was found so far, creates a task for each ready operation that has
none, and writes down where the expression stands.  Nothing is remembered between
two passes but what is in the store.
-/

namespace Piecework.Schedule

open Program (call)

/-- Creates a task for each of the operations, and counts them. -/
def createTasks (expressionId : Int) : List Ready → Program StoreError Nat
  | [] => pure 0
  | r :: rest => do
    let _ ← call (.createTask expressionId r.op r.lhs r.rhs r.path.text)
    let created ← createTasks expressionId rest
    pure (created + 1)

/-- The operations that no task covers. -/
def uncovered (tasks : List Task) (ready : List Ready) : List Ready :=
  ready.filter fun r => !tasks.any (·.covers r)

/-- Creates a task for each ready operation of a tree that has none, and counts
them.  The existing tasks are listed once, before the first new one. -/
def issueTasks (expressionId : Int) (tree : Tree) : Program StoreError Nat :=
  if tree.frontier.isEmpty then pure 0
  else do
    let existing ← call (.listTasks expressionId)
    createTasks expressionId (uncovered existing tree.frontier)

/-- Writes down that an expression cannot be computed, and why.  A failure to do so
is ignored, so that the cause reaches the caller. -/
def giveUp (expressionId : Int) (reason : String) : Program Error Unit := do
  let _ ← (call (.setStatus expressionId .error none (some [reason]))).attempt
  pure ()

/-- Writes down that an expression is under way. -/
def markInProgress (expressionId : Int) : Program Error ExpressionStatus := do
  call (.setStatus expressionId .inProgress none none)
  pure .inProgress

/-- Writes down the value of an expression and how it was found. -/
def markDone (expressionId : Int) (value : Float) (steps : List String) :
    Program Error ExpressionStatus := do
  call (.setStatus expressionId .done (some value) (some steps))
  pure .done

/-- The end of a pass: the expression is done if its tree has come down to a number,
and under way otherwise. -/
def conclude (expressionId : Int) (tree : Tree) (steps : Float → List String) :
    Program Error ExpressionStatus :=
  match tree.value? with
  | some value => markDone expressionId value (steps value)
  | none => markInProgress expressionId

/-- A text that is no expression: it is marked and reported. -/
def reject (expressionId : Int) (e : ParseError) : Program Error ExpressionStatus := do
  giveUp expressionId ("parse error: " ++ e.message)
  Program.fail (.parse e)

/-- The first pass over an expression.  A number alone is its own value. -/
def firstPass (expressionId : Int) (text : String) : Program Error ExpressionStatus :=
  match Expr.parse text with
  | .error e => reject expressionId e
  | .ok tree => do
    match ← (issueTasks expressionId tree).attempt with
    | .error e =>
      giveUp expressionId ("scheduling failed: " ++ e.message)
      Program.fail (.store e)
    | .ok _ => conclude expressionId tree fun value => ["result: " ++ Decimal.text value]

/-- The tasks with a recorded result or at least a final state. -/
def doneTasks (tasks : List Task) : List Task :=
  tasks.filter (·.status == .done)

/-- A later pass over an expression: as the first one, after folding in the results
of its finished tasks. -/
def laterPass (e : Expression) : Program Error ExpressionStatus :=
  match Expr.parse e.source with
  | .error cause => reject e.id cause
  | .ok tree => do
    let finished := doneTasks (← call (.listTasks e.id))
    let rest := tree.refill finished
    let _ ← issueTasks e.id rest
    conclude e.id rest fun _ => trace finished

/-- The entity that was looked for. -/
def found (entity : Entity) (id : Int) : Option α → Program Error α
  | some a => pure a
  | none => Program.fail (.notFound entity id)

/-- The pass after a task was completed or failed.  A finished expression is left
alone. -/
def passAfter (taskId : Int) : Program Error ExpressionStatus := do
  let task ← found .task taskId (← call (.getTask taskId))
  let expression ← found .expression task.expressionId (← call (.getExpression task.expressionId))
  if expression.status.isTerminal then pure expression.status
  else laterPass expression

/-- The pass that recovery makes over an unfinished expression: the first one if
none was made yet, else a later one. -/
def resume (e : Expression) : Program Error ExpressionStatus :=
  if e.status = .pending then firstPass e.id e.source else laterPass e

/-- Makes a pass over each of the expressions, whatever becomes of the others. -/
def resumeAll : List Expression → Program Error Unit
  | [] => pure ()
  | e :: rest => do
    let _ ← ((resume e).attempt : Program Error _)
    resumeAll rest

/-- Takes up every unfinished expression, as after a restart, and counts them. -/
def recover : Program Error Nat := do
  let unfinished ← call .listUnfinished
  resumeAll unfinished
  pure unfinished.length

end Piecework.Schedule
