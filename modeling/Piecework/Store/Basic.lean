import Piecework.Store.Row

/-!
# The store

Two tables, and the operations on them.  Rows stand in the order of their
identifiers, which count from one and are never given twice.

A task is leased by moving it from pending to in progress, and only a task in
progress can be completed or failed: the state of the row is what keeps two
workers apart.
-/

namespace Piecework

open Time (Instant)

/-- The tables, and the last identifier that each of them has given. -/
structure Store where
  tasks : List TaskRow
  expressions : List ExpressionRow
  lastTask : Int
  lastExpression : Int
deriving DecidableEq, Repr

namespace Store

/-- A store without rows. -/
def empty : Store := ⟨[], [], 0, 0⟩

/-! ## Writing -/

/-- Adds an expression that nobody has looked at yet. -/
def createExpression (now : Instant) (owner source : String) (s : Store) : Int × Store :=
  let id := s.lastExpression + 1
  let row : ExpressionRow :=
    ⟨id, owner, source, ExpressionStatus.pending.name, none, none, now.stamp, now.stamp⟩
  (id, { s with expressions := s.expressions ++ [row], lastExpression := id })

/-- A new task is refused because a column must have a value. -/
def missingValue (column : String) : StoreError :=
  .query ("create_task: SQLite failure: `NOT NULL constraint failed: tasks." ++ column ++ "`")

/-- A new task is refused because its expression does not exist. -/
def missingExpression : StoreError :=
  .query "create_task: SQLite failure: `FOREIGN KEY constraint failed`"

/-- Adds a pending task.  Both operands must be numbers and the expression must
exist. -/
def createTask (now : Instant) (expressionId : Int) (op : Operator) (lhs rhs : Float)
    (path : String) (s : Store) : Except StoreError (Int × Store) :=
  match columnFloat lhs, columnFloat rhs with
  | none, _ => .error (missingValue "operand1")
  | some _, none => .error (missingValue "operand2")
  | some a, some b =>
    if s.expressions.any (·.id == expressionId) then
      let id := s.lastTask + 1
      let row : TaskRow :=
        ⟨id, expressionId, op.symbol, a, b, path, none, TaskStatus.pending.name, 0, now.stamp,
          now.stamp⟩
      .ok (id, { s with tasks := s.tasks ++ [row], lastTask := id })
    else
      .error missingExpression

/-- The earlier created of two rows, the first one of two that were created at the
same time.  Stamps are compared as texts. -/
def older (a b : TaskRow) : TaskRow :=
  if b.createdAt < a.createdAt then b else a

/-- The oldest of the rows. -/
def oldest? : List TaskRow → Option TaskRow
  | [] => none
  | r :: rest => some (rest.foldl older r)

/-- Changes the rows with an identifier that are in a state, and says whether there
is one. -/
def updateTask (id : Int) (status : TaskStatus) (change : TaskRow → TaskRow) (s : Store) :
    Bool × Store :=
  let selected (r : TaskRow) : Bool := r.id == id && r.isIn status
  (s.tasks.any selected,
    { s with tasks := s.tasks.map fun r => if selected r then change r else r })

/-- Moves the oldest pending task to progress and returns it.  A row that cannot be
read stays as it is. -/
def lease (now : Instant) (s : Store) : Except StoreError (Option Task × Store) :=
  match oldest? (s.tasks.filter (·.isIn .pending)) with
  | none => .ok (none, s)
  | some row =>
    match row.read with
    | .error e => .error e
    | .ok task =>
      let (_, s') := s.updateTask row.id .pending fun r =>
        { r with status := TaskStatus.inProgress.name, updatedAt := now.stamp }
      .ok (some { task with status := .inProgress, updatedAt := Time.ofStamp now.stamp }, s')

/-- Records the result of a task in progress.  Says whether there was one. -/
def complete (now : Instant) (id : Int) (value : Float) (s : Store) : Bool × Store :=
  s.updateTask id .inProgress fun r =>
    { r with
      status := TaskStatus.done.name
      result := columnFloat value
      updatedAt := now.stamp }

/-- Puts a task in progress back for another worker and counts the retry.  Says
whether there was one. -/
def fail (now : Instant) (id : Int) (s : Store) : Bool × Store :=
  s.updateTask id .inProgress fun r =>
    { r with
      status := TaskStatus.pending.name
      retries := r.retries + 1
      updatedAt := now.stamp }

/-- Overwrites what has become of an expression.  A missing expression changes
nothing. -/
def setStatus (now : Instant) (id : Int) (status : ExpressionStatus) (result : Option Float)
    (steps : Option (List String)) (s : Store) : Store :=
  { s with
    expressions := s.expressions.map fun r =>
      if r.id == id then
        { r with
          status := status.name
          result := result.bind columnFloat
          steps := steps.map stepsFormat.encode
          updatedAt := now.stamp }
      else r }

/-! ## Reading -/

/-- Reads the row that was found, if there is one. -/
def readFound (read : ρ → Except StoreError α) : Option ρ → Except StoreError (Option α)
  | none => .ok none
  | some row => (read row).map some

/-- The task with an identifier. -/
def task? (id : Int) (s : Store) : Except StoreError (Option Task) :=
  readFound TaskRow.read (s.tasks.find? (·.id == id))

/-- The readable tasks of an expression, in the order of their identifiers. -/
def tasksOf (expressionId : Int) (s : Store) : List Task :=
  readableTasks (s.tasks.filter (·.expressionId == expressionId))

/-- The expression with an identifier. -/
def expression? (id : Int) (s : Store) : Except StoreError (Option Expression) :=
  readFound ExpressionRow.read (s.expressions.find? (·.id == id))

/-- The expression with an identifier, if it belongs to the owner. -/
def ownedExpression? (id : Int) (owner : String) (s : Store) :
    Except StoreError (Option Expression) :=
  readFound ExpressionRow.read (s.expressions.find? fun r => r.id == id && r.owner == owner)

/-- The readable expressions of an owner, the newest first. -/
def ownedBy (owner : String) (s : Store) : List Expression :=
  readableExpressions <|
    (s.expressions.filter (·.owner == owner)).reverse.mergeSort
      fun a b => b.createdAt ≤ a.createdAt

/-- The readable expressions that are not finished, in the order of their
identifiers. -/
def unfinished (s : Store) : List Expression :=
  readableExpressions (s.expressions.filter ExpressionRow.isUnfinished)

end Store

end Piecework
