import Piecework.Settings
import Piecework.Store.Program
import Piecework.Worker.Message

/-!
# Serving workers and clients

A worker is given the oldest pending task, and its outcome is recorded if the task
is still in progress.  A client submits an expression and looks up its own
expressions.  What has to happen afterwards is part of the answer, as a job: nobody
waits for a pass, and a text that does not parse is accepted here and marked later.
-/

namespace Piecework

/-- Work that an answer leaves behind. -/
inductive Job where
  /-- Make the first pass over a new expression. -/
  | schedule (expressionId : Int) (text : String)
  /-- Make the pass after a task was completed or failed. -/
  | reschedule (taskId : Int)
deriving DecidableEq, Repr

/-- What workers are told besides their tasks. -/
structure WorkerTerms where
  times : OperationTimes
  /-- Seconds that an idle worker is to wait. -/
  retryAfter : UInt64
deriving DecidableEq, Repr

/-- A task in the form in which a worker receives it. -/
def Task.assignment (times : OperationTimes) (t : Task) : Assignment :=
  ⟨t.id, t.operand1, t.operand2, t.operator.symbol, times.of t.operator⟩

namespace Workers

open Program (call)

/-- Hands out the oldest pending task. -/
def giveTask (terms : WorkerTerms) : Program Error TaskReply := do
  match ← call .lease with
  | some task => pure (.task (task.assignment terms.times))
  | none => pure (.noTask terms.retryAfter)

/-- Records an outcome.  A result completes the task and an error puts it back; a
submission that says neither is refused before the store is asked. -/
def record (taskId : Int) : Option Outcome → Program Error Bool
  | none => Program.fail (.protocol (.missingOutcome taskId))
  | some (.result value) => call (.completeTask taskId value)
  | some (.error _) => call (.failTask taskId)

/-- Takes a submission.  One for a task that is not in progress is answered but does
not count. -/
def takeResult (s : Submission) : Program Error (Receipt × Option Job) := do
  let counted ← record s.taskId s.outcome
  pure (⟨counted⟩, if counted then some (.reschedule s.taskId) else none)

end Workers

namespace Clients

open Program (call)

/-- Takes a new expression. -/
def submit (owner text : String) : Program Error (Int × Job) := do
  let id ← call (.createExpression owner text)
  pure (id, .schedule id text)

/-- An expression of the owner's own. -/
def get (id : Int) (owner : String) : Program Error (Option Expression) := do
  let found ← call (.getOwnedExpression id owner)
  pure found

/-- All expressions of the owner. -/
def list (owner : String) : Program Error (List Expression) := do
  let owned ← call (.listOwned owner)
  pure owned

end Clients

end Piecework
