import Piecework.Error
import Piecework.Worker.Agenda
import Piecework.Worker.Message

/-!
# Agents

An agent asks for a task, computes it, takes the time that the operation is to
take, and submits the outcome.  Then it asks again.  It rests when there is no task
and when anything went wrong, and it stops only between two tasks, so a task in hand
is always submitted.

What an agent does between two waits is its turn.  Any number of agents work side by
side by taking turns in the order of an agenda.
-/

namespace Piecework

/-- What surrounds an agent: the one that it works for, the clock, and the sign to
stop. -/
structure Peer (σ : Type) where
  getTask : TaskRequest → σ → Except Error TaskReply × σ
  submit : Submission → σ → Except Error Receipt × σ
  /-- Lets milliseconds pass. -/
  wait : Nat → σ → σ
  stopped : σ → Bool

/-- The outcome of a task. -/
def Assignment.outcome (a : Assignment) : Outcome :=
  match compute a.operator a.operand1 a.operand2 with
  | .ok value => .result value
  | .error e => .error e.message

/-- The submission of a task. -/
def Assignment.submission (agent : String) (a : Assignment) : Submission :=
  ⟨a.id, agent, some a.outcome⟩

/-- What an agent did in one go. -/
inductive Iteration where
  /-- There was no task; come back after so many seconds. -/
  | idle (retryAfter : UInt64)
  | completed (taskId : Int) (value : Float)
  | failed (taskId : Int) (message : String)
deriving DecidableEq, Repr

/-- What was done with a task, by its outcome. -/
def Iteration.ofOutcome (taskId : Int) : Outcome → Iteration
  | .result value => .completed taskId value
  | .error message => .failed taskId message

namespace Agent

/-! ## One task -/

/-- Takes at most one task and submits its outcome. -/
def runOnce (peer : Peer σ) (agent : String) (s : σ) : Except Error Iteration × σ :=
  match peer.getTask ⟨agent⟩ s with
  | (.error e, s) => (.error e, s)
  | (.ok (.noTask retryAfter), s) => (.ok (.idle retryAfter), s)
  | (.ok (.task a), s) =>
    match peer.submit (a.submission agent) (peer.wait (Agenda.span a.operationTime.toNat) s) with
    | (.error e, s) => (.error e, s)
    | (.ok _, s) => (.ok (.ofOutcome a.id a.outcome), s)

/-- Runs a number of times, whatever comes of it. -/
def runTimes (peer : Peer σ) (agent : String) : Nat → σ → List (Except Error Iteration) × σ
  | 0, s => ([], s)
  | n + 1, s =>
    let (iteration, s) := runOnce peer agent s
    let (others, s) := runTimes peer agent n s
    (iteration :: others, s)

/-! ## Turns -/

/-- What an agent does when its turn comes. -/
inductive Stage where
  /-- It looks for the sign to stop and asks for a task. -/
  | asking
  /-- It has worked on a task and submits it. -/
  | holding (a : Assignment)
deriving DecidableEq, Repr

/-- Milliseconds by which an idle agent comes back late.  Any delay up to a quarter of
a second does; this one is the middle. -/
def lateness : Nat := 125

/-- The turn of an agent: how long it waits then, and what it does after that.  An
agent that has seen the sign to stop does nothing any more. -/
def turn (peer : Peer σ) (errorBackoff : Nat) (agent : String) :
    Stage → σ → Option (Nat × Stage) × σ
  | .asking, s =>
    if peer.stopped s then (none, s)
    else
      match peer.getTask ⟨agent⟩ s with
      | (.ok (.task a), s) => (some (a.operationTime.toNat, .holding a), s)
      | (.ok (.noTask retryAfter), s) => (some (1000 * retryAfter.toNat + lateness, .asking), s)
      | (.error _, s) => (some (errorBackoff, .asking), s)
  | .holding a, s =>
    match peer.submit (a.submission agent) s with
    | (.ok _, s) => (some (0, .asking), s)
    | (.error _, s) => (some (errorBackoff, .asking), s)

/-- Lets agents take turns until all of them have stopped, for at most `turns` turns. -/
def work (peer : Peer σ) (errorBackoff : Nat) : Nat → Agenda (String × Stage) → σ → σ
  | 0, _, s => s
  | turns + 1, agenda, s =>
    match agenda.next? with
    | none => s
    | some ((agent, stage), later) =>
      match turn peer errorBackoff agent stage (peer.wait (later.now - agenda.now) s) with
      | (none, s) => work peer errorBackoff turns later s
      | (some (wait, stage), s) =>
        work peer errorBackoff turns (later.after wait (agent, stage)) s

/-- Lets agents work side by side, all of them starting at once. -/
def run (peer : Peer σ) (errorBackoff : Nat) (agents : List String) (turns : Nat) (s : σ) : σ :=
  work peer errorBackoff turns (.ofList (agents.map (·, .asking))) s

end Agent

end Piecework
