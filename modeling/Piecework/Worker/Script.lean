import Piecework.Worker.Agent

/-!
# Scripted peers

A peer that answers from two lists and keeps a record of what it was asked and of
the time between.  When there are no more answers it gives no task and raises the
sign to stop.
-/

namespace Piecework

/-- Something that a scripted peer was asked. -/
inductive Asked where
  | task (agent : String)
  | submission (s : Submission)
deriving DecidableEq, Repr

/-- A question with the milliseconds since the one before. -/
structure Logged where
  asked : Asked
  waited : Nat
deriving DecidableEq, Repr

/-- What a scripted peer still has to say, and what it was asked. -/
structure Script where
  replies : List (Except Error TaskReply)
  receipts : List (Except Error Receipt)
  stopped : Bool
  /-- Milliseconds since the last question. -/
  waited : Nat
  log : List Logged

namespace Script

/-- A script of which nothing was played yet. -/
def start (replies : List (Except Error TaskReply)) (receipts : List (Except Error Receipt))
    (stopped : Bool) : Script :=
  ⟨replies, receipts, stopped, 0, []⟩

/-- Writes down a question. -/
def record (asked : Asked) (s : Script) : Script :=
  { s with waited := 0, log := s.log ++ [⟨asked, s.waited⟩] }

/-- Answers the question for a task. -/
def getTask (r : TaskRequest) (s : Script) : Except Error TaskReply × Script :=
  let s := s.record (.task r.agent)
  match s.replies with
  | reply :: rest => (reply, { s with replies := rest })
  | [] => (.ok (.noTask 0), { s with stopped := true })

/-- Answers a submission.  When there are no more answers it counts. -/
def submit (submission : Submission) (s : Script) : Except Error Receipt × Script :=
  let s := s.record (.submission submission)
  match s.receipts with
  | receipt :: rest => (receipt, { s with receipts := rest })
  | [] => (.ok ⟨true⟩, s)

/-- The scripted peer. -/
def peer : Peer Script where
  getTask := getTask
  submit := submit
  wait n s := { s with waited := s.waited + n }
  stopped s := s.stopped

/-- The turns after which every agent has seen the sign to stop.  A turn uses up a
reply, submits a task, raises the sign or sees it. -/
def turns (agents : List String) (s : Script) : Nat :=
  2 * (s.replies.length + agents.length) + 1

/-- Plays the script to agents that work side by side, until the sign to stop. -/
def play (agents : List String) (errorBackoff : Nat) (s : Script) : Script :=
  Agent.run peer errorBackoff agents (s.turns agents) s

end Script

end Piecework
