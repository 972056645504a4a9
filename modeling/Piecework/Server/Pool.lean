import Piecework.Server.Basic

/-!
# Pools

Agents that work side by side for the server in their own process, in virtual time,
until no expression is left unfinished.

The passes after completions are not part of an agent's turn.  A completion waits in
the queue of the dispatcher, whose hands take the completions in turn: one hand at a
time listens at the queue, and the next one takes its place as soon as it has taken
something.  A hand keeps its completion while it waits for another attempt.  So
the passes for what an agent has submitted are made after the agent has asked for its
next task, and after everybody else whose turn was due.
-/

namespace Piecework

/-- Something that is to be done in a pool. -/
inductive Duty where
  /-- The turn of an agent. -/
  | agent (name : String) (stage : Agent.Stage)
  /-- The hand at the queue looks for a completion. -/
  | listen
  /-- A hand makes another attempt, with so many more allowed. -/
  | retry (taskId : Int) (left : Nat)
deriving DecidableEq, Repr

/-- A pool at work. -/
structure Pool where
  server : Server
  agenda : Agenda Duty
  /-- Hands of the dispatcher that have no completion. -/
  free : Nat
  /-- The hand at the queue was called and is about to look. -/
  called : Bool
  /-- The sign for agents to stop. -/
  stopping : Bool

namespace Pool

/-- The server as the peer of agents in a pool. -/
def peer : Peer Pool where
  getTask r p :=
    let (reply, server) := p.server.getTask r
    (reply, { p with server })
  submit submission p :=
    let (receipt, server) := p.server.submitResult submission
    (receipt, { p with server })
  wait _ p := p
  stopped p := p.stopping

/-- A pool of agents that are about to start. -/
def start (agents : Nat) (server : Server) : Pool where
  server := server
  agenda := .ofList (List.replicate agents (.agent "agent" .asking))
  free := max 1 server.dispatcher.settings.workers
  called := false
  stopping := server.site.store.unfinished.isEmpty

/-- Calls the hand at the queue, if there is one and something to take. -/
def call (p : Pool) : Pool :=
  if !p.called && 0 < p.free && !p.server.dispatcher.queue.isEmpty then
    { p with called := true, agenda := p.agenda.append .listen }
  else p

/-- Makes an attempt at a completion.  When it is the last one its hand is free again;
if no other hand is, it goes back to the queue at once. -/
def attempt (taskId : Int) (left : Nat) (p : Pool) : Pool :=
  let (verdict, counts, site) :=
    Dispatcher.tryPass taskId left p.server.dispatcher.counts p.server.site
  let p :=
    { p with server := { p.server with site, dispatcher := { p.server.dispatcher with counts } } }
  match verdict with
  | .retried =>
    { p with
      agenda :=
        p.agenda.after p.server.dispatcher.settings.retryDelay.toNat (.retry taskId (left - 1)) }
  | .processed | .failed =>
    if p.free = 0 then
      { p with free := 1, called := true, agenda := p.agenda.after 0 .listen }
    else
      { p with free := p.free + 1 }

/-- The hand at the queue takes a completion and makes its first attempt; another free
hand takes its place. -/
def listen (p : Pool) : Pool :=
  match p.server.dispatcher.queue with
  | [] => { p with called := false }
  | taskId :: queue =>
    let p :=
      { p with
        server := { p.server with dispatcher := { p.server.dispatcher with queue } }
        free := p.free - 1 }
    let p :=
      if p.free = 0 then { p with called := false }
      else { p with called := true, agenda := p.agenda.append .listen }
    p.attempt taskId (p.server.dispatcher.attempts - 1)

/-- Does what is to be done. -/
def perform (errorBackoff : Nat) (duty : Duty) (p : Pool) : Pool :=
  match duty with
  | .agent name stage =>
    match Agent.turn peer errorBackoff name stage p with
    | (none, p) => p.call
    | (some (wait, stage), p) =>
      { p with agenda := p.agenda.after wait (.agent name stage) }.call
  | .listen => p.listen
  | .retry taskId left => p.attempt taskId left

/-- Whether nothing can happen any more but agents asking in vain: none of them has a
task in hand, no completion is under way, and no task is waiting. -/
def isStuck (p : Pool) : Bool :=
  p.server.dispatcher.queue.isEmpty &&
  !p.server.site.store.tasks.any (·.isIn .pending) &&
  p.agenda.isIdle &&
  p.agenda.entries.all fun
    | (_, .agent _ .asking) => true
    | (_, .agent _ (.holding _)) | (_, .listen) | (_, .retry ..) => false

/-- Does what is on the agenda until it is empty or, when the sign to stop was not
given yet, nothing is to be gained by going on; but at most `duties` things.  When all
that is due is done and no expression is left unfinished, the sign is given. -/
def work (errorBackoff : Nat) : Nat → Pool → Pool
  | 0, p => p
  | duties + 1, p =>
    let p :=
      if p.agenda.isIdle && p.server.site.store.unfinished.isEmpty then { p with stopping := true }
      else p
    if !p.stopping && p.isStuck then p
    else
      match p.agenda.next? with
      | none => p
      | some (duty, agenda) =>
        work errorBackoff duties ({ p with agenda }.perform errorBackoff duty)

/-- Things to do after which a pool is given up.  It is ample for every pool that gets
its expressions done. -/
def patience (p : Pool) : Nat :=
  let operations := p.server.site.store.expressions.foldl (fun n e => n + e.source.length) 0
  let failures := p.server.site.outages.foldl (fun n plan => n + plan.2.skip + plan.2.times) 0
  20000 + 100 * (operations + failures)

/-- Things to do after which every agent that works on a task has submitted it and
every completion has had its attempts. -/
def remainder (p : Pool) : Nat :=
  (p.agenda.entries.length + p.server.dispatcher.queue.length + 1) *
    (p.server.dispatcher.attempts + 4)

/-- Gives the sign to stop and waits until everybody has. -/
def finish (errorBackoff : Nat) (p : Pool) : Pool :=
  work errorBackoff p.remainder { p with stopping := true }

end Pool

namespace Server

/-- Milliseconds that an agent in the same process rests after a failure. -/
def errorBackoff : Nat := AgentSettings.default.errorBackoff.toNat

/-- Lets a pool of agents work for the server. -/
def runPool (agents : Nat) (s : Server) : Server :=
  let p := Pool.start agents s
  ((p.work errorBackoff p.patience).finish errorBackoff).server.settle

end Server

end Piecework
