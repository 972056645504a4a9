import Piecework.Schedule.Dispatcher
import Piecework.Server.Endpoint
import Piecework.Worker.Remote

/-!
# The server

The store at work, the dispatcher, and the jobs that answers leave behind.  A
request is answered at once; `settle` then does everything that is left to do, first
the passes over new expressions and then those after completions.
-/

namespace Piecework

/-- A running server. -/
structure Server where
  site : Site
  dispatcher : Dispatcher
  terms : WorkerTerms
  /-- New expressions that wait for their first pass, with their texts. -/
  arrivals : List (Int × String)
  /-- Whether the store outlives the process. -/
  persistent : Bool

namespace Server

/-- A server that was just started on an empty store. -/
def start (settings : DispatchSettings) (terms : WorkerTerms) (persistent : Bool) : Server :=
  ⟨.fresh, .start settings, terms, [], persistent⟩

/-- Starts the process again.  Counters, queues and planned failures are gone; the
rows stay if the store outlives the process. -/
def restart (s : Server) : Server :=
  let store := if s.persistent then s.site.store else .empty
  { s with
    site := { s.site with store, outages := [] }
    dispatcher := .start s.dispatcher.settings
    arrivals := [] }

/-- Runs a program on the store. -/
def perform (p : Program ε α) (s : Server) : Except ε α × Server :=
  let (result, site) := s.site.perform p
  (result, { s with site })

/-- Takes on a job.  A closed dispatcher takes no completions. -/
def takeOn (job : Job) (s : Server) : Server :=
  match job with
  | .schedule id text => { s with arrivals := s.arrivals ++ [(id, text)] }
  | .reschedule id => { s with dispatcher := (s.dispatcher.notify id).2 }

/-- Makes the first pass over each new expression, whatever comes of it. -/
def scheduleAll : List (Int × String) → Site → Site
  | [], site => site
  | (id, text) :: rest, site => scheduleAll rest (site.perform (Schedule.firstPass id text)).2

/-- Does everything that is left to do. -/
def settle (s : Server) : Server :=
  let site := scheduleAll s.arrivals s.site
  let (dispatcher, site) := s.dispatcher.settle site
  { s with site, dispatcher, arrivals := [] }

/-- Takes on the job that an answer leaves behind, if there is one. -/
def leave (job : Option Job) (s : Server) : Server :=
  match job with
  | some job => s.takeOn job
  | none => s

/-! ## Requests -/

/-- Gives a worker a task. -/
def getTask (_ : TaskRequest) (s : Server) : Except Error TaskReply × Server :=
  s.perform (Workers.giveTask s.terms)

/-- Takes the outcome of a task. -/
def submitResult (submission : Submission) (s : Server) : Except Error Receipt × Server :=
  match s.perform (Workers.takeResult submission) with
  | (.ok (receipt, job), s) => (.ok receipt, s.leave job)
  | (.error e, s) => (.error e, s)

/-- Takes an expression. -/
def submit (owner text : String) (s : Server) : Except Error Int × Server :=
  match s.perform (Clients.submit owner text) with
  | (.ok (id, job), s) => (.ok id, s.takeOn job)
  | (.error e, s) => (.error e, s)

/-- The value of a program that cannot fail. -/
def valueOf : Except Empty α → α
  | .ok a => a

/-- Answers an HTTP request. -/
def http (r : Http.Request) (s : Server) : Http.Response × Server :=
  let (result, s) := s.perform (handle s.terms r)
  let (response, job) := valueOf result
  (response, s.leave job)

/-! ## Workers -/

/-- The server as the peer of an agent in the same process. -/
def peer : Peer Server where
  getTask := getTask
  submit := submitResult
  wait _ s := s
  stopped _ := false

/-- Carries requests to the server and its answers back, without a network. -/
def transport : Transport Server := fun r s =>
  let (response, s) := s.http r
  (some (response.status, response.body.text), s)

/-- The server as the peer of an agent that speaks HTTP. -/
def httpPeer (remote : Remote) : Peer Server :=
  remote.peer transport (fun _ s => s) fun _ => false

/-- Runs an agent once and settles. -/
def runAgent (agent : String) (s : Server) : Except Error Iteration × Server :=
  let (iteration, s) := Agent.runOnce peer agent s
  (iteration, s.settle)

/-- Runs an agent, settling after each iteration, until it is idle or fails, but at
most `rounds` times. -/
def drainAgent (agent : String) : Nat → Server → List (Except Error Iteration) × Server
  | 0, s => ([], s)
  | rounds + 1, s =>
    match s.runAgent agent with
    | (.ok (.idle retryAfter), s) => ([.ok (.idle retryAfter)], s)
    | (.error e, s) => ([.error e], s)
    | (iteration, s) =>
      let (others, s) := drainAgent agent rounds s
      (iteration :: others, s)

end Server

end Piecework
