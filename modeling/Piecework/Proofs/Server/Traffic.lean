import Piecework.Proofs.Server.Handover
import Piecework.Proofs.Server.Intake
import Piecework.Proofs.System.Basic

/-!
# A server whose requests and passes are interleaved

A server answers a request at once and makes its passes later.  Here the parts of that are
steps of their own, so that others may come between any two calls on the store.

* A request makes its one call on the store.  The job that it leaves behind is among the `jobs`
  until the request is answered, and then the server takes it on.
* One pass at a time has the lock, and makes its calls one by one.
* A hand of the dispatcher takes a completion from the queue, and keeps it until it has the lock
  and again while it waits for another attempt.

`getTask_run`, `submitResult_run`, `submit_run` and `settle_run` say that what a server does at
once is one of the runs.
-/

open Relation (ReflTransGen)

namespace Piecework

/-- The expression that a job schedules, with its text. -/
def Job.arrival? : Job → Option (Int × String)
  | .schedule id text => some (id, text)
  | .reschedule _ => none

/-- The last attempt is not followed by another one. -/
theorem Verdict.of_zero {α : Type} (result : Except Error α) : Verdict.of 0 result ≠ .retried := by
  cases result <;> simp [Verdict.of]

/-- The task that a job follows up. -/
def Job.taskId? : Job → Option Int
  | .schedule .. => none
  | .reschedule id => some id

section Job

variable (id : Int) (text : String)

@[simp] theorem Job.arrival?_schedule : (schedule id text).arrival? = some (id, text) := rfl

@[simp] theorem Job.arrival?_reschedule : (reschedule id).arrival? = none := rfl

@[simp] theorem Job.taskId?_eq_some {job : Job} : job.taskId? = some id ↔ job = .reschedule id := by
  cases job <;> simp [Job.taskId?]

end Job

/-- A pass that has the lock. -/
structure Errand where
  pass : Pass
  /-- Further attempts that its completion gets. -/
  left : Nat
  /-- The calls that are still to be made. -/
  rest : Program Error ExpressionStatus

/-- A server between two calls on its store. -/
structure Traffic where
  server : Server
  /-- What recorded requests have left behind that are not answered yet. -/
  jobs : List Job
  /-- Completions in the hands of the dispatcher, with the attempts that are left. -/
  hands : List (Int × Nat)
  running : Option Errand

namespace Traffic

/-- The tables. -/
abbrev store (v : Traffic) : Store := v.server.site.store

/-- The same traffic with another site. -/
def onSite (site : Site) (v : Traffic) : Traffic := { v with server := { v.server with site } }

/-- Nothing is under way. -/
structure Quiescent (v : Traffic) : Prop where
  jobs : v.jobs = []
  arrivals : v.server.arrivals = []
  queue : v.server.dispatcher.queue = []
  hands : v.hands = []
  running : v.running = none

/-! ## Steps -/

/-- The outcome of a submission is recorded. -/
def record (submission : Submission) (v : Traffic) : Traffic :=
  let (answer, server) := v.server.perform (Workers.takeResult submission)
  match answer with
  | .ok (_, job) => { v with server, jobs := v.jobs ++ job.toList }
  | .error _ => { v with server }

/-- An expression is stored. -/
def accept (owner text : String) (v : Traffic) : Traffic :=
  let (answer, server) := v.server.perform (Clients.submit owner text)
  match answer with
  | .ok (_, job) => { v with server, jobs := v.jobs ++ [job] }
  | .error _ => { v with server }

/-- A pass has come to its end.  The hand keeps a completion that gets another attempt. -/
def finish (pass : Pass) (left : Nat) (result : Except Error ExpressionStatus) (v : Traffic) :
    Traffic :=
  match pass with
  | .first .. | .resumed _ => { v with running := none }
  | .after taskId =>
    let verdict := Verdict.of left result
    let counts := v.server.dispatcher.counts.count verdict
    { v with
      server := { v.server with dispatcher := { v.server.dispatcher with counts } }
      hands := if verdict = .retried then v.hands ++ [(taskId, left - 1)] else v.hands
      running := none }

/-- One step.  Results that are submitted are numbers. -/
inductive Step : Traffic → Traffic → Prop
  /-- Time goes by, and clocks may be set. -/
  | wait {v : Traffic} (clock : Time.Instant) : Step v (v.onSite { v.server.site with clock })
  | lease {v : Traffic} (request : TaskRequest) :
      Step v { v with server := (v.server.getTask request).2 }
  | record {v : Traffic} (submission : Submission) :
      (∀ value, submission.outcome = some (.result value) → value.isNaN = false) →
      Step v (v.record submission)
  | accept {v : Traffic} (owner text : String) : Step v (v.accept owner text)
  /-- A request is answered. -/
  | answer {v : Traffic} {front back : List Job} {job : Job} : v.jobs = front ++ job :: back →
      Step v { v with server := v.server.takeOn job, jobs := front ++ back }
  /-- A hand takes the oldest completion from the queue. -/
  | take {v : Traffic} {id : Int} {queue : List Int} :
      v.server.dispatcher.queue = id :: queue →
      Step v { v with
        server := { v.server with dispatcher := { v.server.dispatcher with queue } }
        hands := v.hands ++ [(id, v.server.dispatcher.attempts - 1)] }
  /-- The first pass over a new expression has the lock. -/
  | first {v : Traffic} {front back : List (Int × String)} {id : Int} {text : String} :
      v.running = none → v.server.arrivals = front ++ (id, text) :: back →
      Step v { v with
        server := { v.server with arrivals := front ++ back }
        running := some ⟨.first id text, 0, (Pass.first id text).program⟩ }
  /-- The pass after a completion has the lock. -/
  | after {v : Traffic} {front back : List (Int × Nat)} {id : Int} {left : Nat} :
      v.running = none → v.hands = front ++ (id, left) :: back →
      Step v { v with
        hands := front ++ back
        running := some ⟨.after id, left, (Pass.after id).program⟩ }
  /-- The pass that has the lock makes a call. -/
  | proceed {v : Traffic} {pass : Pass} {left : Nat} {c : Call}
      {next : Except StoreError c.Reply → Program Error ExpressionStatus} :
      v.running = some ⟨pass, left, .ask c next⟩ →
      Step v { v.onSite (v.server.site.answer c).2 with
        running := some ⟨pass, left, next (v.server.site.answer c).1⟩ }
  | finish {v : Traffic} {pass : Pass} {left : Nat} {result : Except Error ExpressionStatus} :
      v.running = some ⟨pass, left, .done result⟩ → Step v (v.finish pass left result)

/-! ## What the requests do -/

section Requests

variable {v : Traffic}

/-- What a recorded outcome does. -/
inductive Recorded (submission : Submission) (v : Traffic) : Site → Traffic → Prop
  | kept {site : Site} : site.store = v.store → Recorded submission v site (v.onSite site)
  | moved {site : Site} {outcome : Outcome} {k k' : Task} : submission.outcome = some outcome →
      k.id = submission.taskId → Store.Moves (outcome.call submission.taskId) k k' →
      Store.Moved k k' v.store site.store →
      Recorded submission v site
        { v.onSite site with jobs := v.jobs ++ [.reschedule submission.taskId] }

/-- Either nothing is recorded, or a task has changed hands and leaves a job behind. -/
theorem record_recorded (hs : v.store.WellFormed) (submission : Submission) :
    Recorded submission v (v.server.site.perform (Workers.takeResult submission)).2
      (v.record submission) := by
  cases hout : submission.outcome with
  | none =>
    obtain ⟨taskId, agent, outcome⟩ := submission
    cases hout
    exact .kept rfl
  | some outcome =>
    have hresult := @Server.takeResult_filed v.server.site submission outcome hs hout
    obtain ⟨reply, hanswer, hfiled⟩ := hresult
    unfold record Server.perform
    generalize v.server.site.perform (Workers.takeResult submission) = result at hanswer hfiled ⊢
    obtain ⟨answer, site⟩ := result
    dsimp only at hanswer hfiled
    subst hanswer
    generalize hstore : site.store = s' at hfiled
    cases hfiled with
    | stale =>
      have hnone : v.jobs ++ [] = v.jobs := List.append_nil _
      change Recorded submission v site { v.onSite site with jobs := v.jobs ++ [] }
      rw [hnone]
      exact .kept hstore
    | failed => exact .kept hstore
    | counted hid hmoves hmoved => exact .moved hout hid hmoves (hstore ▸ hmoved)

/-- An expression is stored and leaves its first pass behind. -/
theorem accept_submitted (hquiet : v.server.site.outages.Quiet) (owner text : String) :
    ∃ site : Site, site.outages.Quiet ∧ Store.Submitted text v.store site.store ∧
      v.accept owner text = { v.onSite site with
        jobs := v.jobs ++ [.schedule (v.store.lastExpression + 1) text] } := by
  obtain ⟨site, hquiet', hsubmitted, hperform⟩ := Server.submit_performed hquiet owner text
  refine ⟨site, hquiet', hsubmitted, ?_⟩
  unfold accept Server.perform
  rw [hperform]
  rfl

end Requests

/-! ## What is done at once -/

section Runs

variable {v : Traffic}

theorem getTask_run (v : Traffic) (request : TaskRequest) :
    ReflTransGen Step v { v with server := (v.server.getTask request).2 } :=
  .single (.lease request)

/-- The answer to a request takes on the job that was left behind. -/
theorem answer_run (v : Traffic) (server : Server) (job : Option Job) :
    ReflTransGen Step { v with server, jobs := v.jobs ++ job.toList }
      { v with server := server.leave job } := by
  cases job with
  | none =>
    rw [Option.toList_none, List.append_nil]
    exact .refl
  | some job =>
    have hstep := @Step.answer { v with server, jobs := v.jobs ++ [job] } v.jobs [] job rfl
    rw [List.append_nil] at hstep
    exact .single hstep

theorem submitResult_run (v : Traffic) (submission : Submission)
    (hnumber : ∀ value, submission.outcome = some (.result value) → value.isNaN = false) :
    ReflTransGen Step v { v with server := (v.server.submitResult submission).2 } := by
  refine .head (.record submission hnumber) ?_
  unfold record Server.submitResult
  rcases v.server.perform (Workers.takeResult submission) with ⟨e | ⟨receipt, job⟩, server⟩
  · exact .refl
  · exact answer_run v server job

theorem submit_run (v : Traffic) (owner text : String) :
    ReflTransGen Step v { v with server := (v.server.submit owner text).2 } := by
  refine .head (.accept owner text) ?_
  unfold accept Server.submit
  rcases v.server.perform (Clients.submit owner text) with ⟨e | ⟨id, job⟩, server⟩
  · exact .refl
  · exact answer_run v server (some job)

/-- What is left of a pass is carried out by the site. -/
theorem pass_run {pass : Pass} {left : Nat} {p : Program Error ExpressionStatus}
    (h : v.running = some ⟨pass, left, p⟩) :
    ReflTransGen Step v
      ((v.onSite (v.server.site.perform p).2).finish pass left (v.server.site.perform p).1) := by
  induction p generalizing v with
  | done result => exact .single (.finish h)
  | ask c next ih =>
    have hrun := ReflTransGen.head (Step.proceed h) (ih _ rfl)
    -- at its end nothing is left of the pass, whatever it was
    cases pass <;> exact hrun

variable (jobs : List Job)

/-- The first passes over the expressions that wait. -/
theorem scheduleAll_run (hands : List (Int × Nat)) (server : Server) :
    ReflTransGen Step ⟨server, jobs, hands, none⟩
      ⟨{ server with site := Server.scheduleAll server.arrivals server.site, arrivals := [] },
        jobs, hands, none⟩ := by
  obtain ⟨site, dispatcher, terms, arrivals, persistent⟩ := server
  induction arrivals generalizing site with
  | nil => exact .refl
  | cons job rest ih =>
    have hfirst := @Step.first
      ⟨⟨site, dispatcher, terms, job :: rest, persistent⟩, jobs, hands, none⟩ [] rest job.1 job.2
      rfl rfl
    exact ((ReflTransGen.single hfirst).trans (pass_run rfl)).trans (ih _)

/-- A hand makes one attempt at its completion, and keeps it for another one if it is to be
repeated. -/
theorem tryPass_run (front back : List (Int × Nat)) (id : Int) (left : Nat) (server : Server) :
    ReflTransGen Step ⟨server, jobs, front ++ (id, left) :: back, none⟩
      (match Dispatcher.tryPass id left server.dispatcher.counts server.site with
      | (verdict, counts, site) =>
        ⟨{ server with site, dispatcher := { server.dispatcher with counts } }, jobs,
          if verdict = .retried then front ++ back ++ [(id, left - 1)] else front ++ back,
          none⟩) := by
  have hafter := @Step.after ⟨server, jobs, front ++ (id, left) :: back, none⟩ front back id left
    rfl rfl
  have hpass := @pass_run
    ⟨server, jobs, front ++ back, some ⟨.after id, left, (Pass.after id).program⟩⟩ (.after id) left
    _ rfl
  exact .head hafter hpass

/-- A hand makes all its attempts at a completion. -/
theorem attempt_run (id : Int) (left : Nat) (server : Server) :
    ReflTransGen Step ⟨server, jobs, [(id, left)], none⟩
      (match Dispatcher.attempt id left server.dispatcher.counts server.site with
      | (counts, site) =>
        ⟨{ server with site, dispatcher := { server.dispatcher with counts } }, jobs, [],
          none⟩) := by
  -- by the attempts that are left: the hand holds the completion again after one that is repeated
  induction left generalizing server with
  | zero =>
    have htry := tryPass_run jobs [] [] id 0 server
    have hverdict : (Dispatcher.tryPass id 0 server.dispatcher.counts server.site).1 ≠ .retried :=
      Verdict.of_zero _
    unfold Dispatcher.attempt
    generalize Dispatcher.tryPass id 0 server.dispatcher.counts server.site = result
      at htry hverdict ⊢
    obtain ⟨verdict, counts, site⟩ := result
    cases verdict with
    | processed | failed => exact htry
    | retried => exact absurd rfl hverdict
  | succ left ih =>
    have htry := tryPass_run jobs [] [] id (left + 1) server
    unfold Dispatcher.attempt
    generalize Dispatcher.tryPass id (left + 1) server.dispatcher.counts server.site = result
      at htry ⊢
    obtain ⟨verdict, counts, site⟩ := result
    cases verdict with
    | processed | failed => exact htry
    | retried => exact htry.trans (ih _)

/-- A hand works off what is in the queue. -/
theorem drain_run (server : Server) :
    ReflTransGen Step ⟨server, jobs, [], none⟩
      (match server.dispatcher.settle server.site with
      | (dispatcher, site) => ⟨{ server with site, dispatcher }, jobs, [], none⟩) := by
  obtain ⟨site, ⟨settings, queue, closed, counts⟩, terms, arrivals, persistent⟩ := server
  induction queue generalizing site counts with
  | nil => exact .refl
  | cons id rest ih =>
    have htake := @Step.take
      ⟨⟨site, ⟨settings, id :: rest, closed, counts⟩, terms, arrivals, persistent⟩, jobs, [], none⟩
      id rest rfl
    have hattempt := attempt_run jobs id (max 1 settings.maxAttempts - 1)
      ⟨site, ⟨settings, rest, closed, counts⟩, terms, arrivals, persistent⟩
    exact ((ReflTransGen.single htake).trans hattempt).trans (ih _ _)

/-- The background work is made of first passes and of passes after completions. -/
theorem settle_run (server : Server) :
    ReflTransGen Step ⟨server, jobs, [], none⟩ ⟨server.settle, jobs, [], none⟩ :=
  (scheduleAll_run jobs [] server).trans (drain_run jobs _)

/-- After the background work nothing is under way. -/
theorem quiescent_settle (server : Server) : Quiescent ⟨server.settle, [], [], none⟩ :=
  ⟨rfl, rfl, rfl, rfl, rfl⟩

end Runs

end Traffic

end Piecework
