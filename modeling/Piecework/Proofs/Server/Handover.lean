import Piecework.Proofs.Schedule.Hands
import Piecework.Proofs.Store.Meets
import Piecework.Server.Basic

/-!
# What the requests of a worker do

A worker asks for a task or hands in an outcome, and the store may fail.

* `getTask_handed`: the worker is given a task that was waiting, or the store stays as it is.
* `submitResult_recorded`: the submission is acknowledged and its task has changed hands, or the
  store stays as it is.
* `submitResult_acknowledged`: a submission for a task in progress is acknowledged, unless the
  store fails.
-/

namespace Piecework

open Store (TaskIs Moves Moved)

/-- The call by which an outcome is recorded. -/
def Outcome.call (taskId : Int) : Outcome → Call
  | .result value => .completeTask taskId value
  | .error _ => .failTask taskId

/-- The state of a task after its outcome was recorded. -/
def Outcome.status : Outcome → TaskStatus
  | .result _ => .done
  | .error _ => .pending

theorem Outcome.status_ne_inProgress (outcome : Outcome) : outcome.status ≠ .inProgress := by
  cases outcome <;> exact nofun

/-- An outcome is recorded for a task in progress. -/
theorem Outcome.status_of_moves {outcome : Outcome} {taskId : Int} {k k' : Task}
    (h : Moves (outcome.call taskId) k k') :
    k.status = .inProgress ∧ k'.status = outcome.status := by
  generalize hc : outcome.call taskId = c at h
  cases h with
  | leased => cases outcome <;> cases hc
  | completed _ _ hst | failed _ _ hst =>
    cases outcome <;> cases hc
    exact ⟨hst, rfl⟩

namespace Server

variable {s : Server}

/-! ## Asking for a task -/

/-- What asking for a task does to the store, by its answer. -/
inductive Handed (s : Store) : Except Error TaskReply → Store → Prop
  | nothing {answer : Except Error TaskReply} : (∀ a, answer ≠ .ok (.task a)) → Handed s answer s
  | task {s' : Store} {k k' : Task} {a : Assignment} : Moves .lease k k' → Moved k k' s s' →
      a.id = k.id → Handed s (.ok (.task a)) s'

/-- What a worker is told, by the reply of the store. -/
def handing (terms : WorkerTerms) : Except StoreError (Option Task) → Except Error TaskReply
  | .ok (some task) => .ok (.task (task.assignment terms.times))
  | .ok none => .ok (.noTask terms.retryAfter)
  | .error e => .error (.store e)

/-- The site answers one call. -/
theorem getTask_eq (r : TaskRequest) : s.getTask r =
    (handing s.terms (s.site.answer .lease).1, { s with site := (s.site.answer .lease).2 }) := by
  have hgive : s.site.perform (Workers.giveTask s.terms) = _ :=
    Site.perform_call .lease _ s.site
  unfold getTask perform
  rw [hgive]
  cases (s.site.answer .lease).1 with
  | error e => rfl
  | ok found => cases found <;> rfl

theorem getTask_handed (hs : s.site.store.WellFormed) (r : TaskRequest) :
    Handed s.site.store (s.getTask r).1 (s.getTask r).2.site.store := by
  rw [getTask_eq]
  obtain ⟨⟨now, found, hreply, heq⟩ | ⟨e, hreply, hstore, -⟩, -⟩ := Site.answer_cases .lease s.site
  · rw [hreply]
    rcases Store.lease_cases hs now with ⟨hnone, -⟩ | ⟨k, shown, kept, s', hsome, hst, hmoved⟩
    · obtain ⟨rfl, hsame⟩ := Prod.mk.inj (Except.ok.inj (heq.symm.trans hnone))
      rw [hsame]
      exact .nothing nofun
    · obtain ⟨rfl, hsame⟩ := Prod.mk.inj (Except.ok.inj (heq.symm.trans hsome))
      rw [← hsame] at hmoved
      exact .task (.leased kept hst) hmoved rfl
  · rw [hreply, hstore]
    exact .nothing nofun

/-! ## Handing in an outcome -/

/-- What recording an outcome does to the store, by the reply. -/
inductive Filed (plans : Outages) (c : Call) (taskId : Int) (s : Store) :
    Except StoreError Bool → Store → Prop
  | stale : ¬TaskIs taskId .inProgress s → Filed plans c taskId s (.ok false) s
  | counted {s' : Store} {k k' : Task} : k.id = taskId → Moves c k k' → Moved k k' s s' →
      Filed plans c taskId s (.ok true) s'
  | failed {e : StoreError} : (plans.next c.method).1 = some e →
      Filed plans c taskId s (.error e) s

theorem complete_filed {site : Site} (hs : site.store.WellFormed) (taskId : Int) (value : Float) :
    Filed site.outages (.completeTask taskId value) taskId site.store
      (site.answer (.completeTask taskId value)).1
      (site.answer (.completeTask taskId value)).2.store := by
  obtain ⟨⟨now, counted, hreply, heq⟩ | ⟨e, hreply, hstore, hcause⟩, -⟩ :=
    Site.answer_cases (.completeTask taskId value) site
  · rw [hreply]
    rcases Store.complete_cases hs now taskId value with
      ⟨hkept, hnone⟩ | ⟨k, kept, s', hdone, rfl, hst, hmoved⟩
    · obtain ⟨rfl, hsame⟩ := Prod.mk.inj ((Except.ok.inj heq).symm.trans hkept)
      rw [hsame]
      exact .stale fun ⟨e, k, hk, hid, hst⟩ => hnone e k hk hid hst
    · obtain ⟨rfl, hsame⟩ := Prod.mk.inj ((Except.ok.inj heq).symm.trans hdone)
      rw [hsame]
      exact .counted rfl (.completed value kept hst) hmoved
  · rw [hreply, hstore]
    exact .failed (hcause.resolve_right fun ⟨now, hrefused⟩ => nomatch hrefused)

theorem fail_filed {site : Site} (hs : site.store.WellFormed) (taskId : Int) :
    Filed site.outages (.failTask taskId) taskId site.store
      (site.answer (.failTask taskId)).1 (site.answer (.failTask taskId)).2.store := by
  obtain ⟨⟨now, counted, hreply, heq⟩ | ⟨e, hreply, hstore, hcause⟩, -⟩ :=
    Site.answer_cases (.failTask taskId) site
  · rw [hreply]
    rcases Store.fail_cases hs now taskId with
      ⟨hkept, hnone⟩ | ⟨k, retries, kept, s', hdone, rfl, hst, hmoved⟩
    · obtain ⟨rfl, hsame⟩ := Prod.mk.inj ((Except.ok.inj heq).symm.trans hkept)
      rw [hsame]
      exact .stale fun ⟨e, k, hk, hid, hst⟩ => hnone e k hk hid hst
    · obtain ⟨rfl, hsame⟩ := Prod.mk.inj ((Except.ok.inj heq).symm.trans hdone)
      rw [hsame]
      exact .counted rfl (.failed retries kept hst) hmoved
  · rw [hreply, hstore]
    exact .failed (hcause.resolve_right fun ⟨now, hrefused⟩ => nomatch hrefused)

theorem leave_site (job : Option Job) (s : Server) : (s.leave job).site = s.site := by
  cases job with
  | none => rfl
  | some job => cases job <;> rfl

/-- What is answered to a submission and the job that is left behind, by the reply of the
store. -/
def filing (taskId : Int) : Except StoreError Bool → Except Error (Receipt × Option Job)
  | .ok counted => .ok (⟨counted⟩, if counted then some (.reschedule taskId) else none)
  | .error e => .error (.store e)

section Filing

variable {site site' : Site} {submission : Submission} {outcome : Outcome}

/-- A submission is answered as its outcome is recorded. -/
theorem takeResult_of_record {reply : Except StoreError Bool}
    (h : site.perform (Workers.record submission.taskId submission.outcome) =
      (reply.mapError .store, site')) :
    site.perform (Workers.takeResult submission) = (filing submission.taskId reply, site') := by
  have htake : site.perform (Workers.takeResult submission) = _ :=
    Site.perform_andThen (Workers.record submission.taskId submission.outcome) _ site
  rw [htake, h]
  cases reply <;> rfl

theorem takeResult_filed (hs : site.store.WellFormed) (hout : submission.outcome = some outcome) :
    ∃ reply, (site.perform (Workers.takeResult submission)).1 = filing submission.taskId reply ∧
      Filed site.outages (outcome.call submission.taskId) submission.taskId site.store reply
        (site.perform (Workers.takeResult submission)).2.store := by
  cases outcome with
  | result value =>
    have hrecord : site.perform (Workers.record submission.taskId submission.outcome) =
        (Except.mapError .store (site.answer (.completeTask submission.taskId value)).1,
          (site.answer (.completeTask submission.taskId value)).2) := by
      rw [hout]
      rfl
    rw [takeResult_of_record hrecord]
    exact ⟨_, rfl, complete_filed hs submission.taskId value⟩
  | error message =>
    have hrecord : site.perform (Workers.record submission.taskId submission.outcome) =
        (Except.mapError .store (site.answer (.failTask submission.taskId)).1,
          (site.answer (.failTask submission.taskId)).2) := by
      rw [hout]
      rfl
    rw [takeResult_of_record hrecord]
    exact ⟨_, rfl, fail_filed hs submission.taskId⟩

end Filing

/-- The answer to a submission leaves its job to the dispatcher. -/
theorem submitResult_answer (s : Server) (submission : Submission) :
    (s.submitResult submission).1 =
        (s.site.perform (Workers.takeResult submission)).1.map Prod.fst ∧
      (s.submitResult submission).2.site = (s.site.perform (Workers.takeResult submission)).2 := by
  unfold submitResult perform
  rcases s.site.perform (Workers.takeResult submission) with ⟨e | ⟨receipt, job⟩, site⟩
  · exact ⟨rfl, rfl⟩
  · exact ⟨rfl, leave_site job _⟩

theorem submitResult_filed (hs : s.site.store.WellFormed) {submission : Submission}
    {outcome : Outcome} (hout : submission.outcome = some outcome) :
    ∃ reply, (s.submitResult submission).1 = (filing submission.taskId reply).map Prod.fst ∧
      Filed s.site.outages (outcome.call submission.taskId) submission.taskId s.site.store reply
        (s.submitResult submission).2.site.store := by
  obtain ⟨hanswer, hsite⟩ := submitResult_answer s submission
  obtain ⟨reply, hreply, hfiled⟩ := takeResult_filed hs hout
  rw [hanswer, hsite, hreply]
  exact ⟨reply, rfl, hfiled⟩

/-- A submission that is not acknowledged changes nothing, and one that is has its outcome
recorded. -/
theorem submitResult_recorded (hs : s.site.store.WellFormed) (submission : Submission) :
    ((s.submitResult submission).1 ≠ .ok ⟨true⟩ ∧
        (s.submitResult submission).2.site.store = s.site.store) ∨
      ((s.submitResult submission).1 = .ok ⟨true⟩ ∧ ∃ outcome k k',
        submission.outcome = some outcome ∧ k.id = submission.taskId ∧
          Moves (outcome.call submission.taskId) k k' ∧
          Moved k k' s.site.store (s.submitResult submission).2.site.store) := by
  cases hout : submission.outcome with
  | none =>
    obtain ⟨taskId, agent, outcome⟩ := submission
    cases hout
    exact .inl ⟨nofun, rfl⟩
  | some outcome =>
    obtain ⟨reply, hanswer, hfiled⟩ := submitResult_filed hs hout
    rw [hanswer]
    generalize (s.submitResult submission).2.site.store = s' at hfiled ⊢
    cases hfiled with
    | stale => exact .inl ⟨nofun, rfl⟩
    | failed => exact .inl ⟨nofun, rfl⟩
    | @counted _ k k' hid hmoves hmoved =>
      exact .inr ⟨rfl, outcome, k, k', rfl, hid, hmoves, hmoved⟩

/-- Only the store can keep a submission for a task in progress from being acknowledged. -/
theorem submitResult_acknowledged (hs : s.site.store.WellFormed) {submission : Submission}
    {outcome : Outcome} (hout : submission.outcome = some outcome)
    (hprogress : TaskIs submission.taskId .inProgress s.site.store)
    (hpasses : (s.site.outages.next (outcome.call submission.taskId).method).1 = none) :
    (s.submitResult submission).1 = .ok ⟨true⟩ := by
  obtain ⟨reply, hanswer, hfiled⟩ := submitResult_filed hs hout
  rw [hanswer]
  generalize (s.submitResult submission).2.site.store = s' at hfiled
  cases hfiled with
  | stale hnone => exact absurd hprogress hnone
  | counted => rfl
  | failed hplanned =>
    rw [hpasses] at hplanned
    cases hplanned

/-- The store changes by one call at most. -/
theorem submitResult_elsewhere (hs : s.site.store.WellFormed) (submission : Submission) :
    ∃ c, Store.Elsewhere c s.site.store (s.submitResult submission).2.site.store := by
  rcases submitResult_recorded hs submission with
    ⟨-, hsame⟩ | ⟨-, outcome, k, k', -, -, hmoves, hmoved⟩
  · rw [hsame]
    exact ⟨.lease, .kept⟩
  · exact ⟨_, .moved hmoves hmoved⟩

theorem Handed.elsewhere {s s' : Store} {answer : Except Error TaskReply} (h : Handed s answer s') :
    Store.Elsewhere .lease s s' := by
  cases h with
  | nothing => exact .kept
  | task hmoves hmoved => exact .moved hmoves hmoved

end Server

end Piecework
