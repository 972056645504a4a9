import Piecework.Proofs.Server.Workload

/-!
# Completing every expression

An agent that is run once, followed by the passes that it leaves behind, works off one
operation or finds that nothing is left: `AtWork.runAgent`.  So as many iterations complete
a task as there are operations, and then every expression shows its value:
`runAgents_completes`.
-/

namespace Piecework

open Schedule

/-! ## Iterations -/

/-- An agent that is given a task hands in what it has computed. -/
theorem Agent.runOnce_task {S : Type} {peer : Peer S} {agent : String} {s s1 s2 : S}
    {a : Assignment}
    {receipt : Receipt} (hget : peer.getTask ⟨agent⟩ s = (.ok (.task a), s1))
    (hsubmit : peer.submit (a.submission agent)
      (peer.wait (Agenda.span a.operationTime.toNat) s1) = (.ok receipt, s2)) :
    Agent.runOnce peer agent s = (.ok (.ofOutcome a.id a.outcome), s2) := by
  unfold Agent.runOnce
  rw [hget]
  dsimp only
  rw [hsubmit]

namespace Server

/-- Runs agents one after the other, settling after each of them. -/
def runAgents : List String → Server → List (Except Error Iteration) × Server
  | [], s => ([], s)
  | agent :: rest, s =>
    let (iteration, s) := s.runAgent agent
    let (others, s) := runAgents rest s
    (iteration :: others, s)

/-- What a worker is told, by what was found for it. -/
def offer (terms : WorkerTerms) : Option Task → TaskReply
  | some task => .task (task.assignment terms.times)
  | none => .noTask terms.retryAfter

/-- Nothing waits to be done in the background, and no failure is ahead. -/
structure AtRest (s : Server) : Prop where
  quiet : s.site.outages.Quiet
  arrivals : s.arrivals = []
  queue : s.dispatcher.queue = []
  isOpen : s.dispatcher.closed = false

section Iterations

variable {s : Server} {k : Task} {value : Float}

/-- A worker that asks for a task gets one that waits, or learns that none does. -/
theorem getTask_cases (hs : s.site.store.WellFormed) (hquiet : s.site.outages.Quiet)
    (r : TaskRequest) :
    ∃ site : Site, site.outages.Quiet ∧
      (site.store = s.site.store ∧ (∀ e, ∀ k ∈ s.site.store.tasksOf e, k.status ≠ .pending) ∧
          s.getTask r = (.ok (.noTask s.terms.retryAfter), { s with site }) ∨
        ∃ k k1, Store.Moves .lease k k1 ∧ Store.Moved k k1 s.site.store site.store ∧
          s.getTask r = (.ok (.task (k1.assignment s.terms.times)), { s with site })) := by
  have hanswers : ∀ now, ∃ a s', s.site.store.answer now .lease = .ok (a, s') := by
    intro now
    rcases Store.lease_cases hs now with ⟨hnone, -⟩ | ⟨k, shown, kept, s', hsome, -⟩
    · exact ⟨_, _, hnone⟩
    · exact ⟨_, _, hsome⟩
  have hoffer : Workers.giveTask s.terms =
      (liftM (Program.call .lease) : Program Error (Option Task)) >>=
        fun found => pure (offer s.terms found) :=
    congrArg _ (funext fun found => by cases found <;> rfl)
  obtain ⟨now, found, site, hquiet', heq, hperform⟩ := Site.perform_answered (c := .lease)
    (fun found => pure (offer s.terms found)) hquiet hanswers
  have hgive : s.site.perform (Workers.giveTask s.terms) = (.ok (offer s.terms found), site) :=
    hoffer ▸ hperform
  refine ⟨site, hquiet', ?_⟩
  unfold getTask perform
  rw [hgive]
  rcases Store.lease_cases hs now with
    ⟨hnone, hpending⟩ | ⟨k, shown, kept, s', hsome, hstatus, hmoved⟩
  · obtain ⟨rfl, hstore⟩ := Prod.mk.inj (Except.ok.inj (heq.symm.trans hnone))
    exact .inl ⟨hstore, hpending, rfl⟩
  · obtain ⟨rfl, hstore⟩ := Prod.mk.inj (Except.ok.inj (heq.symm.trans hsome))
    rw [← hstore] at hmoved
    exact .inr ⟨k, _, .leased kept hstatus, hmoved, rfl⟩

/-- The value of a task in progress is recorded, and the pass after it is queued. -/
theorem submitResult_inProgress (hs : s.site.store.WellFormed) (hquiet : s.site.outages.Quiet)
    {e : Int}
    (hk : k ∈ s.site.store.tasksOf e) (hstatus : k.status = .inProgress) (agent : String)
    (value : Float) :
    ∃ site : Site, site.outages.Quiet ∧
      (∃ k2, Store.Moves (.completeTask k.id value) k k2 ∧
        Store.Moved k k2 s.site.store site.store) ∧
      s.submitResult ⟨k.id, agent, some (.result value)⟩ =
        (.ok ⟨true⟩, { s with site, dispatcher := (s.dispatcher.notify k.id).2 }) := by
  obtain ⟨now, counted, site, hquiet', heq, hperform⟩ := Site.perform_answered
    (c := .completeTask k.id value)
    (fun counted => pure (Receipt.mk counted, if counted then some (Job.reschedule k.id) else none))
    hquiet fun now => ⟨_, _, rfl⟩
  have htake : s.site.perform (Workers.takeResult ⟨k.id, agent, some (.result value)⟩) =
      (.ok (⟨counted⟩, if counted then some (.reschedule k.id) else none), site) := hperform
  have hanswer : s.site.store.complete now k.id value = (counted, site.store) := Except.ok.inj heq
  rcases Store.complete_cases hs now k.id value with
    ⟨-, hnone⟩ | ⟨k', kept, s', hdone, hid, hst, hmoved⟩
  · exact absurd hstatus (hnone e k hk rfl)
  · obtain ⟨rfl, hstore⟩ := Prod.mk.inj (hanswer.symm.trans hdone)
    have hsame : k' = k := hs.eq_of_task_id hmoved.mem hk hid
    subst hsame
    rw [← hstore] at hmoved
    refine ⟨site, hquiet', ⟨_, .completed value kept hst, hmoved⟩, ?_⟩
    unfold submitResult perform
    rw [htake]
    rfl

/-- The pass for the only completion in the queue ends the background work. -/
theorem settle_one {id : Int} {st : ExpressionStatus} (harrivals : s.arrivals = [])
    (hqueue : s.dispatcher.queue = [id]) (hok : (s.site.perform (passAfter id)).1 = .ok st) :
    ∃ counts, s.settle = { s with
      site := (s.site.perform (passAfter id)).2
      dispatcher := { s.dispatcher with queue := [], counts }
      arrivals := [] } := by
  obtain ⟨site, hperform⟩ : ∃ site, s.site.perform (passAfter id) = (.ok st, site) :=
    ⟨_, Prod.ext hok rfl⟩
  have hattempt : ∀ left counts, Dispatcher.attempt id left counts s.site =
      (counts.count .processed, site) := by
    intro left counts
    unfold Dispatcher.attempt Dispatcher.tryPass
    rw [hperform]
    rfl
  refine ⟨s.dispatcher.counts.count .processed, ?_⟩
  unfold settle Dispatcher.settle
  rw [harrivals, hqueue, hperform]
  simp only [scheduleAll, Dispatcher.drain, hattempt]

/-- Nothing is left to be done in the background. -/
theorem settle_none (harrivals : s.arrivals = []) (hqueue : s.dispatcher.queue = []) :
    s.settle = s := by
  obtain ⟨site, ⟨settings, queue, closed, counts⟩, terms, arrivals, persistent⟩ := s
  cases harrivals
  cases hqueue
  rfl

/-- An open dispatcher queues a completion; the pass for it leaves nothing but a count. -/
theorem notify_isOpen {d : Dispatcher} (id : Int) (hopen : d.closed = false)
    (hqueue : d.queue = []) :
    (d.notify id).2.queue = [id] ∧
      ∀ counts, { (d.notify id).2 with queue := [], counts } = { d with counts } := by
  obtain ⟨settings, queue, closed, counts⟩ := d
  cases hopen
  cases hqueue
  exact ⟨rfl, fun _ => rfl⟩

/-- An agent computes what a task says. -/
theorem outcome_eq (times : OperationTimes)
    (hvalue : k.operator.apply k.operand1 k.operand2 = .ok value) :
    (k.assignment times).outcome = .result value := by
  have hcompute : compute (k.assignment times).operator (k.assignment times).operand1
      (k.assignment times).operand2 = .ok value := by
    change compute k.operator.symbol k.operand1 k.operand2 = .ok value
    rw [compute, Operator.ofSymbol_symbol]
    exact hvalue
  rw [Assignment.outcome, hcompute]

/-- What an agent does with a task that it is given. -/
theorem runAgent_completed (hrest : s.AtRest) {agent : String} {site1 site2 : Site}
    {st : ExpressionStatus}
    (hget : s.getTask ⟨agent⟩ =
      (.ok (.task (k.assignment s.terms.times)), { s with site := site1 }))
    (hvalue : k.operator.apply k.operand1 k.operand2 = .ok value)
    (hsubmit : submitResult ⟨k.id, agent, some (.result value)⟩ { s with site := site1 } =
      (.ok ⟨true⟩, { s with site := site2, dispatcher := (s.dispatcher.notify k.id).2 }))
    (hok : (site2.perform (passAfter k.id)).1 = .ok st) :
    ∃ counts, s.runAgent agent = (.ok (.completed k.id value), { s with
      site := (site2.perform (passAfter k.id)).2
      dispatcher := { s.dispatcher with counts } }) := by
  have honce : Agent.runOnce peer agent s = (.ok (.completed k.id value),
      { s with site := site2, dispatcher := (s.dispatcher.notify k.id).2 }) := by
    have hsubmission : (k.assignment s.terms.times).submission agent =
        ⟨k.id, agent, some (.result value)⟩ := by
      rw [Assignment.submission, outcome_eq s.terms.times hvalue]
      rfl
    have honce : Agent.runOnce peer agent s =
        (.ok (.ofOutcome k.id (k.assignment s.terms.times).outcome), _) :=
      Agent.runOnce_task hget (by rw [hsubmission]; exact hsubmit)
    rw [outcome_eq s.terms.times hvalue] at honce
    exact honce
  obtain ⟨hqueue, hdispatcher⟩ := notify_isOpen k.id hrest.isOpen hrest.queue
  obtain ⟨counts, hsettle⟩ := settle_one
    (s := { s with site := site2, dispatcher := (s.dispatcher.notify k.id).2 })
    hrest.arrivals hqueue hok
  refine ⟨counts, ?_⟩
  unfold runAgent
  rw [honce]
  dsimp only
  rw [hsettle]
  dsimp only
  rw [hdispatcher, hrest.arrivals]

/-- An agent that finds no task. -/
theorem runAgent_idle (hrest : s.AtRest) {agent : String} {site : Site}
    (hget : s.getTask ⟨agent⟩ = (.ok (.noTask s.terms.retryAfter), { s with site })) :
    s.runAgent agent = (.ok (.idle s.terms.retryAfter), { s with site }) := by
  have honce : Agent.runOnce peer agent s = (.ok (.idle s.terms.retryAfter), { s with site }) := by
    have hget' : peer.getTask ⟨agent⟩ s = _ := hget
    unfold Agent.runOnce
    rw [hget']
  unfold runAgent
  rw [honce]
  dsimp only
  rw [settle_none (s := { s with site }) hrest.arrivals hrest.queue]

end Iterations

section Work

variable {base : Int} {work : List (Int × Tree)} {s : Server}

/-- What holds of the server between two iterations. -/
structure AtWork (base : Int) (work : List (Int × Tree)) (s : Server) : Prop where
  rest : s.AtRest
  inHand : InHand base work s.site.store

/-- If no task waits, nothing is left. -/
theorem AtWork.idle (h : AtWork base work s) {site : Site} (hquiet : site.outages.Quiet)
    (hstore : site.store = s.site.store)
    (hnone : ∀ e, ∀ k ∈ s.site.store.tasksOf e, k.status ≠ .pending) :
    AtWork base work { s with site } ∧ s.site.store.left work = 0 ∧ site.store.left work = 0 := by
  have hzero := h.inHand.left_eq_zero hnone
  refine ⟨⟨⟨hquiet, h.rest.arrivals, h.rest.queue, h.rest.isOpen⟩, ?_⟩, hzero, hstore ▸ hzero⟩
  show InHand base work site.store
  rw [hstore]
  exact h.inHand

/-- If a task waits, it is worked off. -/
theorem AtWork.completed (h : AtWork base work s) {agent : String} {site1 : Site} {k k1 : Task}
    (hquiet1 : site1.outages.Quiet) (hlease : Store.Moves .lease k k1)
    (hleased : Store.Moved k k1 s.site.store site1.store)
    (hget : s.getTask ⟨agent⟩ =
      (.ok (.task (k1.assignment s.terms.times)), { s with site := site1 })) :
    ∃ s', AtWork base work s' ∧ s'.terms = s.terms ∧
      s'.site.store.left work + 1 = s.site.store.left work ∧
      ∃ id v, s.runAgent agent = (.ok (.completed id v), s') := by
  have hs1 : Sound (.newer base) site1.store := h.inHand.sound.elsewhere (.moved hlease hleased)
  obtain ⟨value, hvalue⟩ := h.inHand.exists_value hleased.mem hlease.pending
  have hlater := hlease.later
  have hvalue1 : k1.operator.apply k1.operand1 k1.operand2 = .ok value := by
    rw [hlater.operator, hlater.operand1, hlater.operand2]
    exact hvalue
  obtain ⟨site2, hquiet2, ⟨k2, hcomplete, hcompleted⟩, hsubmit⟩ :=
    submitResult_inProgress (s := { s with site := site1 }) hs1.wellFormed hquiet1
      hleased.tasksOf.mem_new hlease.inProgress agent value
  have hworked : Worked k value s.site.store site2.store :=
    ⟨k1, k2, site1.store, hlease, hleased, hcomplete, hcompleted⟩
  obtain ⟨⟨st, hok⟩, hquiet3, hinHand, hleft⟩ := h.inHand.worked hworked hvalue hquiet2
  rw [← hlater.id] at hok hquiet3 hinHand hleft
  obtain ⟨counts, hrun⟩ := runAgent_completed h.rest hget hvalue1 hsubmit hok
  refine ⟨{ s with
    site := (site2.perform (passAfter k1.id)).2
    dispatcher := { s.dispatcher with counts } }, ⟨⟨hquiet3, ?_, ?_, ?_⟩, hinHand⟩, rfl, hleft,
    _, _, hrun⟩
  · exact h.rest.arrivals
  · exact h.rest.queue
  · exact h.rest.isOpen

/-- An iteration works off one operation, or nothing is left. -/
theorem AtWork.runAgent (h : AtWork base work s) (agent : String) :
    ∃ s', AtWork base work s' ∧ s'.terms = s.terms ∧
      (s.site.store.left work = 0 ∧ s'.site.store.left work = 0 ∧
          s.runAgent agent = (.ok (.idle s.terms.retryAfter), s') ∨
        s'.site.store.left work + 1 = s.site.store.left work ∧
          ∃ id v, s.runAgent agent = (.ok (.completed id v), s')) := by
  obtain ⟨site, hquiet, ⟨hstore, hnone, hget⟩ | ⟨k, k1, hlease, hleased, hget⟩⟩ :=
    getTask_cases h.inHand.sound.wellFormed h.rest.quiet ⟨agent⟩
  · obtain ⟨h', hzero, hzero'⟩ := h.idle hquiet hstore hnone
    exact ⟨_, h', rfl, .inl ⟨hzero, hzero', runAgent_idle h.rest hget⟩⟩
  · obtain ⟨s', h', hterms, hleft, hrun⟩ := h.completed hquiet hlease hleased hget
    exact ⟨s', h', hterms, .inr ⟨hleft, hrun⟩⟩

/-- The iteration completed a task. -/
def IsCompleted (iteration : Except Error Iteration) : Prop :=
  ∃ id v, iteration = .ok (.completed id v)

/-- As many iterations complete a task as there are operations left, and the later ones find
none. -/
theorem AtWork.runAgents (h : AtWork base work s) (agents : List String) :
    (∀ i ∈ (s.runAgents agents).1.take (s.site.store.left work), IsCompleted i) ∧
      (∀ i ∈ (s.runAgents agents).1.drop (s.site.store.left work),
        i = .ok (.idle s.terms.retryAfter)) ∧
      AtWork base work (s.runAgents agents).2 ∧
      (s.runAgents agents).2.site.store.left work = s.site.store.left work - agents.length := by
  induction agents generalizing s with
  | nil => exact ⟨by simp [Server.runAgents], by simp [Server.runAgents], h, rfl⟩
  | cons agent rest ih =>
    obtain ⟨s', h', hterms, hcase⟩ := h.runAgent agent
    obtain ⟨hcompleted, hidle, hwork, hleft⟩ := ih h'
    rw [hterms] at hidle
    rcases hcase with ⟨hzero, hzero', hiteration⟩ | ⟨hone, id, v, hiteration⟩
    · have hrun : s.runAgents (agent :: rest) =
          (.ok (.idle s.terms.retryAfter) :: (s'.runAgents rest).1, (s'.runAgents rest).2) := by
        rw [Server.runAgents, hiteration]
      rw [hzero', List.drop_zero] at hidle
      rw [hrun, hzero]
      refine ⟨by simp, fun i hi => ?_, hwork, ?_⟩
      · rcases List.mem_cons.1 hi with rfl | hi
        · rfl
        · exact hidle i hi
      · show (s'.runAgents rest).2.site.store.left work = _
        omega
    · have hrun : s.runAgents (agent :: rest) =
          (.ok (.completed id v) :: (s'.runAgents rest).1, (s'.runAgents rest).2) := by
        rw [Server.runAgents, hiteration]
      rw [hrun, ← hone, List.take_succ_cons, List.drop_succ_cons]
      refine ⟨fun i hi => ?_, hidle, hwork, ?_⟩
      · rcases List.mem_cons.1 hi with rfl | hi
        · exact ⟨id, v, rfl⟩
        · exact hcompleted i hi
      · show (s'.runAgents rest).2.site.store.left work = _
        rw [List.length_cons]
        omega

end Work

/-! ## From submissions to results -/

/-- The store has no task to give away, and nobody works on one. -/
def HasNoTasks (s : Store) : Prop :=
  ∀ r ∈ s.tasks, r.isIn .pending = false ∧ r.isIn .inProgress = false

/-- Expressions with their trees. -/
def workOf (jobs : List (Int × String)) (trees : List Tree) : List (Int × Tree) :=
  (jobs.zip trees).map fun p => (p.1.1, p.2)

section Results

variable {jobs arrivals : List (Int × String)} {trees : List Tree} {base : Int} {s : Store}

theorem HasNoTasks.allTasks (h : HasNoTasks s) (hs : s.WellFormed) :
    s.AllTasks fun k => k.status = .done := by
  intro e k hk
  obtain ⟨r, hr, -, hread⟩ := Store.mem_tasksOf.1 hk
  have hvalid := hs.tasks r hr
  obtain ⟨hpending, hprogress⟩ := h r hr
  cases hstatus : k.status with
  | pending =>
    rw [(hvalid.isIn_iff hread .pending).2 hstatus] at hpending
    cases hpending
  | inProgress =>
    rw [(hvalid.isIn_iff hread .inProgress).2 hstatus] at hprogress
    cases hprogress
  | done => rfl

theorem map_fst_workOf (h : jobs.length = trees.length) :
    (workOf jobs trees).map Prod.fst = jobs.map Prod.fst := by
  have hzip : (jobs.zip trees).map Prod.fst = jobs := List.map_fst_zip (Nat.le_of_eq h)
  rw [workOf, List.map_map]
  conv => rhs; rw [← hzip, List.map_map]
  rfl

/-- Each expression of the list was submitted, and its text parses to its tree. -/
theorem exists_job_of_mem_workOf
    (hparse : List.Forall₂ (fun job t => Expr.parse job.2 = .ok t) jobs trees)
    {w : Int × Tree} (hw : w ∈ workOf jobs trees) :
    ∃ job ∈ jobs, job.1 = w.1 ∧ w.2 ∈ trees ∧ Expr.parse job.2 = .ok w.2 := by
  obtain ⟨⟨job, t⟩, hp, rfl⟩ := List.mem_map.1 hw
  obtain ⟨hjob, ht⟩ := List.of_mem_zip hp
  exact ⟨job, hjob, rfl, ht, (List.forall₂_iff_zip.1 hparse).2 hp⟩

/-- A task of expressions that were just taken. -/
theorem Taken.resting (h : Taken base jobs arrivals s) :
    s.AllTasks (Resting (jobs.map Prod.fst)) := by
  intro e k hk
  rcases h.tasks e k hk with ⟨hdone, hle⟩ | ⟨hpending, hnewer⟩
  · refine ⟨by rw [hdone]; decide, fun hmem => ?_, fun _ => hdone⟩
    obtain ⟨job, hjob, hid⟩ := List.mem_map.1 hmem
    have hnewer := h.known.newer job hjob
    omega
  · have hunfinished : k.status ≠ .done := by
      rw [hpending]
      decide
    refine ⟨by rw [hpending]; decide, fun _ => ?_, fun hnot => ?_⟩
    · exact ⟨Task.exact_of_unfinished hunfinished, Task.answered_of_unfinished hunfinished⟩
    · obtain ⟨r, hr, hid⟩ := h.sound.wellFormed.exists_parent hk
      rw [Store.expressionId_of_mem hk] at hnewer hnot
      rw [← hid] at hnewer hnot
      exact absurd (h.known.only r hr hnewer) hnot

/-- When the first passes were made, the work can begin. -/
theorem Taken.inHand (h : Taken base jobs [] s)
    (hparse : List.Forall₂ (fun job t => Expr.parse job.2 = .ok t) jobs trees)
    (hvalue : ∀ t ∈ trees, ∃ v, t.evaluate = .ok v) : InHand base (workOf jobs trees) s := by
  have hids := map_fst_workOf hparse.length_eq
  refine ⟨h.sound, hids ▸ h.known.unique, fun w hw => ?_, fun w hw => ?_, hids ▸ h.resting,
    fun w hw => ?_⟩ <;> obtain ⟨job, hjob, hid, ht, hp⟩ := exists_job_of_mem_workOf hparse hw
  · rw [← hid]
    exact h.known.newer job hjob
  · exact hvalue w.2 ht
  · obtain ⟨r, hr, hrid, hsource⟩ := h.known.row job hjob
    have hparses : r.Parses w.2 := by
      rw [ExpressionRow.Parses, hsource, Expr.columnText_of_parse hp]
      exact hp
    exact ⟨r, hr, hrid.trans hid, hparses, h.settled job hjob (by simp) r hr hrid w.2 hparses⟩

end Results

/-- Making the first passes that wait is one way to take expressions. -/
theorem Intake.settle {s s' : Server} {jobs : List (Int × String)} (h : Intake s jobs s')
    (hqueue : s'.dispatcher.queue = []) : Intake s jobs s'.settle := by
  have hall : ∀ (arrivals : List (Int × String)) (site : Site),
      Intake s jobs { s' with site, arrivals } →
      Intake s jobs { s' with site := scheduleAll arrivals site, arrivals := [] } := by
    intro arrivals
    induction arrivals with
    | nil => exact fun site h => h
    | cons job rest ih =>
      intro site h
      exact ih _ (.schedule h (show job :: rest = [] ++ (job.1, job.2) :: rest from rfl))
  have hsettle : s'.settle =
      { s' with site := scheduleAll s'.arrivals s'.site, arrivals := [] } := by
    obtain ⟨site, ⟨settings, queue, closed, counts⟩, terms, arrivals, persistent⟩ := s'
    cases hqueue
    rfl
  rw [hsettle]
  exact hall _ _ h

end Server

end Piecework
