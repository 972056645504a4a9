import Piecework.Proofs.Server.Crew

/-!
# Submissions that are delivered again

A submission may reach the server more than once, with anything in between.  What keeps a
second delivery from doing anything is the state of the task: a delivery is acknowledged only
while the task is in progress, and after that it is not in progress any more.  A result
finishes the task for good.  An error puts it back, and the next lease opens the way for the
same error again, since the store does not know whose lease a submission belongs to.

`acknowledged_again` says both: a delivery that is not acknowledged changes no task, and between
two that are acknowledged the task was leased again, and the outcome is an error.
-/

namespace Piecework.System

open Store (TaskIs Moves)

/-- The task that a request was answered with. -/
def handed : Except Error TaskReply → List Int
  | .ok (.task a) => [a.id]
  | _ => []

/-- What may happen between two deliveries, with the tasks that were leased: anything but the
loss of the store. -/
inductive Between : System → List Int → System → Prop
  | refl (y : System) : Between y [] y
  | lease {y y' : System} {leased : List Int} {server : Server} (request : TaskRequest) :
      Between y leased y' → server.site.store = y'.store →
      Between y (leased ++ handed (server.getTask request).1)
        { y' with store := (server.getTask request).2.site.store }
  | event {y y' y'' : System} {leased : List Int} {event : Event} : Between y leased y' →
      event ≠ .lose → event ≠ .serve .lease → Step True y' event y'' → Between y leased y''

/-- The system after a delivery to a server with its store. -/
def delivered (y : System) (submission : Submission) (server : Server) : System :=
  { y with store := (server.submitResult submission).2.site.store }

variable {y y' : System} {leased : List Int} {id : Int} {server : Server}

theorem Sound.delivered (h : y.Sound True) (hstore : server.site.store = y.store)
    (submission : Submission) : (y.delivered submission server).Sound True := by
  obtain ⟨c, he⟩ := Server.submitResult_elsewhere (hstore ▸ h.store.wellFormed) submission
  rw [hstore] at he
  exact h.elsewhere he

theorem Sound.handed (h : y.Sound True) (hstore : server.site.store = y.store)
    (request : TaskRequest) : Server.Handed y.store (server.getTask request).1
      (server.getTask request).2.site.store := by
  rw [← hstore]
  exact Server.getTask_handed (hstore ▸ h.store.wellFormed) request

/-! ## Between two deliveries -/

theorem Between.sound (h : Between y leased y') (hsound : y.Sound True) : y'.Sound True := by
  induction h with
  | refl => exact hsound
  | event _ _ _ hstep ih => exact ih.step hstep
  | lease request _ hstore ih => exact ih.elsewhere (ih.handed hstore request).elsewhere

/-- A finished task stays finished. -/
theorem Between.done (h : Between y leased y') (hsound : y.Sound True)
    (hdone : TaskIs id .done y.store) : TaskIs id .done y'.store := by
  induction h with
  | refl => exact hdone
  | lease request hbetween hstore ih =>
    have hhanded := (hbetween.sound hsound).handed hstore request
    exact ih.done_meanwhile hhanded.elsewhere.meanwhile
  | @event y' y'' _ event hbetween hlose _ hstep ih =>
    have hchanged := (hbetween.sound hsound).changed hstep
    generalize y''.store = s at hchanged ⊢
    cases hchanged with
    | kept => exact ih
    | elsewhere he => exact ih.done_meanwhile he.meanwhile
    | effect _ he => exact he.taskIs ih
    | lost => exact absurd rfl hlose

/-- A task that nobody works on stays so until it is leased. -/
theorem Between.not_inProgress (h : Between y leased y') (hsound : y.Sound True)
    (hfree : ¬TaskIs id .inProgress y.store) (hleased : id ∉ leased) :
    ¬TaskIs id .inProgress y'.store := by
  induction h with
  | refl => exact hfree
  | @lease y' leased server request hbetween hstore ih =>
    rw [List.mem_append, not_or] at hleased
    have hfree' := ih hleased.1
    have hhanded := (hbetween.sound hsound).handed hstore request
    replace hleased := hleased.2
    show ¬TaskIs id .inProgress (server.getTask request).2.site.store
    generalize (server.getTask request).2.site.store = s at hhanded ⊢
    generalize (server.getTask request).1 = answer at hhanded hleased
    cases hhanded with
    | nothing => exact hfree'
    | task hmoves hmoved hid =>
      refine fun hprogress => hfree' (hprogress.of_moved hmoved ?_)
      rw [hmoves.later.id, ← hid]
      exact fun heq => hleased (List.mem_singleton.2 heq.symm)
  | @event y' y'' _ event hbetween _ hlease hstep ih =>
    have hfree' := ih hleased
    have hchanged := (hbetween.sound hsound).changed hstep
    generalize y''.store = s at hchanged ⊢
    cases hchanged with
    | kept => exact hfree'
    | @elsewhere c _ he =>
      have hc : c ≠ .lease := by
        rintro rfl
        exact hlease rfl
      exact fun hprogress => hfree' (he.taskIs_of_inProgress hc hprogress)
    | effect _ he => exact fun hprogress => hfree' (he.taskIs_of_inProgress hprogress)
    | lost =>
      rintro ⟨e, k, hk, -⟩
      cases hk

/-! ## Deliveries -/

/-- The task of a submission that is acknowledged was in progress. -/
theorem Sound.inProgress_of_acknowledged (h : y.Sound True) (hstore : server.site.store = y.store)
    {submission : Submission} (hack : (server.submitResult submission).1 = .ok ⟨true⟩) :
    TaskIs submission.taskId .inProgress y.store := by
  rcases Server.submitResult_recorded (hstore ▸ h.store.wellFormed) submission with
    ⟨hnot, -⟩ | ⟨-, outcome, k, k', -, hid, hmoves, hmoved⟩
  · exact absurd hack hnot
  · rw [hstore] at hmoved
    have htask := hmoved.taskIs
    rwa [hid, (Outcome.status_of_moves hmoves).1] at htask

/-- After an acknowledgement nobody works on the task.  After that of a result it is finished. -/
theorem Sound.after_acknowledged (h : y.Sound True) (hstore : server.site.store = y.store)
    {submission : Submission} (hack : (server.submitResult submission).1 = .ok ⟨true⟩) :
    ¬TaskIs submission.taskId .inProgress (y.delivered submission server).store ∧
      ((∃ message, submission.outcome = some (.error message)) ∨
        TaskIs submission.taskId .done (y.delivered submission server).store) := by
  have hwell := (h.delivered hstore submission).store.wellFormed
  rcases Server.submitResult_recorded (hstore ▸ h.store.wellFormed) submission with
    ⟨hnot, -⟩ | ⟨-, outcome, k, k', hout, hid, hmoves, hmoved⟩
  · exact absurd hack hnot
  · have htask := hmoved.taskIs_new
    rw [hmoves.later.id, hid, (Outcome.status_of_moves hmoves).2] at htask
    refine ⟨fun hprogress => outcome.status_ne_inProgress (htask.unique hprogress hwell), ?_⟩
    cases outcome with
    | result value => exact .inr htask
    | error message => exact .inl ⟨message, hout⟩

/-- A submission is delivered in a state that any run has led to, whoever it comes from.  If it
is not acknowledged, no row of a task changes.  If it is, and is acknowledged once more later,
then its task was leased in between and its outcome is an error. -/
theorem acknowledged_again (h : Run True (fun _ _ => True) start y) (server : Server)
    (hstore : server.site.store = y.store) (submission : Submission) :
    ((server.submitResult submission).1 ≠ .ok ⟨true⟩ →
        (server.submitResult submission).2.site.store.tasks = y.store.tasks) ∧
      ((server.submitResult submission).1 = .ok ⟨true⟩ →
        ∀ (y' : System) (leased : List Int) (server' : Server),
          Between (y.delivered submission server) leased y' →
          server'.site.store = y'.store →
          (server'.submitResult submission).1 = .ok ⟨true⟩ →
          submission.taskId ∈ leased ∧
            ∃ message, submission.outcome = some (.error message)) := by
  have hsound := (sound_start True).run h
  constructor
  · intro hnot
    rcases Server.submitResult_recorded (hstore ▸ hsound.store.wellFormed) submission with
      ⟨-, hsame⟩ | ⟨hack, -⟩
    · rw [hsame, hstore]
    · exact absurd hack hnot
  · intro hack y' leased server' hbetween hstore' hack'
    obtain ⟨hfree, houtcome⟩ := hsound.after_acknowledged hstore hack
    have hdelivered := hsound.delivered hstore submission
    have hagain := (hbetween.sound hdelivered).inProgress_of_acknowledged hstore' hack'
    constructor
    · by_contra hleased
      exact hbetween.not_inProgress hdelivered hfree hleased hagain
    · refine houtcome.resolve_right fun hdone => ?_
      have hlater := hbetween.done hdelivered hdone
      exact absurd (hlater.unique hagain (hbetween.sound hdelivered).store.wellFormed) (by decide)

/-! ## The sum, put back twice -/

/-- An outcome that reaches the server twice. -/
def sumError : Submission := ⟨1, "bob", some (.error "overheated")⟩

/-- The server of the sum when one agent has its task in hand. -/
def sumLeased : Server := (Crew.sumServer.getTask ⟨"bob"⟩).2

/-- The error has put the task back. -/
def sumPutBack : Server := (sumLeased.submitResult sumError).2

/-- Another agent has the task in hand. -/
def sumLeasedAgain : Server := (sumPutBack.getTask ⟨"carol"⟩).2

theorem sumLeased_run :
    Run True (fun _ _ => True) start ⟨sumLeased.site.store, [], none⟩ := by
  have hissued : Run True (fun _ _ => True) start ⟨sumIssued [], [], none⟩ :=
    sumIssued_run (.inl trivial) (fun _ _ _ => trivial) fun _ _ _ => trivial
  rw [sumLeased, Server.getTask_eq]
  exact hissued.trans
    (answer_run (y := ⟨sumIssued [], [], none⟩) Crew.sumServer.site rfl rfl trivial)

theorem sumLeasedAgain_between :
    Between (delivered ⟨sumLeased.site.store, [], none⟩ sumError sumLeased) [1]
      ⟨sumLeasedAgain.site.store, [], none⟩ := by
  have hhanded : [1] = [] ++ handed (sumPutBack.getTask ⟨"carol"⟩).1 := by decide
  rw [hhanded]
  exact .lease ⟨"carol"⟩ (.refl (delivered ⟨sumLeased.site.store, [], none⟩ sumError sumLeased)) rfl

/-- An agent leases the task of the sum once, and its error is delivered twice.  Both
deliveries are acknowledged, and the second one takes the task from the agent that has it in
hand by then. -/
theorem sum_acknowledged_twice :
    Run True (fun _ _ => True) start ⟨sumLeased.site.store, [], none⟩ ∧
      (Crew.sumServer.getTask ⟨"bob"⟩).1 = .ok (.task ⟨1, 1, 2, "+", 0⟩) ∧
      (sumLeased.submitResult sumError).1 = .ok ⟨true⟩ ∧
      (sumPutBack.getTask ⟨"carol"⟩).1 = .ok (.task ⟨1, 1, 2, "+", 0⟩) ∧
      (sumLeasedAgain.submitResult sumError).1 = .ok ⟨true⟩ ∧
      (sumLeasedAgain.submitResult sumError).2.site.store.tasks ≠
        sumLeasedAgain.site.store.tasks :=
  ⟨sumLeased_run, by decide⟩

theorem sum_acknowledged_again :
    (sumLeased.submitResult sumError).1 = .ok ⟨true⟩ ∧
      (sumLeasedAgain.submitResult sumError).1 = .ok ⟨true⟩ ∧
      sumError.taskId ∈ [1] ∧ ∃ message, sumError.outcome = some (.error message) := by
  have hfirst : (sumLeased.submitResult sumError).1 = .ok ⟨true⟩ := by decide
  have hsecond : (sumLeasedAgain.submitResult sumError).1 = .ok ⟨true⟩ := by decide
  obtain ⟨-, hagain⟩ := acknowledged_again sumLeased_run sumLeased rfl sumError
  exact ⟨hfirst, hsecond, hagain hfirst _ _ _ sumLeasedAgain_between rfl hsecond⟩

end Piecework.System
