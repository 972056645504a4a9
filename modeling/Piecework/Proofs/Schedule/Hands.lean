import Piecework.Proofs.Schedule.Standing

/-!
# In whose hands a task is

A task is known by its identifier, and `TaskIs` says in which state it is.  Nobody takes a task
that somebody works on, except by a submission for it; a finished task stays finished; and a
task that nobody works on is taken up by a lease only.

Each of these is stated for a call of somebody else (`Elsewhere`) and for one of a pass
(`Effect`).
-/

namespace Piecework

namespace Store

variable {c : Call} {s s' : Store} {id : Int} {st : TaskStatus} {k k' : Task}

/-- The task with the identifier is in the state. -/
def TaskIs (id : Int) (st : TaskStatus) (s : Store) : Prop :=
  ∃ e, ∃ k ∈ s.tasksOf e, k.id = id ∧ k.status = st

/-- A task is in one state. -/
theorem TaskIs.unique (h : TaskIs id st s) {st' : TaskStatus} (h' : TaskIs id st' s)
    (hs : s.WellFormed) : st = st' := by
  obtain ⟨e, k, hk, hid, rfl⟩ := h
  obtain ⟨e', k', hk', hid', rfl⟩ := h'
  rw [hs.eq_of_task_id hk hk' (hid.trans hid'.symm)]

theorem Moved.taskIs (h : Moved k k' s s') : TaskIs k.id k.status s := ⟨_, k, h.mem, rfl, rfl⟩

theorem Moved.taskIs_new (h : Moved k k' s s') : TaskIs k'.id k'.status s' :=
  ⟨_, k', h.mem_new, rfl, rfl⟩

theorem TaskIs.moved (h : TaskIs id st s) (hmoved : Moved k k' s s') (hne : k.id ≠ id) :
    TaskIs id st s' := by
  obtain ⟨e, k0, hk0, hid, hst⟩ := h
  refine ⟨e, k0, hmoved.mem_of_ne hk0 ?_, hid, hst⟩
  rintro rfl
  exact hne hid

theorem TaskIs.of_moved (h : TaskIs id st s') (hmoved : Moved k k' s s') (hne : k'.id ≠ id) :
    TaskIs id st s := by
  obtain ⟨e, k0, hk0, hid, hst⟩ := h
  rcases hmoved.mem_old hk0 with hold | rfl
  · exact ⟨e, k0, hold, hid, hst⟩
  · exact absurd hid hne

theorem TaskIs.congr (h : TaskIs id st s) (htasks : s'.tasks = s.tasks) : TaskIs id st s' := by
  obtain ⟨e, k, hk, hid, hst⟩ := h
  exact ⟨e, k, by rwa [tasksOf_congr htasks], hid, hst⟩

/-- The row of a task in some state. -/
theorem TaskIs.exists_row (h : TaskIs id st s) (hs : s.WellFormed) :
    ∃ r ∈ s.tasks, r.id = id ∧ r.status = st.name := by
  obtain ⟨e, k, hk, hid, hst⟩ := h
  obtain ⟨r, hr, -, hread⟩ := mem_tasksOf.1 hk
  have hin := ((hs.tasks r hr).isIn_iff hread st).2 hst
  exact ⟨r, hr, (TaskRow.id_of_read hread).symm.trans hid, beq_iff_eq.1 hin⟩

/-- A task in progress stays so until a submission for it comes. -/
theorem Elsewhere.taskIs_inProgress (he : Elsewhere c s s') (hs : s.WellFormed)
    (h : TaskIs id .inProgress s) (hcomplete : ∀ value, c ≠ .completeTask id value)
    (hfail : c ≠ .failTask id) : TaskIs id .inProgress s' := by
  cases he with
  | kept => exact h
  | submitted _ _ hsubmitted => exact h.congr hsubmitted.tasks
  | @moved _ _ _ k k' hmoves hmoved =>
    refine h.moved hmoved ?_
    rintro rfl
    cases hmoves with
    | leased _ hpending => exact absurd (hpending ▸ hmoved.taskIs.unique h hs) (by decide)
    | completed value => exact hcomplete value rfl
    | failed => exact hfail rfl

/-- A finished task stays finished. -/
theorem TaskIs.done_meanwhile (h : TaskIs id .done s) (hm : Meanwhile s s') :
    TaskIs id .done s' := by
  obtain ⟨e, k, hk, hid, hst⟩ := h
  exact ⟨e, k, (hm.tasks e).mem_of_done hk hst, hid, hst⟩

/-- A task is taken up by a lease only. -/
theorem Elsewhere.taskIs_of_inProgress (he : Elsewhere c s s') (hc : c ≠ .lease)
    (h : TaskIs id .inProgress s') : TaskIs id .inProgress s := by
  cases he with
  | kept => exact h
  | submitted _ _ hsubmitted => exact h.congr hsubmitted.tasks.symm
  | @moved _ _ _ k k' hmoves hmoved =>
    obtain ⟨e, k0, hk0, hid, hst⟩ := h
    rcases hmoved.mem_old hk0 with hold | rfl
    · exact ⟨e, k0, hold, hid, hst⟩
    · cases hmoves with
      | leased => exact absurd rfl hc
      | completed | failed => cases hst

end Store

/-! ## Calls of a pass -/

section Effect

open Store (TaskIs)

variable {σ : Scope} {first : Int → Prop} {c : Call} {s s' : Store} {id : Int} {st : TaskStatus}

/-- A pass takes no task away from anybody. -/
theorem Effect.taskIs (he : Effect σ first c s s') (h : TaskIs id st s) : TaskIs id st s' := by
  obtain ⟨e, k, hk, hid, hst⟩ := h
  exact ⟨e, k, he.mem hk, hid, hst⟩

/-- Nobody works on a task that a pass has just added. -/
theorem Effect.taskIs_of_inProgress (he : Effect σ first c s s') (h : TaskIs id .inProgress s') :
    TaskIs id .inProgress s := by
  obtain ⟨e, k, hk, hid, hst⟩ := h
  rcases he.mem_old hk with hold | hpending
  · exact ⟨e, k, hold, hid, hst⟩
  · cases hst.symm.trans hpending

end Effect

end Piecework
