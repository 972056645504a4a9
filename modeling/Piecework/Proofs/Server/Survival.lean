import Piecework.Proofs.Schedule.Settled
import Piecework.Proofs.Server.Redelivery

/-!
# What a result leaves behind

A worker may hand in any float as a result.  The store keeps it as a column does: a value that
is not a number becomes no value, and the task is finished all the same.  No pass issues such a
task again, since it covers its operation.  An infinity is kept, and may become the value of the
expression.

An expression lives on (`Store.Lives`) if it has a finite value or a task that somebody can
still carry out.  `Brought.lives_iff` reads off the state in front of a pass whether the
expression lives on behind it: what the results leave of its tree is a finite number, or it has
a ready operation without a finished task (`Store.Viable`).  `lives_iff_viable` says this of the
pass that an acknowledged result queues, whatever comes between the two, and `sum_exhausted` is
a sum that does not live on.
-/

namespace Piecework

open Schedule

namespace Store

/-- The expression has come to an end with a finite value, or it is under way and has a task
that is not finished. -/
def Lives (e : Int) (s : Store) : Prop :=
  ∃ r ∈ s.expressions, r.id = e ∧
    ((r.status = ExpressionStatus.done.name ∨ r.status = ExpressionStatus.error.name) ∧
        r.result.any Float.isFinite = true ∨
      r.status = ExpressionStatus.inProgress.name ∧
        ∃ k ∈ s.tasksOf e, k.status = .pending ∨ k.status = .inProgress)

instance (e : Int) (s : Store) : Decidable (s.Lives e) := by
  unfold Lives
  infer_instance

/-- What results leave of the tree is a finite number, or one of its ready operations has no
finished task. -/
def Viable (e : Int) (t : Tree) (s : Store) : Prop :=
  (∃ v, s.remaining e t = .leaf v ∧ v.isFinite = true) ∨
    (s.remaining e t).isLeaf = false ∧
      ∃ x ∈ (s.remaining e t).frontier, ∀ k ∈ s.tasksOf e, k.covers x = true → k.status ≠ .done

end Store

theorem TaskStatus.ne_done_iff {st : TaskStatus} :
    st ≠ .done ↔ st = .pending ∨ st = .inProgress := by
  cases st <;> simp

/-- A column keeps a finite number finite, and nothing else becomes finite in it. -/
theorem any_isFinite_columnFloat (v : Float) :
    (columnFloat v).any Float.isFinite = v.isFinite := by
  unfold columnFloat
  split_ifs with hnan hzero
  · cases hfinite : v.isFinite with
    | false => rfl
    | true => exact absurd hnan (Bool.eq_false_iff.1 (Number.isNaN_of_isFinite hfinite))
  · obtain ⟨sign, hparts⟩ := (Number.beq_zero_iff v).1 hzero
    rw [Number.isFinite_eq v, hparts]
    rfl
  · rfl

section Brought

variable {σ : Scope} {r : ExpressionRow} {t : Tree} {steps : Float → List String} {s s' : Store}

/-- The row that a pass has written is the only one of the expression. -/
theorem Brought.lives_row_iff (h : Brought r (s.remaining r.id t) steps s s')
    (hs' : s'.WellFormed) : ∃ stamp, s'.Lives r.id ↔
      ((r.concluded (s.remaining r.id t) steps stamp).status = ExpressionStatus.done.name ∨
          (r.concluded (s.remaining r.id t) steps stamp).status = ExpressionStatus.error.name) ∧
        (r.concluded (s.remaining r.id t) steps stamp).result.any Float.isFinite = true ∨
      (r.concluded (s.remaining r.id t) steps stamp).status = ExpressionStatus.inProgress.name ∧
        ∃ k ∈ s'.tasksOf r.id, k.status = .pending ∨ k.status = .inProgress := by
  obtain ⟨stamp, hrow⟩ := h.row
  refine ⟨stamp, ?_, fun hshows => ⟨_, hrow, ExpressionRow.concluded_id stamp, hshows⟩⟩
  rintro ⟨r', hr', hid, hshows⟩
  have hsame := hs'.eq_of_id hr' hrow (hid.trans (ExpressionRow.concluded_id stamp).symm)
  rwa [hsame] at hshows

/-- Behind a pass there is a task to carry out exactly if a ready operation had no finished task
in front of it: an operation has one task, and those without any are given one. -/
theorem Brought.exists_unfinished_iff (h : Brought r (s.remaining r.id t) steps s s')
    (hs' : Sound σ s') (hown : σ.own r.id) (ht : r.Parses t) :
    (∃ k ∈ s'.tasksOf r.id, k.status = .pending ∨ k.status = .inProgress) ↔
      ∃ x ∈ (s.remaining r.id t).frontier,
        ∀ k ∈ s.tasksOf r.id, k.covers x = true → k.status ≠ .done := by
  have htracked := h.tracked hs' hown ht
  have hremaining := h.remaining_eq (t := t)
  obtain ⟨new, htasks, hnew⟩ := h.tasks
  constructor
  · rintro ⟨k, hk, hst⟩
    have hunfinished := TaskStatus.ne_done_iff.2 hst
    obtain ⟨x, hx, hcovers⟩ :=
      htracked.waiting k hk ((htracked.valid k hk).result_eq_none hunfinished)
    rw [← Store.remaining_eq, hremaining] at hx
    refine ⟨x, hx, fun k' hk' hcovers' => ?_⟩
    have hsame : k' ∈ (s'.tasksOf r.id).filter (·.covers x) := by
      rw [htasks]
      exact List.mem_filter.2 ⟨List.mem_append_left _ hk', hcovers'⟩
    rw [htracked.filter_covers hk hcovers, List.mem_singleton] at hsame
    rwa [hsame]
  · rintro ⟨x, hx, hopen⟩
    obtain ⟨k, hk, hcovers⟩ := h.covered x hx
    refine ⟨k, hk, TaskStatus.ne_done_iff.1 ?_⟩
    rw [htasks, List.mem_append] at hk
    rcases hk with hk | hk
    · exact hopen k hk hcovers
    · obtain ⟨y, -, hissued⟩ := hnew k hk
      exact hissued.unfinished

/-- Behind a pass, the expression lives on if it was viable in front of it. -/
theorem Brought.lives_iff (h : Brought r (s.remaining r.id t) steps s s') (hs' : Sound σ s')
    (hown : σ.own r.id) (ht : r.Parses t) : s'.Lives r.id ↔ s.Viable r.id t := by
  obtain ⟨stamp, hlives⟩ := h.lives_row_iff hs'.wellFormed
  rw [hlives, h.exists_unfinished_iff hs' hown ht, Store.Viable]
  cases hleft : s.remaining r.id t with
  | leaf v =>
    have hdone : (r.concluded (.leaf v) steps stamp).result.any Float.isFinite = v.isFinite :=
      any_isFinite_columnFloat v
    have hstatus : ExpressionStatus.done.name ≠ ExpressionStatus.inProgress.name := by decide
    rw [hdone]
    constructor
    · rintro (⟨-, hfinite⟩ | ⟨hprogress, -⟩)
      · exact .inl ⟨v, rfl, hfinite⟩
      · exact absurd hprogress hstatus
    · rintro (⟨v', hv', hfinite⟩ | ⟨hnode, -⟩)
      · cases hv'
        exact .inl ⟨.inl rfl, hfinite⟩
      · cases hnode
  | node op a b =>
    have hstatus : ¬(ExpressionStatus.inProgress.name = ExpressionStatus.done.name ∨
        ExpressionStatus.inProgress.name = ExpressionStatus.error.name) := by decide
    constructor
    · rintro (⟨hterminal, -⟩ | ⟨-, hopen⟩)
      · exact absurd hterminal hstatus
      · exact .inr ⟨rfl, hopen⟩
    · rintro (⟨v, hv, -⟩ | ⟨-, hopen⟩)
      · cases hv
      · exact .inr ⟨rfl, hopen⟩

end Brought

/-- Finite results keep an expression viable. -/
theorem Tracked.viable {t : Tree} {s : Store} {e : Int} (h : Tracked t (s.tasksOf e))
    (ht : t.Finite)
    (hfinite : ∀ k ∈ s.tasksOf e, k.status = .done → k.result.any Float.isFinite = true) :
    s.Viable e t := by
  have hresults : ∀ k ∈ s.tasksOf e, ∀ v, k.result = some v → v.isFinite = true := by
    intro k hk v hv
    have hany := hfinite k hk ((h.valid k hk).finished v hv)
    rwa [hv] at hany
  have hanswered : ∀ k ∈ s.tasksOf e, k.Answered := by
    intro k hk hdone
    obtain ⟨v, hv, -⟩ := (Option.any_eq_true _ _).1 (hfinite k hk hdone)
    exact ⟨v, hv⟩
  have hleft : (s.remaining e t).Finite := by
    rw [Store.remaining_eq]
    exact Tree.Every.refillAt hresults ht []
  by_cases hleaf : (s.remaining e t).isLeaf = true
  · obtain ⟨v, hv⟩ := Tree.isLeaf_iff.1 hleaf
    rw [hv] at hleft
    exact .inl ⟨v, hv, hleft⟩
  · rw [Bool.not_eq_true] at hleaf
    obtain ⟨x, hx⟩ := Tree.exists_mem_frontier hleaf
    refine .inr ⟨hleaf, x, hx, fun k hk => ?_⟩
    rw [Store.remaining_eq] at hx
    exact h.unfinished_of_covers hk (hanswered k hk) hx

namespace System

variable {faults : Prop} {y y' : System} {leased : List Int} {server : Server}

/-- A finished task has the same row for good. -/
theorem Between.mem_of_done (h : Between y leased y') (hsound : y.Sound True) {e : Int} {k : Task}
    (hk : k ∈ y.store.tasksOf e) (hdone : k.status = .done) : k ∈ y'.store.tasksOf e := by
  induction h with
  | refl => exact hk
  | lease request hbetween hstore ih =>
    have hhanded := (hbetween.sound hsound).handed hstore request
    exact (hhanded.elsewhere.meanwhile.tasks e).mem_of_done ih hdone
  | @event y' y'' _ event hbetween hlose _ hstep ih =>
    have hchanged := (hbetween.sound hsound).changed hstep
    generalize y''.store = s at hchanged ⊢
    cases hchanged with
    | kept => exact ih
    | elsewhere he => exact (he.meanwhile.tasks e).mem_of_done ih hdone
    | effect _ he => exact he.mem ih
    | lost => exact absurd rfl hlose

/-- A pass that is made at once after a task of an unfinished expression. -/
theorem passAfter_lives_iff {site : Site} (hs : Piecework.Sound (scope faults) site.store)
    (hquiet : site.outages.Quiet) {r : ExpressionRow} (hr : r ∈ site.store.expressions)
    (hunfinished : r.isUnfinished = true) {t : Tree} (ht : r.Parses t) {k : Task}
    (hk : k ∈ site.store.tasksOf r.id) :
    (site.perform (passAfter k.id)).2.store.Lives r.id ↔ site.store.Viable r.id t := by
  have hat : At (scope faults) r site.store := ⟨hs, hr, trivial⟩
  obtain ⟨-, hover, -, hbrought⟩ := passAfter_alone hat hquiet hunfinished ht hk
  rw [← Store.remaining_eq] at hbrought
  exact hbrought.lives_iff hover.sound trivial ht

/-- The task of an acknowledged result is finished, with what a column keeps of the value. -/
theorem Sound.acknowledged_result (h : y.Sound True) (hstore : server.site.store = y.store)
    {k : Task} (hk : k ∈ y.store.tasksOf k.expressionId) {agent : String} {v : Float}
    (hack : (server.submitResult ⟨k.id, agent, some (.result v)⟩).1 = .ok ⟨true⟩) :
    ∃ k' ∈ (y.delivered ⟨k.id, agent, some (.result v)⟩ server).store.tasksOf k.expressionId,
      k'.id = k.id ∧ k'.status = .done ∧ k'.result = columnFloat v := by
  have hwell := h.store.wellFormed
  rcases Server.submitResult_recorded (hstore ▸ hwell) ⟨k.id, agent, some (.result v)⟩ with
    ⟨hnot, -⟩ | ⟨-, outcome, k0, k', hout, hid, hmoves, hmoved⟩
  · exact absurd hack hnot
  · cases hout
    rw [hstore] at hmoved
    cases hwell.eq_of_task_id hmoved.mem hk hid
    generalize hcall : Outcome.call k.id (.result v) = c at hmoves
    cases hmoves with
    | leased | failed => cases hcall
    | completed value now hst =>
      cases hcall
      exact ⟨_, hmoved.mem_new, rfl, rfl, rfl⟩

/-- A worker hands in any value for a task, and it is acknowledged.  Whatever comes next, the
task stays finished with what a column keeps of the value.  If the pass that was queued finds the
expression unfinished and the store does not fail, then the expression lives on if and only if
it is viable, as it is if all its finished tasks have finite results. -/
theorem lives_iff_viable (h : Run True (fun _ _ => True) start y)
    (hstore : server.site.store = y.store) {k : Task} (hk : k ∈ y.store.tasksOf k.expressionId)
    (agent : String) (v : Float)
    (hack : (server.submitResult ⟨k.id, agent, some (.result v)⟩).1 = .ok ⟨true⟩)
    (hlater : Between (y.delivered ⟨k.id, agent, some (.result v)⟩ server) leased y') :
    (∃ k' ∈ y'.store.tasksOf k.expressionId,
      k'.id = k.id ∧ k'.status = .done ∧ k'.result = columnFloat v) ∧
    ∀ site : Site, site.store = y'.store → site.outages.Quiet →
      ∀ r ∈ y'.store.expressions, r.id = k.expressionId → r.isUnfinished = true →
        ∃ t, r.Parses t ∧
          ((site.perform (passAfter k.id)).2.store.Lives r.id ↔ y'.store.Viable r.id t) ∧
          ((∀ k' ∈ y'.store.tasksOf r.id, k'.status = .done →
              k'.result.any Float.isFinite = true) → y'.store.Viable r.id t) := by
  have hsound := (sound_start True).run h
  have hdelivered := hsound.delivered hstore ⟨k.id, agent, some (.result v)⟩
  obtain ⟨k', hk', hid, hdone, hresult⟩ := hsound.acknowledged_result hstore hk hack
  have hkept := hlater.mem_of_done hdelivered hk' hdone
  refine ⟨⟨k', hkept, hid, hdone, hresult⟩, fun site hsite hquiet r hr hrid hunfinished => ?_⟩
  have hlate := (hlater.sound hdelivered).store
  rw [← hsite] at hlate hr hkept ⊢
  rw [← hrid] at hkept
  rw [← hid]
  have hscheduled := hlate.scheduled r hr trivial
  obtain ⟨t, ht⟩ := hscheduled.parsed (List.ne_nil_of_mem hkept)
  exact ⟨t, ht, passAfter_lives_iff hlate hquiet hr hunfinished ht hkept,
    (hscheduled.tracked t ht).viable (Expr.finite_of_parse ht)⟩

/-! ## The sum, with a result and with none -/

/-- A worker hands in a value for the task of the sum. -/
def sumResult (v : Float) : Submission := ⟨1, "bob", some (.result v)⟩

/-- The system of the sum behind the value. -/
def sumAnswered (v : Float) : System :=
  delivered ⟨sumLeased.site.store, [], none⟩ (sumResult v) sumLeased

/-- The sum behind the pass that the value has queued. -/
def sumPassed (v : Float) : Store :=
  (Site.perform (passAfter 1) ⟨(sumAnswered v).store, Site.dawn, []⟩).2.store

/-- The task of the sum, in the hands of a worker. -/
def sumTask : Task :=
  ⟨1, 1, .add, 1, 2, "", none, .inProgress, 0, Site.dawn.tick.tick, Site.dawn.tick⟩

theorem sumTask_mem : sumTask ∈ sumLeased.site.store.tasksOf sumTask.expressionId := by
  decide

/-- With its sum handed in, the sum lives on. -/
theorem sum_lives : (sumLeased.submitResult (sumResult 3)).1 = .ok ⟨true⟩ ∧
    sumRow ∈ (sumAnswered 3).store.expressions ∧ (sumPassed 3).Lives 1 := by
  have hack : (sumLeased.submitResult (sumResult 3)).1 = .ok ⟨true⟩ := by decide
  have hrow : sumRow ∈ (sumAnswered 3).store.expressions := by decide
  obtain ⟨-, hpass⟩ :=
    lives_iff_viable sumLeased_run rfl sumTask_mem "bob" 3 hack (.refl (sumAnswered 3))
  obtain ⟨t, -, hlives, hviable⟩ := hpass ⟨(sumAnswered 3).store, Site.dawn, []⟩ rfl
    Outages.quiet_nil sumRow hrow rfl (by decide)
  exact ⟨hack, hrow, hlives.2 (hviable (by decide))⟩

theorem sumPassed_lives_iff {v : Float} (hrow : sumRow ∈ (sumAnswered v).store.expressions)
    (htask : ∃ k ∈ (sumAnswered v).store.tasksOf 1, k.id = 1) :
    (sumPassed v).Lives 1 ↔ (sumAnswered v).store.Viable 1 (.node .add (.leaf 1) (.leaf 2)) := by
  have hsound := (sound_start True).run sumLeased_run
  have hanswered : (sumAnswered v).Sound True := hsound.delivered rfl (sumResult v)
  obtain ⟨k, hk, hid⟩ := htask
  have hiff := @passAfter_lives_iff True ⟨(sumAnswered v).store, Site.dawn, []⟩ hanswered.store
    Outages.quiet_nil sumRow hrow (by decide) _ (parses_sum rfl) k hk
  rwa [hid] at hiff

/-- What no result brings the sum to. -/
theorem sum_not_viable :
    ¬(sumAnswered (0 / 0)).store.Viable 1 (.node .add (.leaf 1) (.leaf 2)) := by
  have hleft : (sumAnswered (0 / 0)).store.remaining 1 (.node .add (.leaf 1) (.leaf 2)) =
      .node .add (.leaf 1) (.leaf 2) := by decide
  have hcovered : ∀ x ∈ (Tree.node .add (.leaf 1) (.leaf 2)).frontier,
      ∃ k ∈ (sumAnswered (0 / 0)).store.tasksOf 1, k.covers x = true ∧ k.status = .done := by
    decide
  rintro (⟨v, hv, -⟩ | ⟨-, x, hx, hopen⟩)
  · cases hleft.symm.trans hv
  · rw [hleft] at hx
    obtain ⟨k, hk, hcovers, hdone⟩ := hcovered x hx
    exact hopen k hk hcovers hdone

/-- What an infinity brings the sum to. -/
theorem sum_infinite_not_viable :
    ¬(sumAnswered (1 / 0)).store.Viable 1 (.node .add (.leaf 1) (.leaf 2)) := by
  have hleft : (sumAnswered (1 / 0)).store.remaining 1 (.node .add (.leaf 1) (.leaf 2)) =
      .leaf (1 / 0) := by decide
  rintro (⟨v, hv, hfinite⟩ | ⟨hnode, -⟩)
  · cases hleft.symm.trans hv
    exact absurd hfinite (by decide)
  · rw [hleft] at hnode
    cases hnode

/-- The sum does not live on with a value that is not a number, although it is acknowledged and
the pass is made, nor with an infinity. -/
theorem sum_exhausted :
    Run True (fun _ _ => True) start ⟨sumLeased.site.store, [], none⟩ ∧
      ∀ v ∈ [(0 / 0 : Float), 1 / 0], (sumLeased.submitResult (sumResult v)).1 = .ok ⟨true⟩ ∧
        sumRow ∈ (sumAnswered v).store.expressions ∧ sumRow.isUnfinished = true ∧
          ¬(sumPassed v).Lives 1 := by
  refine ⟨sumLeased_run, fun v hv => ?_⟩
  simp only [List.mem_cons, List.not_mem_nil, or_false] at hv
  rcases hv with rfl | rfl
  · have hrow : sumRow ∈ (sumAnswered (0 / 0)).store.expressions := by decide
    refine ⟨by decide, hrow, by decide, fun hlives => ?_⟩
    exact sum_not_viable ((sumPassed_lives_iff hrow (by decide)).1 hlives)
  · have hrow : sumRow ∈ (sumAnswered (1 / 0)).store.expressions := by decide
    refine ⟨by decide, hrow, by decide, fun hlives => ?_⟩
    exact sum_infinite_not_viable ((sumPassed_lives_iff hrow (by decide)).1 hlives)

end System

end Piecework
