import Piecework.Proofs.System.Basic

/-!
# The value of a finished expression

Workers are `Honest` when a result that they submit is what the operation of the task
gives.  Then every recorded result is exact, whatever the order in which tasks were
created, leased, put back and completed (`exact_step`), and since folding exact results into
a tree changes no value, a finished expression shows the value of its source:
`result_eq_evaluate`.
-/

namespace Piecework.System

/-- A submitted result is what the operation of its task gives. -/
def Honest (y : System) (event : Event) : Prop :=
  ∀ id value, event = .serve (.completeTask id value) → ∀ r ∈ y.store.tasks, r.id = id →
    compute r.operator r.operand1 r.operand2 = .ok value

variable {faults : Prop} {y y' : System}

/-- The computation of a row is the operation of its task. -/
theorem compute_eq_apply {r : TaskRow} {k : Task} (hvalid : r.Valid) (hread : r.read = .ok k) :
    compute r.operator r.operand1 r.operand2 = k.operator.apply k.operand1 k.operand2 := by
  obtain ⟨op, hop⟩ := hvalid.operator
  obtain ⟨op', hop', rfl⟩ := TaskRow.read_eq_ok hread
  rw [hop, columnText_symbol, Operator.ofSymbol_symbol] at hop'
  cases hop'
  rw [hop, compute, Operator.ofSymbol_symbol]
  rfl

/-- Results stay exact, whatever happens. -/
theorem exact_step {event : Event} (h : Store.AllTasks Task.Exact y.store) (hsound : y.Sound faults)
    (hhonest : Honest y event) (hstep : Step faults y event y') :
    Store.AllTasks Task.Exact y'.store := by
  refine allTasks_step h hsound hstep (fun _ => Task.exact_of_unfinished) ?_
  rintro c k k' rfl hk hmoves
  refine hmoves.exact ?_
  rintro value rfl
  obtain ⟨r, hr, -, hread⟩ := Store.mem_tasksOf.1 hk
  rw [← compute_eq_apply (hsound.store.wellFormed.tasks r hr) hread]
  exact hhonest k.id value rfl r hr (TaskRow.id_of_read hread).symm

/-- The tree of a finished expression has a value, and it is the result. -/
theorem Sound.result_agrees (hsound : y.Sound faults) (hexact : Store.AllTasks Task.Exact y.store)
    {r : ExpressionRow} (hr : r ∈ y.store.expressions)
    (hdone : r.status = ExpressionStatus.done.name) :
    ∃ t v x, r.Parses t ∧ t.evaluate = .ok v ∧ r.result = some x ∧ (x == v) = true := by
  obtain ⟨t, w, ht, hleaf, hresult, -⟩ := (hsound.store.scheduled r hr trivial).of_done hdone
  obtain ⟨v, x, hv, hx, hxv⟩ :=
    Tree.exists_result_of_leaf (hexact r.id) (Expr.finite_of_parse ht) hleaf
  exact ⟨t, v, x, ht, hv, hresult.trans hx, hxv⟩

/-! ## A sum -/

/-- The store after a call that it answers. -/
def next (c : Call) (s : Store) : Store :=
  match s.answer Site.dawn c with
  | .ok (_, s') => s'
  | .error _ => s

theorem serve_next {c : Call} {admits : System → Event → Prop} (hc : Store.schedules c = false)
    (hadmits : admits y (.serve c)) : Run faults admits y { y with store := next c y.store } := by
  unfold next
  cases heq : y.store.answer Site.dawn c with
  | error e => exact .refl y
  | ok pair => exact .one hadmits (.serve hc heq)

theorem honest_ofPass (y : System) (event : Event) (h : OfPass event) : Honest y event := by
  rintro id value rfl
  rcases h with ⟨pass, h⟩ | h | h <;> cases h

/-- A submitted sum. -/
def sumSubmitted : Store := next (.createExpression "alice" "1+2") .empty

/-- The sum after its first pass, some of whose calls may fail. -/
def sumIssued (plans : Outages) : Store :=
  (Site.perform (firstPassOver 1 (.node .add (.leaf 1) (.leaf 2)))
    ⟨sumSubmitted, Site.dawn, plans⟩).2.store

/-- The sum after a worker has completed its only task. -/
def sumCompleted (plans : Outages) : Store :=
  next (.completeTask 1 3) (next .lease (sumIssued plans))

/-- The sum after the pass that follows. -/
def sumDone : Store :=
  (Site.perform (Schedule.passAfter 1) ⟨sumCompleted [], Site.dawn, []⟩).2.store

theorem sumIssued_run {admits : System → Event → Prop} {plans : Outages}
    (hfails : faults ∨ plans.Quiet) (hpass : ∀ y event, OfPass event → admits y event)
    (hserve : ∀ y owner source, admits y (.serve (.createExpression owner source))) :
    Run faults admits start ⟨sumIssued plans, [], none⟩ := by
  have hsubmit : Run faults admits start ⟨sumSubmitted, [], none⟩ :=
    serve_next (y := start) rfl (hserve _ _ _)
  have hready : Ready faults ⟨sumSubmitted, [], none⟩ (.first 1 "1+2") :=
    ⟨⟨1, "alice", "1+2", "pending", none, none, Site.dawn.stamp, Site.dawn.stamp⟩,
      by decide, rfl, .inl (by decide)⟩
  have hissue := perform_run (y := ⟨sumSubmitted, [], none⟩) hpass (.first 1 "1+2")
    ⟨sumSubmitted, Site.dawn, plans⟩ hfails rfl rfl hready
  rw [Pass.program, firstPass_eq Expr.parse_sum] at hissue
  exact hsubmit.trans hissue

theorem sumCompleted_run {admits : System → Event → Prop} {plans : Outages}
    (hfails : faults ∨ plans.Quiet) (hpass : ∀ y event, OfPass event → admits y event)
    (hserve : ∀ y c, (∀ id value, c ≠ .completeTask id value) → admits y (.serve c))
    (hcomplete : admits ⟨next .lease (sumIssued plans), [], none⟩ (.serve (.completeTask 1 3))) :
    Run faults admits start ⟨sumCompleted plans, [], none⟩ := by
  have hissue : Run faults admits start ⟨sumIssued plans, [], none⟩ :=
    sumIssued_run hfails hpass fun _ _ _ => hserve _ _ nofun
  have hlease : Run faults admits ⟨sumIssued plans, [], none⟩
      ⟨next .lease (sumIssued plans), [], none⟩ :=
    serve_next (y := ⟨sumIssued plans, [], none⟩) rfl (hserve _ _ nofun)
  have hlast : Run faults admits ⟨next .lease (sumIssued plans), [], none⟩
      ⟨sumCompleted plans, [], none⟩ :=
    serve_next (y := ⟨next .lease (sumIssued plans), [], none⟩) rfl hcomplete
  exact (hissue.trans hlease).trans hlast

theorem sumCompleted_honest (faults : Prop) :
    Run faults Honest start ⟨sumCompleted [], [], none⟩ := by
  refine sumCompleted_run (.inr Outages.quiet_nil) honest_ofPass ?_ ?_
  · rintro y c hc id value h
    cases h
    exact absurd rfl (hc id value)
  · rintro id value h
    cases h
    show ∀ r ∈ (next .lease (sumIssued [])).tasks, r.id = 1 →
      compute r.operator r.operand1 r.operand2 = .ok 3
    decide +kernel

theorem sumDone_run (faults : Prop) : Run faults Honest start ⟨sumDone, [], none⟩ := by
  refine (sumCompleted_honest faults).trans ?_
  exact perform_run (y := ⟨sumCompleted [], [], none⟩) honest_ofPass (.after 1)
    ⟨sumCompleted [], Site.dawn, []⟩ (.inr Outages.quiet_nil) rfl rfl trivial

theorem parses_sum {r : ExpressionRow} (h : r.source = "1+2") :
    r.Parses (.node .add (.leaf 1) (.leaf 2)) := by
  have htext : columnText "1+2" = "1+2" := by decide
  rw [ExpressionRow.Parses, h, htext]
  exact Expr.parse_sum

/-- The row of the sum before its last pass. -/
def sumRow : ExpressionRow :=
  ⟨1, "alice", "1+2", "in_progress", none, none, Site.dawn.stamp, Site.dawn.tick.tick.tick.stamp⟩

/-- The row of the sum after its last pass. -/
theorem sumDone_row : ∃ r ∈ sumDone.expressions, r.id = 1 ∧ r.source = "1+2" ∧
    r.status = ExpressionStatus.done.name ∧ r.result = some 3 := by
  have hsound := (sound_start False).run (sumCompleted_honest False)
  have hpass := passAfter_meets (among_suits False fun _ => False) hsound.store 1
    fun _ _ _ _ _ _ => trivial
  obtain ⟨hpost, -⟩ := hpass.perform ⟨sumCompleted [], Site.dawn, []⟩ Outages.quiet_nil
  obtain ⟨s0, ho, hpassed⟩ := (hpost sumRow (by decide) (by decide) _
    (parses_sum rfl)).unfinished (by decide)
  have hsame : s0.tasksOf 1 = (sumCompleted []).tasksOf 1 :=
    ((ho hsound.store).1.tasks 1).eq_of_done (by decide)
  have hleaf : Tree.refill (.node .add (.leaf 1) (.leaf 2)) (s0.tasksOf sumRow.id) = .leaf 3 := by
    change Tree.refill _ (s0.tasksOf 1) = _
    rw [hsame]
    decide
  rw [hleaf] at hpassed
  obtain ⟨st, -, s1, -, -, hconcluded⟩ := hpassed.resolve_right fun h => h.1
  obtain ⟨stamp, hrow⟩ := hconcluded.row
  have hthree : columnFloat 3 = some 3 := by decide
  exact ⟨_, hrow, rfl, rfl, rfl, hthree⟩

/-! ## The value -/

/-- In every run with honest workers, whatever fails and whatever is cut off, the source of a
finished expression parses, its tree has a value, and the result agrees with it.  An
expression without a value is never finished. -/
theorem result_eq_evaluate (h : Run True Honest start y) {r : ExpressionRow}
    (hr : r ∈ y.store.expressions) (hdone : r.status = ExpressionStatus.done.name) :
    ∃ t v x, Expr.parse (columnText r.source) = .ok t ∧ t.evaluate = .ok v ∧ r.result = some x ∧
      (x == v) = true := by
  have hboth : y.Sound True ∧ Store.AllTasks Task.Exact y.store := by
    refine h.closed (P := fun y => y.Sound True ∧ Store.AllTasks Task.Exact y.store)
      ⟨sound_start True, Store.allTasks_empty⟩ ?_
    intro y y' event hy hhonest hstep
    exact ⟨hy.1.step hstep, exact_step hy.2 hy.1 hhonest hstep⟩
  exact hboth.1.result_agrees hboth.2 hr hdone

theorem sum_result_eq_evaluate : Run True Honest start ⟨sumDone, [], none⟩ ∧
    ∃ r ∈ sumDone.expressions, r.status = ExpressionStatus.done.name ∧
      ∃ t v x, Expr.parse (columnText r.source) = .ok t ∧ t.evaluate = .ok v ∧ r.result = some x ∧
        (x == v) = true := by
  obtain ⟨r, hr, -, -, hdone, -⟩ := sumDone_row
  exact ⟨sumDone_run True, r, hr, hdone, result_eq_evaluate (sumDone_run True) hr hdone⟩

end Piecework.System
