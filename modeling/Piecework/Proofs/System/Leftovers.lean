import Piecework.Proofs.Expr.Display
import Piecework.Proofs.Schedule.Calls
import Piecework.Proofs.System.Value

/-!
# Work under finished expressions

An expression that is done has no unfinished task.  One that is in error may have some: a
first pass adds its tasks one by one, and when a call fails on the way it gives the expression
up and leaves the tasks that it has added where they are.

* `Call.Explains`: a first pass gives up for two reasons only.
* `Explained` is the invariant: an expression is in error because its text does not parse, or
  its row shows that it was `Abandoned`.
* `unfinished_tasks_explained` reads off what stands above an unfinished task.
* `pair_left_behind` is a task under an expression in error.
-/

namespace Piecework

/-! ## Why an expression is given up -/

/-- A call that puts an expression in error gives one of the reasons. -/
def Call.Explains (text : String) : Call → Prop
  | .setStatus _ .error _ steps => ∃ lines, steps = some lines ∧ GivesUp text lines
  | _ => True

theorem FirstPassCall.explains {expressionId : Int} {text : String} {c : Call}
    (h : FirstPassCall expressionId text c) : c.Explains text := by
  cases h with
  | gaveUp hreasons => exact ⟨_, rfl, hreasons⟩
  | list | create | done | inProgress => trivial

/-! ## Rows in error -/

/-- An expression was given up although its tasks could be carried out: a call on the store has
failed while they were listed or created; or the text that was submitted does not parse, and
what the store gives back of it in front of a NUL does. -/
inductive ExpressionRow.Abandoned (r : ExpressionRow) : Prop
  | unscheduled (e : StoreError) : r.steps = some (stepsFormat.encode (unscheduled e)) →
      r.Abandoned
  | shortened {e : ParseError} : columnText r.source ≠ r.source →
      Expr.parse r.source = .error e → r.steps = some (stepsFormat.encode (rejection e)) →
      r.Abandoned

/-- An expression is in error because its text does not parse, or because it was given up. -/
def ExpressionRow.Explained (r : ExpressionRow) : Prop :=
  r.status = ExpressionStatus.error.name →
    (∃ e, Expr.parse (columnText r.source) = .error e) ∨ r.Abandoned

theorem ExpressionRow.explained_of_ne {r : ExpressionRow} (status : ExpressionStatus)
    (h : r.status = status.name) (hne : status ≠ .error) : r.Explained := by
  intro herror
  refine absurd ?_ hne
  rw [← ExpressionStatus.ofStored_name status, ← h, herror, ExpressionStatus.ofStored_name]

/-- A row that a pass has put in error is explained, if the pass gives one of its reasons. -/
theorem Verdicts.explained {faults first : Prop} {tasks : List Task} {r : ExpressionRow}
    {status : ExpressionStatus} {result : Option Float} {steps : Option (List String)}
    (h : Verdicts faults first tasks r status result steps) (stamp : String)
    (hfirst : first → ∃ text, (text = columnText r.source ∨ text = r.source) ∧
      (Call.setStatus r.id status result steps).Explains text) :
    (Store.mark status result steps stamp r).Explained := by
  cases h with
  | done => exact ExpressionRow.explained_of_ne .done rfl (by decide)
  | inProgress => exact ExpressionRow.explained_of_ne .inProgress rfl (by decide)
  | rejected he => exact fun _ => .inl ⟨_, he⟩
  | gaveUp reason _ hmay =>
    obtain ⟨text, htext, lines, hlines, hcause⟩ := hfirst hmay
    cases hlines
    intro _
    cases hcause with
    | unscheduled e => exact .inr (.unscheduled e rfl)
    | @rejected e he =>
      by_cases hwhole : columnText r.source = r.source
      · refine .inl ⟨e, ?_⟩
        rcases htext with rfl | rfl
        · exact he
        · exact (congrArg Expr.parse hwhole).trans he
      · rcases htext with rfl | rfl
        · exact .inl ⟨e, he⟩
        · exact .inr (.shortened hwhole he rfl)

namespace System

variable {faults : Prop} {y y' : System}

/-- Every row in error is explained, and the first pass that has the lock gives its reasons. -/
structure Explained (y : System) : Prop where
  rows : ∀ r ∈ y.store.expressions, r.Explained
  running : ∀ pass p id text, y.running = some (pass, p) → pass.first? = some (id, text) →
    p.Asks (Call.Explains text)

theorem explained_start : start.Explained :=
  ⟨(fun _ hr => nomatch hr), fun _ _ _ _ hp => nomatch hp⟩

theorem Pass.asks {pass : Pass} {id : Int} {text : String} (h : pass.first? = some (id, text)) :
    pass.program.Asks (Call.Explains text) := by
  cases pass with
  | first expressionId text' =>
    cases h
    exact (firstPass_asks id text).mono fun _ => FirstPassCall.explains
  | after => cases h
  | resumed e =>
    rw [Pass.first?] at h
    split_ifs at h with hstatus
    cases h
    change (Schedule.resume e).Asks _
    unfold Schedule.resume
    rw [if_pos hstatus]
    exact (firstPass_asks e.id e.source).mono fun _ => FirstPassCall.explains

/-- Rows in error stay explained, whatever happens. -/
theorem Explained.rows_step {event : Event} (h : y.Explained) (hsound : y.Sound faults)
    (hstep : Step faults y event y') : ∀ r ∈ y'.store.expressions, r.Explained := by
  have hchanged := hsound.changed hstep
  generalize y'.store = s at hchanged ⊢
  cases hchanged with
  | kept => exact h.rows
  | lost => exact fun _ hr => nomatch hr
  | elsewhere he =>
    cases he with
    | kept => exact h.rows
    | moved _ hmoved =>
      rw [hmoved.expressions]
      exact h.rows
    | submitted _ _ hsubmitted =>
      obtain ⟨new, hnew, -, -, hstatus, -⟩ := hsubmitted.rows
      rw [hnew]
      intro r hr
      rw [List.mem_append, List.mem_singleton] at hr
      rcases hr with hr | rfl
      · exact h.rows r hr
      · exact ExpressionRow.explained_of_ne .pending hstatus (by decide)
  | @effect pass c next _ hrunning he =>
    cases he with
    | read => exact h.rows
    | issued _ _ _ _ _ _ hissued =>
      rw [hissued.expressions]
      exact h.rows
    | @marked _ _ r0 status result steps stamp _ hverdict hmarked =>
      refine hmarked.rows.forall_mem h.rows (hverdict.explained stamp ?_)
      rintro ⟨text, hfirst⟩
      have htext := hsound.text_of_first hrunning hmarked.rows.mem hfirst
      exact ⟨text, htext.imp_right And.right, (h.running _ _ _ _ hrunning hfirst).1⟩

theorem Explained.step {event : Event} (h : y.Explained) (hsound : y.Sound faults)
    (hstep : Step faults y event y') : y'.Explained := by
  refine ⟨h.rows_step hsound hstep, fun pass p id text hp hfirst => ?_⟩
  cases hstep with
  | serve | list => exact h.running pass p id text hp hfirst
  | begin =>
    cases hp
    exact Pass.asks hfirst
  | proceed hrunning hserved =>
    cases hp
    exact (h.running _ _ _ _ hrunning hfirst).2 _
  | release | restart | lose => cases hp

/-! ## A pair of sums -/

/-- The tree of `((1+2)*(3+4))`. -/
def pair : Tree := .node .mul (.node .add (.leaf 1) (.leaf 2)) (.node .add (.leaf 3) (.leaf 4))

/-- The pair as a client has submitted it. -/
def pairSubmitted : Store := next (.createExpression "alice" "((1+2)*(3+4))") .empty

/-- The pair after its first pass, some of whose calls may fail. -/
def pairIssued (plans : Outages) : Store :=
  (Site.perform (firstPassOver 1 pair) ⟨pairSubmitted, Site.dawn, plans⟩).2.store

theorem parse_pair : Expr.parse "((1+2)*(3+4))" = .ok pair := by
  have htext : "((1+2)*(3+4))".toList = pair.chars := by decide
  have hfinite : pair.Finite := by
    simp only [pair, Tree.Finite, Tree.Every]
    decide
  exact Expr.parse_of_chars htext hfinite

theorem pairIssued_run (plans : Outages) :
    Run True (fun _ _ => True) start ⟨pairIssued plans, [], none⟩ := by
  have hsubmit : Run True (fun _ _ => True) start ⟨pairSubmitted, [], none⟩ :=
    serve_next (y := start) rfl trivial
  have hready : Ready True ⟨pairSubmitted, [], none⟩ (.first 1 "((1+2)*(3+4))") :=
    ⟨⟨1, "alice", "((1+2)*(3+4))", "pending", none, none, Site.dawn.stamp, Site.dawn.stamp⟩,
      by decide, rfl, .inl (by decide)⟩
  have hissue := perform_run (y := ⟨pairSubmitted, [], none⟩) (fun _ _ _ => trivial)
    (.first 1 "((1+2)*(3+4))") ⟨pairSubmitted, Site.dawn, plans⟩ (.inl trivial) rfl rfl hready
  rw [Pass.program, firstPass_eq parse_pair] at hissue
  exact hsubmit.trans hissue

/-- The second task cannot be created, and the first one stays behind. -/
def pairCutShort : Store := pairIssued [(.createTask, ⟨1, 1, .query "disk I/O error"⟩)]

/-! ## What stands above an unfinished task -/

/-- In every run, whatever fails and whatever is cut off, a task that waits or is in the hands of
a worker belongs to an expression that parses and is pending or in progress, or to one that is in
error and was abandoned.  It never belongs to an expression that is done. -/
theorem unfinished_tasks_explained (h : Run True (fun _ _ => True) start y) {k : TaskRow}
    (hk : k ∈ y.store.tasks) (hunfinished : k.isIn .pending = true ∨ k.isIn .inProgress = true) :
    ∃ r ∈ y.store.expressions, r.id = k.expressionId ∧
      (∃ t, Expr.parse (columnText r.source) = .ok t) ∧
      (r.isUnfinished = true ∨ r.status = ExpressionStatus.error.name ∧ r.Abandoned) := by
  obtain ⟨hsound, hexplained⟩ := (sound_start True).closed explained_start h
    fun hsound hexplained _ hstep => hexplained.step hsound hstep
  have hwell := hsound.store.wellFormed
  obtain ⟨r, hr, hid⟩ := hwell.parents k hk
  have hsched := hsound.store.scheduled r hr trivial
  obtain ⟨task, hread⟩ := (hwell.tasks k hk).exists_read
  have htask : task ∈ y.store.tasksOf r.id := Store.mem_tasksOf.2 ⟨k, hk, hid.symm, hread⟩
  have hstatus : task.status ≠ .done := by
    have hin := (hwell.tasks k hk).isIn_iff hread
    rw [hin, hin] at hunfinished
    rcases hunfinished with hst | hst <;> rw [hst] <;> decide
  obtain ⟨t, ht, -⟩ := hsched.exists_tree htask
  refine ⟨r, hr, hid, ⟨t, ht⟩, ?_⟩
  cases hsched.standing with
  | pending hst => exact .inl (ExpressionRow.isUnfinished_iff.2 (.inl hst))
  | inProgress _ hst => exact .inl (ExpressionRow.isUnfinished_iff.2 (.inr hst))
  | done t' v _ ht' hleaf =>
    exact absurd ((hsched.tracked t' ht').done_of_leaf hleaf htask) hstatus
  | error hst =>
    refine .inr ⟨hst, (hexplained.rows r hr hst).resolve_left ?_⟩
    rintro ⟨e, he⟩
    cases ht.symm.trans he

theorem pair_unfinished_task : Run True (fun _ _ => True) start ⟨pairCutShort, [], none⟩ ∧
    ∃ k ∈ pairCutShort.tasks, k.isIn .pending = true ∧
      ∃ r ∈ pairCutShort.expressions, r.id = k.expressionId ∧
        (∃ t, Expr.parse (columnText r.source) = .ok t) ∧
        (r.isUnfinished = true ∨ r.status = ExpressionStatus.error.name ∧ r.Abandoned) := by
  have hk : ∃ k ∈ pairCutShort.tasks, k.isIn .pending = true := by decide
  obtain ⟨k, hk, hpending⟩ := hk
  exact ⟨pairIssued_run _, k, hk, hpending,
    unfinished_tasks_explained (pairIssued_run _) hk (.inl hpending)⟩

/-- A run may leave a pending task under an expression that is in error, so an unfinished task
need not belong to an unfinished expression. -/
theorem pair_left_behind : Run True (fun _ _ => True) start ⟨pairCutShort, [], none⟩ ∧
    ∃ k ∈ pairCutShort.tasks, k.isIn .pending = true ∧
      ∀ r ∈ pairCutShort.expressions, r.id = k.expressionId →
        r.status = ExpressionStatus.error.name :=
  ⟨pairIssued_run _, by decide⟩

end System

end Piecework
