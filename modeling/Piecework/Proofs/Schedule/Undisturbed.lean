import Piecework.Proofs.Schedule.Plan
import Piecework.Proofs.Store.Meets

/-!
# What a pass does to a store

A pass that nobody interferes with is followed over any store, whatever rows it holds, and
wherever its calls fail.  `Ran` says what it leaves: the expression has advanced by its plan,
or was cut off on the way; the rows of other expressions are as they were, and new tasks stand
behind the old ones.

* `Store.Grown` says what creating tasks does, and `view_setStatus` what marking does.
* `createTasks_undisturbed` is the induction over the operations of the plan: a call that fails
  leaves tasks for the ones in front of it.
* `laterPass_undisturbed` puts a later pass together, call by call, and
  `passAfter_undisturbed` the pass after a task.
-/

namespace Piecework

open Schedule

/-! ## What single calls do to a view -/

namespace Store

/-- Tasks for the operations were added, and nothing else has changed. -/
structure Grown (e : Int) (front : List Ready) (s s' : Store) : Prop where
  tasks : ∃ rows, s'.tasks = s.tasks ++ rows ∧ rows.map TaskRow.bare = front.map (Ready.row e)
  expressions : s'.expressions = s.expressions

section Grown

variable {e e' : Int} {x : Ready} {front : List Ready} {s s' s'' : Store}

theorem Grown.refl (e : Int) (s : Store) : Grown e [] s s :=
  ⟨⟨[], (List.append_nil _).symm, rfl⟩, rfl⟩

theorem Grown.cons (h : Grown e [x] s s') (h' : Grown e front s' s'') :
    Grown e (x :: front) s s'' := by
  obtain ⟨⟨rows, htasks, hrows⟩, hexpr⟩ := h
  obtain ⟨⟨rows', htasks', hrows'⟩, hexpr'⟩ := h'
  refine ⟨⟨rows ++ rows', ?_, ?_⟩, hexpr'.trans hexpr⟩
  · rw [htasks', htasks, List.append_assoc]
  · rw [List.map_append, hrows, hrows']
    rfl

/-- The new tasks belong to the expression. -/
theorem Grown.exists_rows (h : Grown e front s s') :
    ∃ rows, s'.tasks = s.tasks ++ rows ∧ rows.map TaskRow.bare = front.map (Ready.row e) ∧
      ∀ k ∈ rows, k.expressionId = e := by
  obtain ⟨⟨rows, htasks, hrows⟩, -⟩ := h
  refine ⟨rows, htasks, hrows, fun k hk => ?_⟩
  have hbare : k.bare ∈ front.map (Ready.row e) := by
    rw [← hrows]
    exact List.mem_map_of_mem hk
  obtain ⟨x, -, hx⟩ := List.mem_map.1 hbare
  exact (congrArg TaskRow.expressionId hx).symm

theorem Grown.view (h : Grown e front s s') :
    s'.view e = ⟨(s.view e).tasks ++ front.map (Ready.row e), (s.view e).expression⟩ := by
  obtain ⟨rows, htasks, hrows, hown⟩ := h.exists_rows
  have hall : rows.filter (·.expressionId == e) = rows :=
    List.filter_eq_self.2 fun k hk => beq_iff_eq.2 (hown k hk)
  unfold Store.view Store.rowsOf
  rw [htasks, h.expressions, List.filter_append, hall, List.map_append, hrows]

theorem Grown.rowsOf_of_ne (h : Grown e front s s') (hne : e' ≠ e) :
    s'.rowsOf e' = s.rowsOf e' := by
  obtain ⟨rows, htasks, -, hown⟩ := h.exists_rows
  have hnone : rows.filter (·.expressionId == e') = [] := by
    refine List.filter_eq_nil_iff.2 fun k hk => ?_
    rw [hown k hk, beq_iff_eq]
    exact hne.symm
  unfold rowsOf
  rw [htasks, List.filter_append, hnone, List.append_nil, h.expressions]

end Grown

/-- The store with one more row of a task. -/
def push (row : TaskRow) (s : Store) : Store :=
  { s with tasks := s.tasks ++ [row], lastTask := s.lastTask + 1 }

/-- The row of a new task. -/
theorem createTask_eq {e : Int} {s : Store} (hparent : ∃ r ∈ s.expressions, r.id = e)
    (now : Time.Instant) {x : Ready} (hx : x.isStorable = true) :
    ∃ row : TaskRow, row.bare = x.row e ∧ row.id = s.lastTask + 1 ∧
      s.createTask now e x.op x.lhs x.rhs x.path.text =
        .ok (s.lastTask + 1, s.push row) := by
  have hknown : (s.expressions.any (·.id == e)) = true := by
    obtain ⟨r, hr, hid⟩ := hparent
    exact List.any_eq_true.2 ⟨r, hr, beq_iff_eq.2 hid⟩
  rw [Ready.isStorable, Bool.and_eq_true] at hx
  obtain ⟨a, ha⟩ := Option.isSome_iff_exists.1 hx.1
  obtain ⟨b, hb⟩ := Option.isSome_iff_exists.1 hx.2
  unfold createTask
  rw [ha, hb]
  dsimp only
  rw [if_pos hknown]
  refine ⟨_, ?_, ?_, rfl⟩
  · simp only [TaskRow.bare, Ready.row, ha, hb, Option.getD_some]
  · rfl

/-- A task is created exactly if both operands are numbers. -/
theorem createTask_cases {e : Int} {s : Store} (hparent : ∃ r ∈ s.expressions, r.id = e)
    (now : Time.Instant) (x : Ready) :
    (x.isStorable = true ∧ ∃ id s', s.createTask now e x.op x.lhs x.rhs x.path.text = .ok (id, s') ∧
        Grown e [x] s s') ∨
      x.isStorable = false ∧
        ∃ err, s.createTask now e x.op x.lhs x.rhs x.path.text = .error err := by
  cases hx : x.isStorable with
  | true =>
    obtain ⟨row, hbare, -, hcreate⟩ := createTask_eq hparent now hx
    exact .inl ⟨rfl, _, _, hcreate, ⟨⟨[row], rfl, by rw [List.map_singleton, hbare]; rfl⟩, rfl⟩⟩
  | false =>
    refine .inr ⟨rfl, ?_⟩
    unfold createTask
    rw [Ready.isStorable, Bool.and_eq_false_iff] at hx
    cases ha : columnFloat x.lhs with
    | none => exact ⟨_, rfl⟩
    | some a =>
      cases hb : columnFloat x.rhs with
      | none => exact ⟨_, rfl⟩
      | some b =>
        rw [ha, hb] at hx
        simp at hx

section SetStatus

variable (now : Time.Instant) (e : Int) (status : ExpressionStatus) (result : Option Float)
  (steps : Option (List String)) (s : Store)

theorem view_setStatus :
    (s.setStatus now e status result steps).view e =
      ⟨(s.view e).tasks, (s.view e).expression.map (mark status result steps "")⟩ := by
  have hrows : (s.setStatus now e status result steps).expressions.filter (·.id == e) =
      (s.expressions.filter (·.id == e)).map (mark status result steps now.stamp) := by
    rw [filter_setStatus fun _ _ _ _ _ => rfl]
    refine List.map_congr_left fun r hr => if_pos ?_
    exact (List.mem_filter.1 hr).2
  rw [view, rowsOf, hrows, view, rowsOf, Option.map_map, List.head?_map, Option.map_map]
  rfl

theorem rowsOf_setStatus_of_ne {e' : Int} (hne : e' ≠ e) :
    (s.setStatus now e status result steps).rowsOf e' = s.rowsOf e' := by
  have hrows : (s.setStatus now e status result steps).expressions.filter (·.id == e') =
      s.expressions.filter (·.id == e') := by
    refine filter_setStatus_of_ne (fun _ _ _ _ _ => rfl) _ _ _ _ _ _ fun r hr => ?_
    rw [beq_iff_eq.1 (List.mem_filter.1 hr).2]
    exact hne
  rw [rowsOf, hrows, rowsOf]
  rfl

end SetStatus

end Store

/-! ## One pass -/

/-- The rules for a pass that nobody interferes with. -/
def undisturbed (fails : Prop) : Rules where
  others := Eq
  refl := Eq.refl
  trans := Eq.trans
  fails := fails
  may := fun _ _ => True

/-- What a pass over an expression has done: it has brought it forward or was cut off, and
has left everything else alone. -/
structure Ran (fails : Prop) (e : Int) (s s' : Store) : Prop where
  view : s'.view e = (s.view e).advance ∨ fails ∧ (s.view e).CutOff (s'.view e)
  others : ∀ e', e' ≠ e → s'.rowsOf e' = s.rowsOf e'
  tasks : ∃ rows, s'.tasks = s.tasks ++ rows ∧ ∀ k ∈ rows, k.expressionId = e

section Passes

variable {fails : Prop} {e : Int} {s s' : Store} {r : ExpressionRow} {front back : List Ready}

/-- The pass has failed before it did anything. -/
theorem Ran.of_fails (h : fails) (e : Int) (s : Store) : Ran fails e s s :=
  ⟨.inr ⟨h, .untouched⟩, fun _ _ => rfl, [], (List.append_nil _).symm, by simp⟩

theorem Ran.of_idle (h : (s.view e).advance = s.view e) : Ran fails e s s :=
  ⟨.inl h.symm, fun _ _ => rfl, [], (List.append_nil _).symm, by simp⟩

/-- How creating tasks for some operations ends: behind the last one, or somewhere in front of
an operation, if a call has failed or an operand is no number. -/
def Created (fails : Prop) (e : Int) (xs : List Ready) (s : Store)
    (result : Except StoreError Nat) (s' : Store) : Prop :=
  ∃ front back, xs = front ++ back ∧ (∀ x ∈ front, x.isStorable = true) ∧ s.Grown e front s' ∧
    ((∃ n, result = .ok n) ∧ back = [] ∨
      (∃ err, result = .error err) ∧
        (fails ∨ ∃ x rest, back = x :: rest ∧ x.isStorable = false))

/-- All operations have their tasks. -/
theorem Created.of_ok {xs : List Ready} {n : Nat} (h : Created fails e xs s (.ok n) s') :
    (∀ x ∈ xs, x.isStorable = true) ∧ s.Grown e xs s' := by
  obtain ⟨front, back, hsplit, hfront, hgrown, ⟨-, hback⟩ | ⟨⟨err, herr⟩, -⟩⟩ := h
  · rw [hback, List.append_nil] at hsplit
    rw [hsplit]
    exact ⟨hfront, hgrown⟩
  · cases herr

/-- The first operations have their tasks. -/
theorem Created.of_error {xs : List Ready} {err : StoreError}
    (h : Created fails e xs s (.error err) s') :
    ∃ front back, xs = front ++ back ∧ (∀ x ∈ front, x.isStorable = true) ∧ s.Grown e front s' ∧
      (fails ∨ ∃ x rest, back = x :: rest ∧ x.isStorable = false) := by
  obtain ⟨front, back, hsplit, hfront, hgrown, ⟨⟨n, hn⟩, -⟩ | ⟨-, hcause⟩⟩ := h
  · cases hn
  · exact ⟨front, back, hsplit, hfront, hgrown, hcause⟩

theorem createTasks_undisturbed (hparent : ∃ r ∈ s.expressions, r.id = e) (xs : List Ready) :
    (createTasks e xs).Meets (undisturbed fails) (Created fails e xs s) s := by
  induction xs generalizing s with
  | nil =>
    rintro s' rfl
    exact ⟨[], [], rfl, by simp, .refl e s, .inl ⟨⟨0, rfl⟩, rfl⟩⟩
  | cons x rest ih =>
    refine Program.meets_call (fun _ _ => trivial) ?_ ?_
    · rintro s1 now id s2 rfl heq
      rcases Store.createTask_cases hparent now x with
        ⟨hx, id', s', hok, hgrown⟩ | ⟨-, err, herr⟩
      · cases hok.symm.trans heq
        have hparent' : ∃ r ∈ s2.expressions, r.id = e := by rwa [hgrown.expressions]
        refine (ih hparent').bind ?_ ?_
        · rintro n s3 hcreated s4 rfl
          obtain ⟨hrest, hgrown'⟩ := hcreated.of_ok
          refine ⟨x :: rest, [], (List.append_nil _).symm, ?_, hgrown.cons hgrown', ?_⟩
          · exact List.forall_mem_cons.2 ⟨hx, hrest⟩
          · exact .inl ⟨⟨_, rfl⟩, rfl⟩
        · rintro err s3 hcreated s4 rfl
          obtain ⟨front, back, hrest, hfront, hgrown', hcause⟩ := hcreated.of_error
          refine ⟨x :: front, back, by rw [hrest]; rfl, ?_, hgrown.cons hgrown', ?_⟩
          · exact List.forall_mem_cons.2 ⟨hx, hfront⟩
          · exact .inr ⟨⟨err, rfl⟩, hcause⟩
      · cases herr.symm.trans heq
    · rintro s1 err rfl herr s2 rfl
      refine ⟨[], x :: rest, rfl, by simp, .refl e s, .inr ⟨⟨err, rfl⟩, herr.imp id ?_⟩⟩
      rintro ⟨now, heq⟩
      rcases Store.createTask_cases hparent now x with ⟨-, id, s', hok, -⟩ | ⟨hx, -⟩
      · cases hok.symm.trans heq
      · exact ⟨x, rest, rfl, hx⟩

theorem issueTasks_undisturbed (hparent : ∃ r ∈ s.expressions, r.id = e) (tree : Tree) :
    (issueTasks e tree).Meets (undisturbed fails)
      (Created fails e (uncovered (s.tasksOf e) tree.frontier) s) s := by
  unfold issueTasks
  split_ifs with hempty
  · rw [List.isEmpty_iff.1 hempty]
    exact createTasks_undisturbed hparent []
  · refine Program.meets_call (fun _ _ => trivial) ?_ ?_
    · rintro s1 now listed s2 rfl heq
      cases heq
      exact createTasks_undisturbed hparent _
    · rintro s1 err rfl (hfails | ⟨now, heq⟩) s2 rfl
      · exact ⟨[], _, rfl, by simp, .refl e s, .inr ⟨⟨err, rfl⟩, .inl hfails⟩⟩
      · cases heq

/-- The row that an expression is read from is a row of the store, under its identifier. -/
theorem Store.mem_of_head? (hhead : (s.rowsOf e).2.head? = some r) :
    r ∈ s.expressions ∧ r.id = e := by
  have hmem : r ∈ s.expressions.filter (·.id == e) := List.mem_of_mem_head? hhead
  exact ⟨(List.mem_filter.1 hmem).1, beq_iff_eq.1 (List.mem_filter.1 hmem).2⟩

/-- The row of an expression has its identifier. -/
theorem Store.id_of_view (hrow : (s.view e).expression = some r) : r.id = e := by
  obtain ⟨r', hr', rfl⟩ := Option.map_eq_some_iff.1 hrow
  exact (mem_of_head? hr').2

section Due

variable (hrow : (s.view e).expression = some r) (hdue : r.isDue = true)
include hrow hdue

/-- The pass has ended before the row was marked. -/
theorem Ran.of_grown {s' : Store} (hissued : (r.plan (s.view e).tasks).issued = front ++ back)
    (hfront : ∀ x ∈ front, x.isStorable = true) (hgrown : s.Grown e front s')
    (hcause : fails ∨ ∃ x rest, back = x :: rest ∧ x.isStorable = false) : Ran fails e s s' := by
  obtain ⟨rows, htasks, -, hown⟩ := hgrown.exists_rows
  refine ⟨?_, fun e' hne => hgrown.rowsOf_of_ne hne, rows, htasks, hown⟩
  have hnew : front.map (Ready.row e) = front.map (Ready.row r.id) := by
    rw [Store.id_of_view hrow]
  rw [hgrown.view, hrow, hnew]
  refine hcause.symm.imp ?_ fun hfails => ⟨hfails, .created hrow hdue hissued hfront⟩
  rintro ⟨x, rest, rfl, hx⟩
  have hall : (front ++ x :: rest).all Ready.isStorable = false := by
    rw [List.all_append, List.all_cons, hx, Bool.false_and, Bool.and_false]
  rw [View.advance_of_due hrow hdue, View.carryOut, hissued, hall,
    List.takeWhile_append_of_pos hfront, List.takeWhile_cons_of_neg (by rw [hx]; decide),
    List.append_nil, if_neg Bool.false_ne_true]

/-- The pass has come to its end. -/
theorem Ran.of_marked {s' : Store} (now : Time.Instant)
    (hstorable : ∀ x ∈ (r.plan (s.view e).tasks).issued, x.isStorable = true)
    (hgrown : s.Grown e (r.plan (s.view e).tasks).issued s') :
    Ran fails e s (s'.setStatus now e (r.plan (s.view e).tasks).status
      (r.plan (s.view e).tasks).result (r.plan (s.view e).tasks).steps) := by
  obtain ⟨rows, htasks, -, hown⟩ := hgrown.exists_rows
  refine ⟨.inl ?_, fun e' hne => ?_, rows, htasks, hown⟩
  · rw [Store.view_setStatus, hgrown.view, hrow, View.advance_of_due hrow hdue, View.carryOut,
      List.takeWhile_eq_self_iff.2 hstorable, if_pos (List.all_eq_true.2 hstorable),
      Store.id_of_view hrow]
    rfl
  · rw [Store.rowsOf_setStatus_of_ne _ _ _ _ _ _ hne, hgrown.rowsOf_of_ne hne]

end Due

/-- The plan that the view of an expression gives is the one for its text and its tasks. -/
theorem plan_view (r : ExpressionRow) (e : Int) (s : Store) :
    r.bare.plan (s.view e).tasks = Plan.ofText (columnText r.source) (s.tasksOf e) := by
  show Plan.ofText _ (readableTasks ((s.tasks.filter (·.expressionId == e)).map TaskRow.bare)) = _
  rw [readableTasks_bare, Plan.ofText_bare]
  rfl

theorem ExpressionRow.isDue_bare (r : ExpressionRow) : r.bare.isDue = r.isDue := by
  unfold isDue read bare
  dsimp only
  cases readSteps r.steps <;> rfl

/-- The call that marks the expression as the plan says. -/
theorem setStatus_undisturbed {status st : ExpressionStatus} {value : Option Float}
    {lines : Option (List String)} {issued : List Ready} (hrow : (s.view e).expression = some r)
    (hdue : r.isDue = true) (hplan : r.plan (s.view e).tasks = ⟨issued, status, value, lines⟩)
    (hstorable : ∀ x ∈ issued, x.isStorable = true) {s' : Store} (hgrown : s.Grown e issued s') :
    ((liftM (Program.call (.setStatus e status value lines)) : Program Error Unit) >>=
      fun _ => pure st).Meets (undisturbed fails) (fun _ s'' => Ran fails e s s'') s' := by
  have hissued : (r.plan (s.view e).tasks).issued = issued := by rw [hplan]
  refine Program.meets_lift (fun _ _ => trivial) ?_ ?_
  · rintro s1 now reply s2 rfl heq s3 rfl
    cases heq
    have hmarked : Ran fails e s _ := Ran.of_marked hrow hdue now (by rwa [hissued])
      (by rwa [hissued])
    rwa [hplan] at hmarked
  · rintro s1 err rfl (hfails | ⟨now, heq⟩) s2 rfl
    · exact .of_grown hrow hdue (hissued.trans (List.append_nil _).symm) hstorable hgrown
        (.inl hfails)
    · cases heq

theorem laterPass_undisturbed {x : Expression} {r0 : ExpressionRow}
    (hhead : (s.rowsOf e).2.head? = some r0) (hread : r0.read = .ok x)
    (hdue : x.status.isTerminal = false) :
    (laterPass x).Meets (undisturbed fails) (fun _ s' => Ran fails e s s') s := by
  have hrow : (s.view e).expression = some r0.bare := congrArg (Option.map _) hhead
  have hparent : ∃ r ∈ s.expressions, r.id = e := ⟨r0, Store.mem_of_head? hhead⟩
  have hdue' : r0.bare.isDue = true := by
    rw [r0.isDue_bare, ExpressionRow.isDue, hread]
    show (!x.status.isTerminal) = true
    rw [hdue]
    rfl
  obtain ⟨hid, hsource, -⟩ := ExpressionRow.read_eq_ok hread
  have hid' : x.id = e := hid.trans (show r0.bare.id = e from Store.id_of_view hrow)
  have hplan := plan_view r0 e s
  rw [← hsource] at hplan
  unfold laterPass
  rw [hid']
  cases hparse : Expr.parse x.source with
  | error cause =>
    have hplan' : r0.bare.plan (s.view e).tasks =
        ⟨[], .error, none, some (rejection cause)⟩ := by
      rw [hplan, Plan.ofText, hparse]
    refine fun s1 ho => ⟨trivial, fun reply s2 hserved => ?_⟩
    cases ho
    cases hserved with
    | answered now heq =>
      cases heq
      rintro s3 rfl
      have hissued : (r0.bare.plan (s.view e).tasks).issued = [] := by rw [hplan']
      have hmarked : Ran fails e s _ :=
        Ran.of_marked hrow hdue' now (by rw [hissued]; simp) (by rw [hissued]; exact .refl e s)
      rwa [hplan'] at hmarked
    | refused now heq => cases heq
    | failed err hfails =>
      rintro s3 rfl
      exact .of_fails hfails e s
  | ok tree =>
    dsimp only
    refine Program.meets_lift (fun _ _ => trivial) ?_ ?_
    · rintro s1 now listed s2 rfl heq
      cases heq
      have hplan' : r0.bare.plan (s.view e).tasks =
          Plan.toward (s.tasksOf e) (tree.refill (doneTasks (s.tasksOf e))) := by
        rw [hplan, Plan.ofText, hparse]
      revert hplan'
      generalize tree.refill (doneTasks (s.tasksOf e)) = rest
      intro hplan'
      have hissued : (r0.bare.plan (s.view e).tasks).issued =
          uncovered (s.tasksOf e) rest.frontier := by
        rw [hplan', Plan.toward]
        cases rest.value? <;> rfl
      refine (issueTasks_undisturbed hparent rest).lift ?_ ?_
      · intro n s' hcreated
        obtain ⟨hall, hgrown⟩ := hcreated.of_ok
        unfold conclude
        unfold Plan.toward at hplan'
        cases hvalue : rest.value? with
        | some v =>
          rw [hvalue] at hplan'
          exact setStatus_undisturbed hrow hdue' hplan' hall hgrown
        | none =>
          rw [hvalue] at hplan'
          exact setStatus_undisturbed hrow hdue' hplan' hall hgrown
      · rintro err s' hcreated s'' rfl
        obtain ⟨front, back, hsplit, hfront, hgrown, hcause⟩ := hcreated.of_error
        exact .of_grown hrow hdue' (hissued.trans hsplit) hfront hgrown hcause
    · rintro s1 err rfl (hfails | ⟨now, heq⟩) s2 rfl
      · exact .of_fails hfails e s
      · cases heq

/-- The task belongs to the expression. -/
def Store.TaskOf (s : Store) (i e : Int) : Prop :=
  ∃ k, s.task? i = .ok (some k) ∧ k.expressionId = e

theorem Store.TaskOf.unique {i e' : Int} (h : s.TaskOf i e) (h' : s.TaskOf i e') : e = e' := by
  obtain ⟨k, hk, rfl⟩ := h
  obtain ⟨k', hk', rfl⟩ := h'
  cases hk.symm.trans hk'
  rfl

/-- A pass over an expression that is finished, or whose row does not read, does nothing. -/
theorem Ran.of_not_due (h : ∀ r, (s.rowsOf e).2.head? = some r → r.isDue = false) :
    Ran fails e s s := by
  refine .of_idle (View.advance_of_not_due fun r hrow => ?_)
  obtain ⟨r0, hr0, rfl⟩ := Option.map_eq_some_iff.1 hrow
  rw [r0.isDue_bare]
  exact h r0 hr0

/-- What a pass does once it knows its expression. -/
theorem visit_undisturbed (e : Int) (s : Store) :
    (do
      let x ← found .expression e (← Program.call (.getExpression e))
      if x.status.isTerminal then pure x.status else laterPass x : Program Error _).Meets
        (undisturbed fails) (fun _ s' => Ran fails e s s') s := by
  have hlookup : s.expression? e = Store.readFound ExpressionRow.read (s.rowsOf e).2.head? := by
    rw [Store.expression?, ← List.head?_filter]
    rfl
  refine Program.meets_lift (fun _ _ => trivial) ?_ ?_
  · rintro s1 now reply s2 rfl heq
    obtain ⟨hfind, rfl⟩ := Store.map_pair_ok heq
    rw [hlookup] at hfind
    cases hhead : (s2.rowsOf e).2.head? with
    | none =>
      rw [hhead] at hfind
      cases hfind
      rintro s3 rfl
      refine .of_not_due fun r hr => ?_
      cases hhead.symm.trans hr
    | some r =>
      rw [hhead, Store.readFound] at hfind
      cases hread : r.read with
      | error err =>
        rw [hread] at hfind
        cases hfind
      | ok x =>
        rw [hread] at hfind
        cases hfind
        show ((if x.status.isTerminal then pure x.status else laterPass x) :
          Program Error _).Meets _ _ _
        split_ifs with hterminal
        · rintro s3 rfl
          refine .of_not_due fun r' hr' => ?_
          cases hhead.symm.trans hr'
          rw [ExpressionRow.isDue, hread]
          show (!x.status.isTerminal) = false
          rw [hterminal]
          rfl
        · exact laterPass_undisturbed hhead hread (Bool.not_eq_true _ ▸ hterminal)
  · rintro s1 err rfl (hfails | ⟨now, heq⟩) s2 rfl
    · exact .of_fails hfails e s
    · refine .of_not_due fun r hr => ?_
      have hfind := Store.map_pair_error heq
      rw [hlookup, hr, Store.readFound] at hfind
      unfold ExpressionRow.isDue
      cases hread : r.read with
      | error err' => rfl
      | ok x =>
        rw [hread] at hfind
        cases hfind

theorem passAfter_undisturbed (fails : Prop) (i : Int) (s : Store) :
    (passAfter i).Meets (undisturbed fails)
      (fun _ s' => (∀ e, s.TaskOf i e → Ran fails e s s') ∧ ((∀ e, ¬s.TaskOf i e) → s' = s)) s := by
  unfold passAfter
  refine Program.meets_lift (fun _ _ => trivial) ?_ ?_
  · rintro s1 now task s2 rfl heq
    obtain ⟨htask, rfl⟩ := Store.map_pair_ok heq
    cases task with
    | none =>
      rintro s3 rfl
      refine ⟨?_, fun _ => rfl⟩
      rintro e ⟨k, hk, -⟩
      cases htask.symm.trans hk
    | some k =>
      have hof : s2.TaskOf i k.expressionId := ⟨k, htask, rfl⟩
      refine Program.Meets.mono (visit_undisturbed k.expressionId s2) fun result s3 hran => ?_
      exact ⟨fun e he => he.unique hof ▸ hran, fun hnone => absurd hof (hnone _)⟩
  · rintro s1 err rfl herr s2 rfl
    refine ⟨?_, fun _ => rfl⟩
    rintro e ⟨k, hk, -⟩
    rcases herr with hfails | ⟨now, heq⟩
    · exact .of_fails hfails e s
    · cases (Store.map_pair_error heq).symm.trans hk

end Passes

end Piecework
