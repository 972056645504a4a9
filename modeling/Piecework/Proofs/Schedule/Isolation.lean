import Piecework.Proofs.Schedule.Calls
import Piecework.Proofs.Schedule.Issue
import Piecework.Proofs.Store.Fate

/-!
# Passes that do not touch each other

A recovery lists the unfinished expressions and makes a pass over each of them, whatever becomes
of the others.  Any call of any pass may fail, and a pass that fails may still write its reason
down.  All the same every expression depends on its own pass alone.

* `Call.Concerns` are the calls that a pass over an expression may make, and `Concerns.rowsOf` says
  that the rows of other expressions stay as they are, whether calls fail or not.
* `firstPass_undisturbed` says what a first pass makes of an expression, in terms of its view;
  `resume_undisturbed` adds the later passes.
* `perform_resumeAll` and `perform_recover` take a recovery apart into its passes.
* `recover_passes_apart`: an expression whose own pass is spared ends as if no other pass had been
  made, and what was not listed is not touched.
-/

namespace Piecework

open Schedule

/-! ## Calls on one expression -/

/-- The calls that a pass over an expression may make. -/
inductive Call.Concerns (e : Int) : Call → Prop
  | list : Concerns e (.listTasks e)
  | create (op : Operator) (lhs rhs : Float) (path : String) :
      Concerns e (.createTask e op lhs rhs path)
  | mark (status : ExpressionStatus) (result : Option Float) (steps : Option (List String)) :
      Concerns e (.setStatus e status result steps)

section Concerns

variable {e e' : Int} {s s' : Store}

theorem Store.rowsOf_createTask_of_ne {now : Time.Instant} {op : Operator} {lhs rhs : Float}
    {path : String} {id : Int} (h : s.createTask now e op lhs rhs path = .ok (id, s'))
    (hne : e' ≠ e) : s'.rowsOf e' = s.rowsOf e' := by
  obtain ⟨k, hissued, rfl, -⟩ := Store.createTask_ok h
  obtain ⟨row, htasks, -, hread, -⟩ := hissued.rows
  have hnone : [row].filter (·.expressionId == e') = [] := by
    have hother : (row.expressionId == e') = false :=
      beq_eq_false_iff_ne.2 fun heq =>
        hne (heq.symm.trans (TaskRow.expressionId_of_read hread).symm)
    rw [List.filter_singleton, hother]
    rfl
  rw [rowsOf, htasks, List.filter_append, hnone, List.append_nil, hissued.expressions, rowsOf]

/-- A call on an expression leaves the rows of the others as they are. -/
theorem Call.Concerns.rowsOf {c : Call} (h : c.Concerns e) {now : Time.Instant} {reply : c.Reply}
    (heq : s.answer now c = .ok (reply, s')) (hne : e' ≠ e) : s'.rowsOf e' = s.rowsOf e' := by
  cases h with
  | list =>
    cases heq
    rfl
  | create op lhs rhs path => exact Store.rowsOf_createTask_of_ne heq hne
  | mark status result steps =>
    cases heq
    exact s.rowsOf_setStatus_of_ne now e status result steps hne

theorem Call.Concerns.served {fails : Prop} {c : Call} (h : c.Concerns e)
    {reply : Except StoreError c.Reply} (hserved : Served fails s c reply s') (hne : e' ≠ e) :
    s'.rowsOf e' = s.rowsOf e' := by
  cases hserved with
  | answered now heq => exact h.rowsOf heq hne
  | refused | failed => rfl

/-- So does a program that only makes such calls, whatever fails. -/
theorem Program.Asks.rowsOf {ε α : Type} {p : Program ε α} (h : p.Asks (Call.Concerns e))
    (φ : Fate) (x : Counted) (hne : e' ≠ e) :
    (φ.perform p x).2.store.rowsOf e' = x.store.rowsOf e' := by
  induction p generalizing x with
  | done result => rfl
  | ask c next ih =>
    have hserved : Served True x.store c (φ.answer c x).1 (φ.answer c x).2.store :=
      Fate.answer_served (.inl trivial) c
    exact (ih _ (h.2 _) (φ.answer c x).2).trans (h.1.served hserved hne)

theorem FirstPassCall.concerns {text : String} (c : Call) (h : FirstPassCall e text c) :
    c.Concerns e := by
  cases h with
  | list => exact .list
  | create op lhs rhs path => exact .create op lhs rhs path
  | done value steps => exact .mark _ _ _
  | inProgress => exact .mark _ _ _
  | gaveUp => exact .mark _ _ _

theorem laterPass_asks (x : Expression) : (laterPass x).Asks (Call.Concerns x.id) := by
  unfold laterPass
  cases Expr.parse x.source with
  | error cause => exact (Program.asks_call (.mark _ _ _)).attempt.bind fun _ => trivial
  | ok tree =>
    refine (Program.asks_call .list).lift.bind fun listed => ?_
    refine ((issueTasks_asks x.id x.source _).mono FirstPassCall.concerns).lift.bind fun _ => ?_
    exact (conclude_asks x.id x.source _ _).mono FirstPassCall.concerns

/-- A pass of a recovery makes calls on its own expression only. -/
theorem resume_asks (x : Expression) : (resume x).Asks (Call.Concerns x.id) := by
  unfold resume
  split_ifs
  · exact (firstPass_asks x.id x.source).mono FirstPassCall.concerns
  · exact laterPass_asks x

end Concerns

/-! ## First passes -/

/-- The plan of a first pass over a text. -/
def Plan.first (text : String) (tasks : List Task) : Plan :=
  match Expr.parse text with
  | .error e => ⟨[], .error, none, some (rejection e)⟩
  | .ok t =>
    match t.value? with
    | some v => ⟨uncovered tasks t.frontier, .done, some v, some (literalSteps v)⟩
    | none => ⟨uncovered tasks t.frontier, .inProgress, none, none⟩

namespace View

/-- What a plan that is carried out to its end makes of an expression. -/
def finish (plan : Plan) (v : View) : View :=
  match v.expression with
  | some r =>
    ⟨v.tasks ++ plan.issued.map (Ready.row r.id),
      some (Store.mark plan.status plan.result plan.steps "" r)⟩
  | none => v

/-- What a first pass over a text makes of an expression. -/
def begun (text : String) (v : View) : View := v.finish (.first text (readableTasks v.tasks))

/-- What the pass of a recovery makes of an expression. -/
def resumed (x : Expression) (v : View) : View :=
  if x.status = .pending then v.begun x.source else v.advance

end View

section FirstPass

variable {e : Int} {s s' : Store} {r : ExpressionRow}

/-- Tasks for a plan were created, and then the expression was marked as the plan says. -/
theorem Store.Grown.finish (plan : Plan) (h : Grown e plan.issued s s')
    (hhead : (s.rowsOf e).2.head? = some r) (now : Time.Instant) :
    (s'.setStatus now e plan.status plan.result plan.steps).view e = (s.view e).finish plan := by
  have hrow : (s.view e).expression = some r.bare := congrArg (Option.map _) hhead
  have hid : r.bare.id = e := Store.id_of_view hrow
  rw [view_setStatus, h.view, View.finish, hrow]
  dsimp only
  rw [hid]
  rfl

/-- The call that marks the expression as a plan says, after its tasks were created. -/
theorem finish_undisturbed {status st : ExpressionStatus} {value : Option Float}
    {lines : Option (List String)} {issued : List Ready} (hgrown : s.Grown e issued s')
    (hhead : (s.rowsOf e).2.head? = some r) :
    ((liftM (Program.call (.setStatus e status value lines)) : Program Error Unit) >>=
      fun _ => pure st).Meets (undisturbed False)
        (fun _ s'' => s''.view e = (s.view e).finish ⟨issued, status, value, lines⟩) s' := by
  refine Program.meets_lift (fun _ _ => trivial) ?_ ?_
  · rintro s1 now reply s2 rfl heq s3 rfl
    cases heq
    exact Store.Grown.finish ⟨issued, status, value, lines⟩ hgrown hhead now
  · rintro s1 err rfl (hfails | ⟨now, heq⟩)
    · exact hfails.elim
    · cases heq

/-- A first pass that no call fails in carries out its plan. -/
theorem firstPass_undisturbed (hhead : (s.rowsOf e).2.head? = some r) (text : String) :
    (firstPass e text).Meets (undisturbed False)
      (fun _ s' => s'.view e = (s.view e).begun text) s := by
  have hparent : ∃ r ∈ s.expressions, r.id = e := ⟨r, Store.mem_of_head? hhead⟩
  unfold View.begun Plan.first
  cases hparse : Expr.parse text with
  | error cause =>
    unfold firstPass
    rw [hparse]
    refine fun s1 ho => ⟨trivial, fun reply s2 hserved => ?_⟩
    cases ho
    cases hserved with
    | answered now heq =>
      cases heq
      rintro s3 rfl
      exact Store.Grown.finish ⟨[], .error, none, some (rejection cause)⟩
        (.refl e s) hhead now
    | refused now heq => cases heq
    | failed err hfails => exact hfails.elim
  | ok t =>
    have hnumbers : t.Every fun v => v.isNaN = false :=
      (Expr.finite_of_parse hparse).imp fun v => Number.isNaN_of_isFinite
    rw [firstPass_eq hparse]
    dsimp only
    rw [Store.uncovered_view]
    refine (issueTasks_supplies hparent hnumbers).attempt ?_
    rintro result s1 ⟨rfl, hsupplied⟩
    have hgrown := hsupplied.grown
    rw [← Store.uncovered_eq_missing] at hgrown
    dsimp only
    unfold conclude
    cases t.value? with
    | some v => exact finish_undisturbed hgrown hhead
    | none => exact finish_undisturbed hgrown hhead

end FirstPass

/-! ## The passes of a recovery -/

/-- The row of a listed expression: the store gives it back so, and it is not finished. -/
def Store.Waiting (x : Expression) (s : Store) : Prop :=
  ∃ r, (s.rowsOf x.id).2.head? = some r ∧ r.read = .ok x ∧ x.status.isTerminal = false

section Waiting

variable {s s' : Store} {x : Expression}

theorem Store.waiting_of_mem_unfinished (hkeys : (s.expressions.map ExpressionRow.id).Nodup)
    (hx : x ∈ s.unfinished) : s.Waiting x := by
  obtain ⟨r, hr, hunfinished, hread⟩ := Store.mem_unfinished.1 hx
  have hid : x.id = r.id := (ExpressionRow.read_eq_ok hread).1
  have hmem : r ∈ s.expressions.filter (·.id == x.id) :=
    List.mem_filter.2 ⟨hr, beq_iff_eq.2 hid.symm⟩
  obtain ⟨r', hr'⟩ := Option.isSome_iff_exists.1 (List.isSome_head?.2 (List.ne_nil_of_mem hmem))
  obtain ⟨hmem', hid'⟩ := mem_of_head? hr'
  cases List.inj_on_of_nodup_map hkeys hmem' hr (hid'.trans hid)
  refine ⟨r, hr', hread, ?_⟩
  rw [ExpressionRow.isUnfinished_iff] at hunfinished
  rcases hunfinished with hstatus | hstatus <;>
    rw [ExpressionRow.status_of_read hread hstatus] <;> rfl

theorem Store.Waiting.congr (h : s.Waiting x) (hrows : s'.rowsOf x.id = s.rowsOf x.id) :
    s'.Waiting x := by
  rwa [Waiting, hrows]

/-- What a pass of a recovery that no call fails in makes of its expression. -/
theorem resume_undisturbed (h : s.Waiting x) :
    (resume x).Meets (undisturbed False)
      (fun _ s' => s'.view x.id = (s.view x.id).resumed x) s := by
  obtain ⟨r, hhead, hread, hdue⟩ := h
  unfold resume View.resumed
  split_ifs
  · exact firstPass_undisturbed hhead x.source
  · refine (laterPass_undisturbed hhead hread hdue).mono fun result s' hran => ?_
    exact hran.view.resolve_right fun hcut => hcut.1

end Waiting

namespace Fate

variable {φ : Fate} {x : Counted} {s : Store}

/-- Makes the passes over listed expressions, one after the other. -/
def passes (φ : Fate) (listed : List Expression) (x : Counted) : Counted :=
  listed.foldl (fun x e => (φ.perform (resume e) x).2) x

theorem perform_resumeAll (φ : Fate) (listed : List Expression) (x : Counted) :
    φ.perform (resumeAll listed) x = (.ok (), φ.passes listed x) := by
  induction listed generalizing x with
  | nil => rfl
  | cons e rest ih =>
    change φ.perform ((resume e).attempt >>= fun _ => resumeAll rest) x = _
    rw [Program.attempt_bind, perform_andThen]
    exact ih _

theorem passes_append (φ : Fate) (listed listed' : List Expression) (x : Counted) :
    φ.passes (listed ++ listed') x = φ.passes listed' (φ.passes listed x) :=
  List.foldl_append

/-- A recovery whose listing fails ends there. -/
theorem perform_recover_of_failure {e : StoreError} (h : φ.failure? x.calls = some e) :
    φ.perform recover x = (.error (.store e), ⟨x.store, x.calls + 1⟩) := by
  have hanswer : φ.answer .listUnfinished x = (.error e, ⟨x.store, x.calls + 1⟩) := by
    rw [answer, h]
  change φ.perform (.ask .listUnfinished _) x = _
  rw [perform_ask, hanswer]
  rfl

/-- A recovery whose listing does not fail makes its passes and counts them. -/
theorem perform_recover (h : φ.failure? x.calls = none) :
    φ.perform recover x = (.ok x.store.unfinished.length,
      φ.passes x.store.unfinished ⟨x.store, x.calls + 1⟩) := by
  have hanswer : φ.answer .listUnfinished x =
      (.ok x.store.unfinished, ⟨x.store, x.calls + 1⟩) := by
    rw [answer, h]
    rfl
  change φ.perform (.ask .listUnfinished _) x = _
  rw [perform_ask, hanswer]
  change φ.perform (Program.andThen (resumeAll _) _) _ = _
  rw [perform_andThen, perform_resumeAll]
  rfl

/-- The passes leave the rows of all other expressions as they are. -/
theorem rowsOf_passes (φ : Fate) {listed : List Expression} {i : Int}
    (hi : i ∉ listed.map Expression.id) (x : Counted) :
    (φ.passes listed x).store.rowsOf i = x.store.rowsOf i := by
  induction listed generalizing x with
  | nil => rfl
  | cons e rest ih =>
    rw [List.map_cons, List.mem_cons, not_or] at hi
    exact (ih hi.2 _).trans ((resume_asks e).rowsOf φ x hi.1)

/-- A pass that is spared makes of its expression what it would make of it alone. -/
theorem view_resume {e : Expression} (h : x.store.Waiting e)
    (hspared : φ.Spares x (φ.perform (resume e) x).2) :
    (φ.perform (resume e) x).2.store.view e.id = (x.store.view e.id).resumed e :=
  (resume_undisturbed h).spared hspared

end Fate

/-- Recovery is stopped by nothing but a failure to list the expressions, and that changes
nothing.  Otherwise it counts the listed expressions.  Each of them whose own calls are spared
ends, apart from identifiers and stamps, as if its pass had been the only one; what was not listed
stays as it is. -/
theorem recover_passes_apart (φ : Fate) {s : Store}
    (hkeys : (s.expressions.map ExpressionRow.id).Nodup) :
    (∀ e, φ.failure? 0 = some e → φ.perform recover ⟨s, 0⟩ = (.error (.store e), ⟨s, 1⟩)) ∧
      (φ.failure? 0 = none →
        (φ.perform recover ⟨s, 0⟩).1 = .ok s.unfinished.length ∧
          (∀ before x after, s.unfinished = before ++ x :: after →
            φ.Spares (φ.passes before ⟨s, 1⟩) (φ.passes (before ++ [x]) ⟨s, 1⟩) →
            ∀ alone : Fate, alone.Kind →
              (φ.perform recover ⟨s, 0⟩).2.store.view x.id =
                (alone.perform (resume x) ⟨s, 0⟩).2.store.view x.id) ∧
          ∀ i, i ∉ s.unfinished.map Expression.id →
            (φ.perform recover ⟨s, 0⟩).2.store.rowsOf i = s.rowsOf i) := by
  refine ⟨fun e he => Fate.perform_recover_of_failure he, fun hlisted => ?_⟩
  rw [Fate.perform_recover hlisted]
  refine ⟨rfl, fun before x after hsplit hspared alone hkind => ?_, fun i hi => ?_⟩
  · have hwaiting : s.Waiting x := Store.waiting_of_mem_unfinished hkeys (by simp [hsplit])
    have hnodup := Store.nodup_unfinished hkeys
    rw [hsplit, List.map_append, List.map_cons, List.nodup_append, List.nodup_cons] at hnodup
    obtain ⟨-, ⟨hafter, -⟩, hbefore⟩ := hnodup
    -- The passes in front leave the rows of the expression alone, and so do those behind.
    have hfront : (φ.passes before ⟨s, 1⟩).store.rowsOf x.id = s.rowsOf x.id :=
      φ.rowsOf_passes (fun h => hbefore _ h _ List.mem_cons_self rfl) ⟨s, 1⟩
    have halone : (alone.perform (resume x) ⟨s, 0⟩).2.store.view x.id = (s.view x.id).resumed x :=
      Fate.view_resume (x := ⟨s, 0⟩) hwaiting fun n _ _ => hkind n
    rw [Fate.passes_append] at hspared
    calc (φ.passes s.unfinished ⟨s, 1⟩).store.view x.id
        = (φ.passes after (φ.perform (resume x) (φ.passes before ⟨s, 1⟩)).2).store.view x.id := by
          rw [hsplit, Fate.passes_append]
          rfl
      _ = (φ.perform (resume x) (φ.passes before ⟨s, 1⟩)).2.store.view x.id :=
          Store.view_congr (φ.rowsOf_passes hafter _)
      _ = ((φ.passes before ⟨s, 1⟩).store.view x.id).resumed x :=
          Fate.view_resume (hwaiting.congr hfront) hspared
      _ = (s.view x.id).resumed x := by rw [Store.view_congr hfront]
      _ = (alone.perform (resume x) ⟨s, 0⟩).2.store.view x.id := halone.symm
  · exact φ.rowsOf_passes hi ⟨s, 1⟩

/-- Two sums, of which the second has its result, a text that does not parse between them, and an
expression that is done. -/
def mixedBag : Store :=
  ⟨[⟨1, 3, "+", 1, 2, "", some 3, "done", 0, "", ""⟩],
    [⟨1, "alice", "1+2", "pending", none, none, "", ""⟩,
      ⟨2, "bob", "1+", "pending", none, none, "", ""⟩,
      ⟨3, "carol", "1+2", "in_progress", none, none, "", ""⟩,
      ⟨4, "dave", "7", "done", some 7, none, "", ""⟩], 1, 4⟩

/-- An expression of the bag as the listing gives it. -/
def listedAs (id : Int) (owner source : String) (status : ExpressionStatus) : Expression :=
  ⟨id, owner, source, status, none, none, Time.ofStamp "", Time.ofStamp ""⟩

/-- The call after the first one fails. -/
def secondFails : Fate :=
  ⟨fun _ => Site.dawn, fun n => if n = 1 then some (.query "disk I/O error") else none⟩

/-- The tasks of the first sum cannot be listed.  The second sum is spared, so it ends as it would
have ended alone. -/
theorem mixedBag_recover : (mixedBag.expressions.map ExpressionRow.id).Nodup ∧
    secondFails.failure? 0 = none ∧
    (secondFails.perform recover ⟨mixedBag, 0⟩).1 = .ok 3 ∧
    (∃ x ∈ mixedBag.unfinished, x.id = 3 ∧ ∀ alone : Fate, alone.Kind →
      (secondFails.perform recover ⟨mixedBag, 0⟩).2.store.view 3 =
        (alone.perform (resume x) ⟨mixedBag, 0⟩).2.store.view 3) ∧
    (secondFails.perform recover ⟨mixedBag, 0⟩).2.store.rowsOf 4 = mixedBag.rowsOf 4 := by
  have hkeys : (mixedBag.expressions.map ExpressionRow.id).Nodup := by decide +kernel
  have hlisted : secondFails.failure? 0 = none := rfl
  let first := listedAs 1 "alice" "1+2" .pending
  let before := [first, listedAs 2 "bob" "1+" .pending]
  let third := listedAs 3 "carol" "1+2" .inProgress
  have hsplit : mixedBag.unfinished = before ++ third :: [] := by decide +kernel
  have hcalls : 2 ≤ (secondFails.passes before ⟨mixedBag, 1⟩).calls :=
    calc 1 < (secondFails.perform (firstPass 1 "1+2") ⟨mixedBag, 1⟩).2.calls := by
          rw [firstPass_eq Expr.parse_sum]
          exact secondFails.calls_lt_ask (.listTasks 1) _ ⟨mixedBag, 1⟩
      _ ≤ (secondFails.passes before ⟨mixedBag, 1⟩).calls := secondFails.calls_le _ _
  have hspared : secondFails.Spares (secondFails.passes before ⟨mixedBag, 1⟩)
      (secondFails.passes (before ++ [third]) ⟨mixedBag, 1⟩) := fun n hn _ => if_neg (by omega)
  obtain ⟨-, h⟩ := recover_passes_apart secondFails hkeys
  obtain ⟨hcount, hviews, hrows⟩ := h hlisted
  refine ⟨hkeys, hlisted, hcount, ⟨third, by simp [hsplit], rfl, ?_⟩, hrows 4 (by decide +kernel)⟩
  exact hviews before third [] hsplit hspared

end Piecework
