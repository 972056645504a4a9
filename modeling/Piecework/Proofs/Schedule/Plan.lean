import Piecework.Proofs.Schedule.Standing

/-!
# What a pass has to do

A pass over an expression reads nothing but the text of the expression and its tasks.
`Plan.ofText` is what it makes of them: the operations that get a task, in this order, and
what the row is to show at the end.

Two passes are compared by what the store holds on the expression, apart from the
identifiers and the stamps of rows: its `View`.  `View.advance` carries out a plan.

* `Plan.ofText_append`: once the first operations of a plan have their tasks, the rest of the
  plan is left.  New tasks are pending, so they bring no result, and no two ready operations
  share a path, so a new task covers its own operation only.
* `View.CutOff` is what a pass leaves behind that was cut off somewhere, and
  `View.CutOff.advance_eq` says that the next pass makes up for it.
* `View.advance_advance`: an expression that was taken as far as it goes stays there.
-/

namespace Piecework

open Schedule

/-! ## Rows without identifiers and stamps -/

/-- What a row says, apart from its identifier and its stamps. -/
def TaskRow.bare (r : TaskRow) : TaskRow := { r with id := 0, createdAt := "", updatedAt := "" }

/-- What a row says, apart from the stamp of its last change. -/
def ExpressionRow.bare (r : ExpressionRow) : ExpressionRow := { r with updatedAt := "" }

/-- What a task says, apart from its identifier and its stamps. -/
def Task.bare (k : Task) : Task :=
  { k with
    id := 0
    createdAt := Time.ofStamp (columnText "")
    updatedAt := Time.ofStamp (columnText "") }

theorem TaskRow.read_bare (r : TaskRow) : r.bare.read = r.read.map Task.bare := by
  unfold read bare
  dsimp only
  cases Operator.ofSymbol (columnText r.operator) <;> rfl

theorem readableTasks_bare (rows : List TaskRow) :
    readableTasks (rows.map TaskRow.bare) = (readableTasks rows).map Task.bare := by
  rw [readableTasks, readableTasks, List.filterMap_map, List.map_filterMap]
  refine List.filterMap_congr fun r _ => ?_
  show r.bare.read.toOption = r.read.toOption.map Task.bare
  rw [r.read_bare]
  cases r.read <;> rfl

theorem readableTasks_append (rows rows' : List TaskRow) :
    readableTasks (rows ++ rows') = readableTasks rows ++ readableTasks rows' :=
  List.filterMap_append

section Bare

variable (tasks : List Task)

theorem resultOf?_bare (path : String) (op : Operator) (a b : Float) :
    resultOf? (tasks.map Task.bare) path op a b = resultOf? tasks path op a b := by
  have hfind : finished? (tasks.map Task.bare) path op a b =
      (finished? tasks path op a b).map Task.bare := List.find?_map
  rw [resultOf?, hfind, Option.bind_map, resultOf?]
  rfl

theorem doneTasks_bare : doneTasks (tasks.map Task.bare) = (doneTasks tasks).map Task.bare :=
  List.filter_map

theorem trace_bare : trace (tasks.map Task.bare) = trace tasks := by
  rw [trace, trace, List.filterMap_map]
  rfl

theorem uncovered_bare (ready : List Ready) :
    uncovered (tasks.map Task.bare) ready = uncovered tasks ready := by
  refine List.filter_congr fun x _ => ?_
  rw [List.any_map]
  rfl

end Bare

/-! ## Plans -/

/-- The operations that a pass creates tasks for, and what it writes down at the end. -/
structure Plan where
  issued : List Ready
  status : ExpressionStatus
  result : Option Float
  steps : Option (List String)

namespace Plan

/-- The plan for a tree with results folded in. -/
def toward (tasks : List Task) (rest : Tree) : Plan :=
  match rest.value? with
  | some v => ⟨uncovered tasks rest.frontier, .done, some v, some (trace (doneTasks tasks))⟩
  | none => ⟨uncovered tasks rest.frontier, .inProgress, none, none⟩

/-- The plan for a text and the tasks that there are. -/
def ofText (source : String) (tasks : List Task) : Plan :=
  match Expr.parse source with
  | .error e => ⟨[], .error, none, some (rejection e)⟩
  | .ok t => toward tasks (t.refill (doneTasks tasks))

theorem ofText_bare (source : String) (tasks : List Task) :
    ofText source (tasks.map Task.bare) = ofText source tasks := by
  unfold ofText
  cases Expr.parse source with
  | error e => rfl
  | ok t =>
    dsimp only
    have hrest : t.refill (doneTasks (tasks.map Task.bare)) = t.refill (doneTasks tasks) := by
      rw [Tree.refill_doneTasks, Tree.refill_doneTasks]
      exact t.refill_congr (resultOf?_bare tasks)
    rw [hrest]
    unfold toward
    rw [doneTasks_bare, trace_bare, uncovered_bare]

/-! ### Plans that are carried out in part -/

section Append

variable {tasks new : List Task} {front back : List Ready}

/-- Tasks that wait for a worker bring no result. -/
theorem doneTasks_append (hpending : ∀ k ∈ new, k.status = .pending) :
    doneTasks (tasks ++ new) = doneTasks tasks := by
  have hnone : doneTasks new = [] := by
    refine List.filter_eq_nil_iff.2 fun k hk => ?_
    rw [hpending k hk]
    decide
  rw [doneTasks, List.filter_append]
  exact (congrArg _ hnone).trans (List.append_nil _)

/-- What is left uncovered once the first of the uncovered operations have tasks. -/
theorem uncovered_append {ready : List Ready} (hnodup : (ready.map Ready.path).Nodup)
    (h : uncovered tasks ready = front ++ back) (hnew : ∀ k ∈ new, ∃ x ∈ front, k.IssuedFor x)
    (hall : ∀ x ∈ front, ∃ k ∈ new, k.IssuedFor x) : uncovered (tasks ++ new) ready = back := by
  have hsplit : uncovered (tasks ++ new) ready = uncovered new (front ++ back) := by
    rw [← h, uncovered, uncovered, uncovered, List.filter_filter]
    refine List.filter_congr fun x _ => ?_
    rw [List.any_append, Bool.not_or, Bool.and_comm]
  have hpaths : ((front ++ back).map Ready.path).Nodup := by
    rw [← h]
    exact hnodup.sublist (List.filter_sublist.map _)
  rw [List.map_append, List.nodup_append] at hpaths
  have hfront : uncovered new front = [] := by
    refine List.filter_eq_nil_iff.2 fun x hx => ?_
    obtain ⟨k, hk, hissued⟩ := hall x hx
    have hcovered : new.any (·.covers x) = true := List.any_eq_true.2 ⟨k, hk, hissued.covers⟩
    rw [hcovered]
    decide
  have hback : uncovered new back = back := by
    refine List.filter_eq_self.2 fun x hx => ?_
    rw [Bool.not_eq_true', List.any_eq_false]
    intro k hk hcovers
    obtain ⟨y, hy, hissued⟩ := hnew k hk
    have hpath : y.path = x.path :=
      Path.text_injective (hissued.path.symm.trans (Task.path_of_covers hcovers))
    exact hpaths.2.2 _ (List.mem_map_of_mem hy) _ (List.mem_map_of_mem hx) hpath
  rw [hsplit, uncovered, List.filter_append]
  exact congr (congrArg _ hfront) hback

/-- Once the first operations of a plan have their tasks, the rest of it is left. -/
theorem ofText_append {source : String} (h : (ofText source tasks).issued = front ++ back)
    (hnew : ∀ k ∈ new, ∃ x ∈ front, k.IssuedFor x)
    (hall : ∀ x ∈ front, ∃ k ∈ new, k.IssuedFor x) :
    ofText source (tasks ++ new) = { ofText source tasks with issued := back } := by
  unfold ofText at h ⊢
  revert h
  cases Expr.parse source with
  | error e =>
    intro h
    have hback : back = [] := (List.append_eq_nil_iff.1 h.symm).2
    rw [hback]
  | ok t =>
    dsimp only
    intro h
    have hdone : doneTasks (tasks ++ new) = doneTasks tasks := by
      refine doneTasks_append fun k hk => ?_
      obtain ⟨x, -, hissued⟩ := hnew k hk
      exact hissued.status
    rw [hdone]
    revert h
    generalize t.refill (doneTasks tasks) = rest
    intro h
    have huncovered : uncovered (tasks ++ new) rest.frontier = back := by
      refine uncovered_append rest.nodup_frontier ?_ hnew hall
      rw [← h, toward]
      cases rest.value? <;> rfl
    unfold toward
    rw [huncovered, hdone]
    cases rest.value? <;> rfl

end Append

end Plan

/-! ## New tasks -/

namespace Ready

/-- Both operands are numbers, so that the columns of a row have a place for them. -/
def isStorable (x : Ready) : Bool := (columnFloat x.lhs).isSome && (columnFloat x.rhs).isSome

/-- What the row of a new task says. -/
def row (e : Int) (x : Ready) : TaskRow :=
  ⟨0, e, x.op.symbol, (columnFloat x.lhs).getD 0, (columnFloat x.rhs).getD 0, x.path.text, none,
    TaskStatus.pending.name, 0, "", ""⟩

/-- What a new task says. -/
def task (e : Int) (x : Ready) : Task :=
  ⟨0, e, x.op, (columnFloat x.lhs).getD 0, (columnFloat x.rhs).getD 0, x.path.text, none, .pending,
    retriesOf 0, Time.ofStamp (columnText ""), Time.ofStamp (columnText "")⟩

theorem read_row (e : Int) (x : Ready) : (x.row e).read = .ok (x.task e) := by
  unfold row TaskRow.read
  simp only [columnText_symbol, Operator.ofSymbol_symbol, columnText_taskStatus, columnText_path,
    TaskStatus.ofStored_name, task]

theorem readableTasks_row (e : Int) (xs : List Ready) :
    readableTasks (xs.map (Ready.row e)) = xs.map (Ready.task e) := by
  rw [readableTasks, List.filterMap_map, ← List.filterMap_eq_map]
  refine List.filterMap_congr fun x _ => ?_
  show (x.row e).read.toOption = some (x.task e)
  rw [x.read_row e]
  rfl

theorem issuedFor_task {x : Ready} (h : x.isStorable = true) (e : Int) :
    (x.task e).IssuedFor x := by
  rw [isStorable, Bool.and_eq_true] at h
  obtain ⟨a, ha⟩ := Option.isSome_iff_exists.1 h.1
  obtain ⟨b, hb⟩ := Option.isSome_iff_exists.1 h.2
  refine ⟨rfl, rfl, ?_, ?_, rfl, rfl⟩
  · rw [task, ha, Option.getD_some]
  · rw [task, hb, Option.getD_some]

end Ready

/-! ## What the store holds on an expression -/

/-- The rows of an expression: its tasks in the order of the table, which is the order of their
identifiers, and its own row. -/
structure View where
  tasks : List TaskRow
  expression : Option ExpressionRow
deriving DecidableEq

/-- The rows of an expression, as they stand. -/
def Store.rowsOf (e : Int) (s : Store) : List TaskRow × List ExpressionRow :=
  (s.tasks.filter (·.expressionId == e), s.expressions.filter (·.id == e))

/-- What the store holds on an expression, apart from identifiers and stamps of rows. -/
def Store.view (e : Int) (s : Store) : View :=
  ⟨(s.rowsOf e).1.map TaskRow.bare, (s.rowsOf e).2.head?.map ExpressionRow.bare⟩

theorem Store.view_congr {s s' : Store} {e : Int} (h : s'.rowsOf e = s.rowsOf e) :
    s'.view e = s.view e := by
  rw [view, view, h]

/-- Whether a pass takes an expression up: its row can be read, and it is not finished. -/
def ExpressionRow.isDue (r : ExpressionRow) : Bool :=
  match r.read with
  | .ok x => !x.status.isTerminal
  | .error _ => false

/-- The plan for an expression with the given rows of tasks. -/
def ExpressionRow.plan (r : ExpressionRow) (rows : List TaskRow) : Plan :=
  .ofText (columnText r.source) (readableTasks rows)

theorem ExpressionRow.plan_append {r : ExpressionRow} {rows : List TaskRow}
    {front back : List Ready} (h : (r.plan rows).issued = front ++ back)
    (hfront : ∀ x ∈ front, x.isStorable = true) (e : Int) :
    r.plan (rows ++ front.map (Ready.row e)) = { r.plan rows with issued := back } := by
  rw [plan, readableTasks_append, Ready.readableTasks_row]
  refine Plan.ofText_append h ?_ ?_
  · intro k hk
    obtain ⟨x, hx, rfl⟩ := List.mem_map.1 hk
    exact ⟨x, hx, Ready.issuedFor_task (hfront x hx) e⟩
  · exact fun x hx => ⟨_, List.mem_map_of_mem hx, Ready.issuedFor_task (hfront x hx) e⟩

namespace View

/-- Carries out the plan for an expression.  Tasks are created one after the other; an operand
that is no number would end the pass there. -/
def carryOut (r : ExpressionRow) (v : View) : View :=
  let plan := r.plan v.tasks
  ⟨v.tasks ++ (plan.issued.takeWhile Ready.isStorable).map (Ready.row r.id),
    some (if plan.issued.all Ready.isStorable then
      Store.mark plan.status plan.result plan.steps "" r else r)⟩

/-- What a pass makes of an expression. -/
def advance (v : View) : View :=
  match v.expression with
  | some r => if r.isDue then v.carryOut r else v
  | none => v

/-- What a pass that was cut off has made of an expression: nothing, or tasks for the first
operations of its plan. -/
inductive CutOff (v : View) : View → Prop
  | untouched : CutOff v v
  | created {r : ExpressionRow} {front back : List Ready} :
      v.expression = some r → r.isDue = true → (r.plan v.tasks).issued = front ++ back →
      (∀ x ∈ front, x.isStorable = true) →
      CutOff v ⟨v.tasks ++ front.map (Ready.row r.id), some r⟩

theorem advance_of_due {v : View} {r : ExpressionRow} (h : v.expression = some r)
    (hdue : r.isDue = true) : v.advance = v.carryOut r := by
  rw [advance, h]
  exact if_pos hdue

/-- The next pass goes on where a pass was cut off. -/
theorem CutOff.advance_eq {v v' : View} (h : CutOff v v') : v'.advance = v.advance := by
  cases h with
  | untouched => rfl
  | @created r front back hrow hdue hissued hfront =>
    have hplan := ExpressionRow.plan_append hissued hfront r.id
    have hall : front.all Ready.isStorable = true := List.all_eq_true.2 hfront
    rw [advance_of_due hrow hdue, advance_of_due rfl hdue]
    unfold carryOut
    dsimp only
    rw [hplan, hissued, List.takeWhile_append_of_pos hfront, List.map_append, List.append_assoc,
      List.all_append, hall, Bool.true_and]

theorem advance_of_not_due {v : View} (h : ∀ r, v.expression = some r → r.isDue = false) :
    v.advance = v := by
  rw [advance]
  split
  · rename_i r hrow
    exact if_neg (by rw [h r hrow]; decide)
  · rfl

/-- A plan that was carried out to its end leaves nothing to do. -/
theorem advance_carryOut {v : View} {r : ExpressionRow}
    (hall : (r.plan v.tasks).issued.all Ready.isStorable = true) :
    (v.carryOut r).advance = v.carryOut r := by
  have hstorable : ∀ x ∈ (r.plan v.tasks).issued, x.isStorable = true := List.all_eq_true.1 hall
  have hout : v.carryOut r = ⟨v.tasks ++ (r.plan v.tasks).issued.map (Ready.row r.id),
      some (Store.mark (r.plan v.tasks).status (r.plan v.tasks).result (r.plan v.tasks).steps ""
        r)⟩ := by
    rw [carryOut, if_pos hall, List.takeWhile_eq_self_iff.2 hstorable]
  rw [hout]
  cases hdue : (Store.mark (r.plan v.tasks).status (r.plan v.tasks).result (r.plan v.tasks).steps
      "" r).isDue with
  | false =>
    refine advance_of_not_due fun r' hr' => ?_
    cases hr'
    exact hdue
  | true =>
    -- marking an expression keeps its text, so the plan is the same one without the new tasks
    have hplan := ExpressionRow.plan_append (List.append_nil _).symm hstorable r.id
    have hmarked : ∀ st value lines rows,
        (Store.mark st value lines "" r).plan rows = r.plan rows := fun _ _ _ _ => rfl
    rw [advance_of_due rfl hdue, carryOut, hmarked, hplan, List.takeWhile_nil, List.map_nil,
      List.append_nil, List.all_nil, if_pos rfl]
    simp only [Store.mark]

/-- A second pass finds nothing to do. -/
theorem advance_advance (v : View) : v.advance.advance = v.advance := by
  cases hdue : v.expression.any ExpressionRow.isDue with
  | false =>
    have hidle : v.advance = v := by
      refine advance_of_not_due fun r hrow => ?_
      rwa [hrow] at hdue
    rw [hidle, hidle]
  | true =>
    obtain ⟨r, hrow, hdue⟩ := (Option.any_eq_true _ _).1 hdue
    by_cases hall : (r.plan v.tasks).issued.all Ready.isStorable = true
    · rw [advance_of_due hrow hdue, advance_carryOut hall]
    · -- the pass has stopped at an operand that is no number
      refine CutOff.advance_eq (v := v) ?_
      rw [advance_of_due hrow hdue, carryOut, if_neg hall]
      exact .created hrow hdue (List.takeWhile_append_dropWhile).symm
        fun x hx => List.mem_takeWhile_imp hx

end View

end Piecework
