import Piecework.Proofs.Store.Columns
import Piecework.Proofs.System.Sequence

/-!
# The trace of a finished expression

The steps of an expression are made of the tasks that a pass lists before it adds further
ones.  When the tree comes down to a number there are none to add, and the tasks stay as they
are from then on.  So the steps tell of all of them.

* `Traces` says what lines have to do with the tasks of an expression and with its tree.  It
  follows once every operation has a finished task that is younger than the tasks below it
  (`Tracked.traces`).
* `recorded_step`: a result in a column is what a column keeps of it, so that the result of the
  last task and the result of the expression are one and the same number (`Scheduled.traces`).
* `steps_trace_tasks` puts this together at the end of a run.
-/

namespace Piecework

/-! ## The lines of an expression -/

/-- The line tells of the task, which is finished and has a result. -/
def Task.Told (k : Task) (line : String) : Prop :=
  k.status = .done ∧ ∃ v, k.result = some v ∧
    line = Decimal.text k.operand1 ++ " " ++ k.operator.symbol ++ " " ++
      Decimal.text k.operand2 ++ " = " ++ Decimal.text v

/-- The first task is older, and the second one stands neither at its place nor below it. -/
def Task.Precedes (k k' : Task) : Prop :=
  k.id < k'.id ∧ ∀ p q, k.path = Path.text p → k'.path ≠ Path.text (p ++ q)

/-- The lines are a complete trace of the tree, one for each task, and they end in the
result. -/
structure Traces (t : Tree) (tasks : List Task) (lines : List String) (result : Option Float) :
    Prop where
  /-- There are as many tasks as operations. -/
  length : tasks.length = t.operationCount
  /-- Each task is about an operation of the tree. -/
  sound : ∀ k ∈ tasks, ∃ p l r, k.path = Path.text p ∧ t.at? p = some (.node k.operator l r)
  /-- Each operation of the tree has a task. -/
  complete : ∀ p op l r, t.at? p = some (.node op l r) →
    ∃ k ∈ tasks, k.path = Path.text p ∧ k.operator = op
  /-- Each line tells of one task, in the order of the tasks. -/
  told : List.Forall₂ Task.Told tasks lines
  /-- The tasks are ordered by their identifiers, and operations come after those below them. -/
  ordered : tasks.Pairwise Task.Precedes
  /-- The last task and the last line are those of the root, which has the result. -/
  last : ∃ k v, tasks.getLast? = some k ∧ lines.getLast? = some (k.traceLine v) ∧
    k.path = Path.text [] ∧ k.result = some v ∧ result = some v

theorem trace_nil : trace [] = [] := rfl

theorem trace_append (tasks tasks' : List Task) :
    trace (tasks ++ tasks') = trace tasks ++ trace tasks' := List.filterMap_append

theorem trace_cons {k : Task} {v : Float} (h : k.result = some v) (tasks : List Task) :
    trace (k :: tasks) = k.traceLine v :: trace tasks :=
  List.filterMap_cons_some (by rw [h, Option.map_some])

theorem forall₂_told_trace {tasks : List Task}
    (h : ∀ k ∈ tasks, k.status = .done ∧ ∃ v, k.result = some v) :
    List.Forall₂ Task.Told tasks (trace tasks) := by
  induction tasks with
  | nil => exact .nil
  | cons k tasks ih =>
    obtain ⟨hdone, v, hv⟩ := h k List.mem_cons_self
    rw [trace_cons hv]
    exact .cons ⟨hdone, v, hv, rfl⟩ (ih fun k' hk' => h k' (List.mem_cons_of_mem k hk'))

section Tracked

variable {t : Tree} {tasks : List Task} {v : Float}

/-- When the tree has come down to a number, all of its operations have a finished task. -/
theorem Tracked.exists_task_of_leaf (h : Tracked t tasks) (hleaf : t.refill tasks = .leaf v)
    {p : Path} {op : Operator} {l r : Tree} (hat : t.at? p = some (.node op l r)) :
    ∃ k ∈ tasks, k.path = Path.text p ∧ k.operator = op := by
  obtain ⟨k, hk, hpath, -⟩ := Tree.exists_done_of_refillAt_leaf (p := []) hleaf hat
  rw [List.nil_append] at hpath
  refine ⟨k, hk, hpath, ?_⟩
  obtain ⟨p', l', r', hpath', hat'⟩ := h.place k hk
  cases Path.text_injective (hpath.symm.trans hpath')
  cases hat.symm.trans hat'
  rfl

theorem Tracked.length_of_leaf (h : Tracked t tasks) (hleaf : t.refill tasks = .leaf v) :
    tasks.length = t.operationCount := by
  refine h.length_le.antisymm ?_
  have hsubset : t.places.map Path.text ⊆ tasks.map Task.path := by
    intro path hpath
    obtain ⟨p, hp, rfl⟩ := List.mem_map.1 hpath
    obtain ⟨op, l, r, hat⟩ := Tree.exists_node_of_mem_places hp
    obtain ⟨k, hk, hkpath, -⟩ := h.exists_task_of_leaf hleaf hat
    rw [← hkpath]
    exact List.mem_map_of_mem hk
  have hnodup : (t.places.map Path.text).Nodup := t.nodup_places.map Path.text_injective
  have hle := (List.subperm_of_subset hnodup hsubset).length_le
  rwa [List.length_map, List.length_map, Tree.length_places] at hle

/-- A task is younger than the tasks of the operations below it, so nothing at its place or
below comes after it. -/
theorem Tracked.ordered (h : Tracked t tasks) (hsequenced : Sequenced t tasks)
    (haged : tasks.Pairwise fun k k' => k.id < k'.id) : tasks.Pairwise Task.Precedes := by
  refine haged.imp_of_mem fun {k k'} hk hk' hlt => ⟨hlt, fun p q hpath hpath' => ?_⟩
  have hsame : ∀ k₀ ∈ tasks, k₀.path = k'.path → k₀ = k' :=
    fun k₀ hk₀ => List.inj_on_of_nodup_map h.nodup hk₀ hk'
  by_cases hq : q = []
  · rw [hq, List.append_nil] at hpath'
    have heq := hsame k hk (hpath.trans hpath'.symm)
    rw [heq] at hlt
    exact absurd hlt (Int.lt_irrefl _)
  · obtain ⟨p', l, r, hplace, hat⟩ := h.place k' hk'
    cases Path.text_injective (hpath'.symm.trans hplace)
    obtain ⟨k₀, hk₀, hpath₀, holder, -⟩ := hsequenced k hk p q _ l r hpath hq hat
    rw [hsame k₀ hk₀ (hpath₀.trans hpath'.symm)] at holder
    exact absurd hlt (Int.lt_asymm holder)

/-- The task at the root is the last one, and the number is its result. -/
theorem Tracked.last_of_leaf (h : Tracked t tasks) (hleaf : t.refill tasks = .leaf v)
    (hnode : t.isLeaf = false)
    (hordered : tasks.Pairwise Task.Precedes) :
    ∃ front k, tasks = front ++ [k] ∧ k.path = Path.text [] ∧ k.result = some v := by
  obtain ⟨op, l, r, rfl⟩ := Tree.isLeaf_eq_false_iff.1 hnode
  obtain ⟨a, b, -, -, hv⟩ := Tree.refillAt_eq_leaf.1 hleaf
  obtain ⟨root, hroot, -, hcomputes, hresult⟩ := exists_of_resultOf? hv
  have hpath := Task.path_of_computes hcomputes
  obtain ⟨front, last, rfl⟩ :=
    (List.eq_nil_or_concat' tasks).resolve_left (List.ne_nil_of_mem hroot)
  refine ⟨front, root, ?_, hpath, hresult⟩
  rcases List.mem_append.1 hroot with hfront | hlast
  · -- everything stands below the root
    obtain ⟨p, -, -, hplace, -⟩ := h.place last (by simp)
    have hbefore := (List.pairwise_append.1 hordered).2.2 root hfront last (by simp)
    exact absurd hplace (hbefore.2 [] p hpath)
  · rw [List.mem_singleton.1 hlast]

/-- The trace of a tree that has come down to a number. -/
theorem Tracked.traces (h : Tracked t tasks) (hsequenced : Sequenced t tasks)
    (haged : tasks.Pairwise fun k k' => k.id < k'.id) (hleaf : t.refill tasks = .leaf v)
    (hnode : t.isLeaf = false) : Traces t tasks (report t tasks v) (some v) := by
  have hdone : ∀ k ∈ tasks, k.status = .done ∧ ∃ w, k.result = some w :=
    fun k hk => ⟨h.done_of_leaf hleaf hk, h.result_of_leaf hleaf hk⟩
  have hall : Schedule.doneTasks tasks = tasks :=
    List.filter_eq_self.2 fun k hk => by rw [(hdone k hk).1]; rfl
  have hreport : report t tasks v = trace tasks := by
    rw [report, if_neg (by simp [hnode]), hall]
  have hordered := h.ordered hsequenced haged
  obtain ⟨front, k, heq, hpath, hresult⟩ := h.last_of_leaf hleaf hnode hordered
  have htasks : tasks.getLast? = some k := by rw [heq, List.getLast?_concat]
  have hlines : (report t tasks v).getLast? = some (k.traceLine v) := by
    rw [hreport, heq, trace_append, trace_cons hresult, trace_nil, List.getLast?_concat]
  exact {
    length := h.length_of_leaf hleaf
    sound := h.place
    complete := fun p op l r hat => h.exists_task_of_leaf hleaf hat
    told := hreport ▸ forall₂_told_trace hdone
    ordered := hordered
    last := ⟨k, v, htasks, hlines, hpath, hresult, rfl⟩ }

end Tracked

/-! ## Results -/

/-- A result in a column is what a column keeps of it. -/
def Task.Recorded (k : Task) : Prop :=
  k.status = .done → ∀ v, k.result = some v → columnFloat v = some v

/-- Whatever becomes of a task, its result is recorded. -/
theorem Store.Moves.recorded_result {c : Call} {k k' : Task} (h : Store.Moves c k k') :
    k'.Recorded := by
  cases h with
  | leased | failed => exact fun hdone => by cases hdone
  | completed => exact fun _ v hv => Number.columnFloat_of_columnFloat hv

/-- The steps of an expression that is done are the trace of its tasks. -/
theorem Scheduled.traces {faults : Prop} {tasks : List Task} {r : ExpressionRow} {t : Tree}
    (h : Scheduled faults tasks r) (hsequenced : Sequenced t tasks)
    (haged : tasks.Pairwise fun k k' => k.id < k'.id) (hrecorded : ∀ k ∈ tasks, k.Recorded)
    (hdone : r.status = ExpressionStatus.done.name) (ht : r.Parses t) (hnode : t.isLeaf = false) :
    ∃ lines, r.steps = some (stepsFormat.encode lines) ∧ Traces t tasks lines r.result := by
  obtain ⟨t', v, ht', hleaf, hresult, hsteps⟩ := h.of_done hdone
  cases ht'.unique ht
  have htracked := h.tracked t ht
  have htraces := htracked.traces hsequenced haged hleaf hnode
  refine ⟨_, hsteps, ?_⟩
  -- the number was in a column before, as the result of the last task
  obtain ⟨root, w, hlast, -, -, hroot, heq⟩ := htraces.last
  cases heq
  have hmem := List.mem_of_getLast? hlast
  have hkept := hrecorded root hmem (htracked.done_of_leaf hleaf hmem) v hroot
  rw [hresult, hkept]
  exact htraces

namespace System

variable {faults : Prop} {y y' : System}

theorem recorded_step {event : Event} (h : Store.AllTasks Task.Recorded y.store)
    (hsound : y.Sound faults) (hstep : Step faults y event y') :
    Store.AllTasks Task.Recorded y'.store :=
  allTasks_step h hsound hstep (fun _ hunfinished hdone => absurd hdone hunfinished)
    fun _ _ _ _ _ hmoves => hmoves.recorded_result

theorem recorded_run {admits : System → Event → Prop} (h : Run faults admits start y) :
    y.Sound faults ∧ Store.AllTasks Task.Recorded y.store :=
  (sound_start faults).closed (P := fun y => Store.AllTasks Task.Recorded y.store)
    Store.allTasks_empty h fun hsound hrecorded _ hstep => recorded_step hrecorded hsound hstep

/-- In every run, whatever is submitted as a result, whatever fails and whatever is cut off: an
expression that is done and has an operation is read with its steps, which are a complete trace
of it.  There is one task for each operation, none of their rows is left out, each line tells
of one task in the order of their identifiers, what stands below an operation comes before it,
and the last line is that of the root, whose result is the result of the expression. -/
theorem steps_trace_tasks (h : Run True (fun _ _ => True) start y) {r : ExpressionRow}
    (hr : r ∈ y.store.expressions) (hdone : r.status = ExpressionStatus.done.name) {t : Tree}
    (ht : Expr.parse (columnText r.source) = .ok t) (hcount : 1 ≤ t.operationCount) :
    ∃ e lines, r.read = .ok e ∧ e.steps = some lines ∧ lines.length = t.operationCount ∧
      (y.store.tasks.filter (·.expressionId == r.id)).length = (y.store.tasksOf r.id).length ∧
      Traces t (y.store.tasksOf r.id) lines e.result := by
  obtain ⟨hsound, hsequenced⟩ := inOrder_run h
  obtain ⟨-, hrecorded⟩ := recorded_run h
  have hwell := hsound.store.wellFormed
  have hsched := hsound.store.scheduled r hr trivial
  have hnode : t.isLeaf = false := by
    cases t with
    | leaf v => exact absurd hcount (Nat.not_succ_le_zero 0)
    | node op l r => rfl
  obtain ⟨lines, hsteps, htraces⟩ := hsched.traces (hsequenced r hr t ht)
    (hwell.tasksOf_ordered r.id) (hrecorded r.id) hdone ht hnode
  have hlines := readSteps_encode lines
  rw [← hsteps] at hlines
  have hlength : lines.length = t.operationCount := by
    rw [← htraces.told.length_eq, htraces.length]
  exact ⟨_, lines, by rw [ExpressionRow.read, hlines], rfl, hlength,
    (hwell.length_tasksOf r.id).symm, htraces⟩

/-- The steps of the product.  They are in the order of the tasks, although the second task was
finished first. -/
theorem product_steps_trace_tasks :
    Run True (fun _ _ => True) start ⟨productDone, [], none⟩ ∧
      ∃ r ∈ productDone.expressions, r.status = ExpressionStatus.done.name ∧
        Expr.parse (columnText r.source) = .ok product ∧ 1 ≤ product.operationCount ∧
        ∃ e, r.read = .ok e ∧
          e.steps = some ["1 + 2 = 3", "3 - 4 = -1", "3 * -1 = -3"] ∧
          Traces product (productDone.tasksOf r.id) ["1 + 2 = 3", "3 - 4 = -1", "3 * -1 = -3"]
            e.result := by
  have hrow : ∃ r ∈ productDone.expressions, r.status = ExpressionStatus.done.name ∧
      Expr.parse (columnText r.source) = .ok product ∧
      ∃ e ∈ r.read.toOption, e.steps = some ["1 + 2 = 3", "3 - 4 = -1", "3 * -1 = -3"] := by
    decide +kernel
  obtain ⟨r, hr, hdone, hparse, e, he, hsteps⟩ := hrow
  have hcount : 1 ≤ product.operationCount := by decide
  obtain ⟨e', lines, hread, hlines, -, -, htraces⟩ :=
    steps_trace_tasks productDone_run hr hdone hparse hcount
  rw [hread] at he
  cases he
  cases hsteps.symm.trans hlines
  exact ⟨productDone_run, r, hr, hdone, hparse, hcount, e, hread, hsteps, htraces⟩

end System

end Piecework
