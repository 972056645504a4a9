import Piecework.Proofs.Store.Rows
import Piecework.Store.Call

/-!
# What a call does to the store

Identifiers are unique and grow, every task has an expression, and every row of a task
is valid: `WellFormed` holds of an empty store and every call keeps it.

There are four effects, and each call that is answered has at most one of them.

* `Moved`: one task is leased, failed or completed.
* `Issued`: a pending task is added.
* `Submitted`: a pending expression is added.
* `Marked`: the state, the result and the steps of one expression are overwritten.

The lemmas below each effect say what it means for the tasks of one expression as they
are listed.  `answer_elsewhere` is the case analysis over the calls that neither add a
task nor overwrite an expression, and `lease_cases`, `complete_cases` and `fail_cases` say
which answer is given when.
-/

namespace Piecework

open Time (Instant)

namespace Store

/-- What holds of the rows of every store. -/
structure WellFormed (s : Store) : Prop where
  tasks : ∀ r ∈ s.tasks, r.Valid
  taskIds : (s.tasks.map TaskRow.id).Pairwise (· < ·)
  lastTask : ∀ r ∈ s.tasks, r.id ≤ s.lastTask
  expressionIds : (s.expressions.map ExpressionRow.id).Pairwise (· < ·)
  lastExpression : ∀ r ∈ s.expressions, r.id ≤ s.lastExpression
  parents : ∀ r ∈ s.tasks, ∃ e ∈ s.expressions, e.id = r.expressionId

theorem wellFormed_empty : empty.WellFormed := by
  constructor <;> simp [empty]

/-! ## Listing the tasks of an expression -/

theorem toOption_eq_some {ε α : Type} {x : Except ε α} {a : α} :
    x.toOption = some a ↔ x = .ok a := by
  cases x <;> simp [Except.toOption]

/-- The task in a row of an expression. -/
def readOf (e : Int) (r : TaskRow) : Option Task :=
  if r.expressionId = e then r.read.toOption else none

theorem tasksOf_eq (s : Store) (e : Int) : s.tasksOf e = s.tasks.filterMap (readOf e) := by
  rw [tasksOf, readableTasks, List.filterMap_filter]
  congr 1
  funext r
  simp [readOf]

theorem readOf_eq_some {e : Int} {r : TaskRow} {k : Task} :
    readOf e r = some k ↔ r.expressionId = e ∧ r.read = .ok k := by
  unfold readOf
  split_ifs with he
  · simp [he, toOption_eq_some]
  · simp [he]

theorem mem_tasksOf {s : Store} {e : Int} {k : Task} :
    k ∈ s.tasksOf e ↔ ∃ r ∈ s.tasks, r.expressionId = e ∧ r.read = .ok k := by
  simp only [tasksOf_eq, List.mem_filterMap, readOf_eq_some]

theorem expressionId_of_mem {s : Store} {e : Int} {k : Task} (h : k ∈ s.tasksOf e) :
    k.expressionId = e := by
  obtain ⟨r, -, rfl, hk⟩ := mem_tasksOf.1 h
  exact TaskRow.expressionId_of_read hk

/-- Every row of an expression is listed. -/
theorem WellFormed.length_tasksOf {s : Store} (h : s.WellFormed) (e : Int) :
    (s.tasksOf e).length = (s.tasks.filter (·.expressionId == e)).length := by
  have hread : ∀ r ∈ s.tasks.filter (·.expressionId == e), r.read.toOption.isSome := by
    intro r hr
    obtain ⟨k, hk⟩ := (h.tasks r (List.mem_of_mem_filter hr)).exists_read
    rw [toOption_eq_some.2 hk]
    rfl
  rw [tasksOf, readableTasks, List.length_filterMap_eq_countP, List.countP_eq_length.2 hread]

/-- Tasks are listed in the order of their identifiers. -/
theorem WellFormed.tasksOf_ordered {s : Store} (h : s.WellFormed) (e : Int) :
    (s.tasksOf e).Pairwise fun k k' => k.id < k'.id := by
  rw [tasksOf_eq]
  refine (List.pairwise_map.1 h.taskIds).filterMap _ fun r r' hlt k hk k' hk' => ?_
  rw [TaskRow.id_of_read (readOf_eq_some.1 hk).2, TaskRow.id_of_read (readOf_eq_some.1 hk').2]
  exact hlt

theorem WellFormed.valid_of_mem {s : Store} (h : s.WellFormed) {e : Int} {k : Task}
    (hk : k ∈ s.tasksOf e) : k.Valid := by
  obtain ⟨r, hr, -, hread⟩ := mem_tasksOf.1 hk
  exact (h.tasks r hr).task hread

/-- The rows are told apart by their identifiers. -/
theorem eq_of_pairwise {α : Type} {key : α → Int} {l : List α} (h : (l.map key).Pairwise (· < ·))
    {x y : α} (hx : x ∈ l) (hy : y ∈ l) (heq : key x = key y) : x = y := by
  have hnodup : (l.map key).Nodup := h.imp fun hlt => Int.ne_of_lt hlt
  exact List.inj_on_of_nodup_map hnodup hx hy heq

theorem WellFormed.eq_of_id {s : Store} (h : s.WellFormed) {r r' : ExpressionRow}
    (hr : r ∈ s.expressions) (hr' : r' ∈ s.expressions) (hid : r.id = r'.id) : r = r' :=
  eq_of_pairwise h.expressionIds hr hr' hid

theorem WellFormed.exists_parent {s : Store} (h : s.WellFormed) {e : Int} {k : Task}
    (hk : k ∈ s.tasksOf e) : ∃ r ∈ s.expressions, r.id = e := by
  obtain ⟨r, hr, rfl, -⟩ := mem_tasksOf.1 hk
  exact h.parents r hr

/-! ## A task changes hands -/

/-- What an answered call makes of a task. -/
inductive Moves : Call → Task → Task → Prop
  | leased {k : Task} (now : Instant) : k.status = .pending →
      Moves .lease k { k with status := .inProgress, updatedAt := now }
  | completed {k : Task} (value : Float) (now : Instant) : k.status = .inProgress →
      Moves (.completeTask k.id value) k
        { k with status := .done, result := columnFloat value, updatedAt := now }
  | failed {k : Task} (retries : Nat) (now : Instant) : k.status = .inProgress →
      Moves (.failTask k.id) k { k with status := .pending, retries, updatedAt := now }

/-- One task is another one now. -/
structure Moved (k k' : Task) (s s' : Store) : Prop where
  rows : ∃ r r', Replaces r r' s.tasks s'.tasks ∧ r.read = .ok k ∧ r'.read = .ok k' ∧
    (r.Valid → r'.Valid) ∧ r'.id = r.id ∧ r'.expressionId = r.expressionId
  expressions : s'.expressions = s.expressions
  lastTask : s'.lastTask = s.lastTask
  lastExpression : s'.lastExpression = s.lastExpression

section Moved

variable {s s' : Store} {k k' : Task}

theorem Moved.tasksOf (h : Moved k k' s s') :
    Replaces k k' (s.tasksOf k.expressionId) (s'.tasksOf k.expressionId) := by
  obtain ⟨r, r', hrows, hr, hr', -, -, hparent⟩ := h.rows
  have he := (TaskRow.expressionId_of_read hr).symm
  rw [tasksOf_eq, tasksOf_eq]
  exact hrows.filterMap (readOf_eq_some.2 ⟨he, hr⟩) (readOf_eq_some.2 ⟨hparent.trans he, hr'⟩)

theorem Moved.tasksOf_of_ne (h : Moved k k' s s') {e : Int} (he : e ≠ k.expressionId) :
    s'.tasksOf e = s.tasksOf e := by
  obtain ⟨r, r', hrows, hr, hr', -, -, hparent⟩ := h.rows
  have hne : r.expressionId ≠ e := by
    rw [← TaskRow.expressionId_of_read hr]
    exact he.symm
  rw [tasksOf_eq, tasksOf_eq]
  exact (hrows.filterMap_eq (if_neg hne) (if_neg (hparent ▸ hne))).symm

theorem Moved.mem (h : Moved k k' s s') : k ∈ s.tasksOf k.expressionId := h.tasksOf.mem

theorem Moved.mem_new (h : Moved k k' s s') : k' ∈ s'.tasksOf k.expressionId := h.tasksOf.mem_new

/-- The other tasks stay. -/
theorem Moved.mem_of_ne (h : Moved k k' s s') {e : Int} {k0 : Task} (hk0 : k0 ∈ s.tasksOf e)
    (hne : k0 ≠ k) : k0 ∈ s'.tasksOf e := by
  by_cases he : e = k.expressionId
  · subst he
    exact h.tasksOf.mem_of_ne hk0 hne
  · rw [h.tasksOf_of_ne he]
    exact hk0

theorem Moved.mem_old (h : Moved k k' s s') {e : Int} {k0 : Task} (hk0 : k0 ∈ s'.tasksOf e) :
    k0 ∈ s.tasksOf e ∨ k0 = k' := by
  by_cases he : e = k.expressionId
  · subst he
    exact h.tasksOf.mem_old hk0
  · rw [h.tasksOf_of_ne he] at hk0
    exact .inl hk0

theorem Moved.wellFormed (h : Moved k k' s s') (hs : s.WellFormed) : s'.WellFormed := by
  obtain ⟨r, r', hrows, -, -, hvalid, hid, hparent⟩ := h.rows
  have hr := hrows.mem
  refine ⟨?_, ?_, ?_, ?_, ?_, ?_⟩
  · exact hrows.forall_mem hs.tasks (hvalid (hs.tasks r hr))
  · rw [← hrows.map_eq hid.symm]
    exact hs.taskIds
  · rw [h.lastTask]
    exact hrows.forall_mem hs.lastTask (hid ▸ hs.lastTask r hr)
  · rw [h.expressions]
    exact hs.expressionIds
  · rw [h.expressions, h.lastExpression]
    exact hs.lastExpression
  · rw [h.expressions]
    exact hrows.forall_mem hs.parents (hparent ▸ hs.parents r hr)

end Moved

/-- Changing the task of an identifier and a state changes one task at most. -/
theorem updateTask_cases {s : Store} (hs : s.WellFormed) (id : Int) (st st' : TaskStatus)
    (result : TaskRow → Option Float) (retries : TaskRow → Int) (stamp : String)
    (hnumber : ∀ r ∈ s.tasks, ∀ v, result r = some v → v.isNaN = false)
    (hfinished : ∀ r ∈ s.tasks, r.isIn st = true → ∀ v, result r = some v → st' = .done) :
    (s.updateTask id st (fun r => r.move st' (result r) (retries r) stamp) = (false, s) ∧
        ∀ e, ∀ k ∈ s.tasksOf e, k.id = id → k.status ≠ st) ∨
      ∃ r k s', r ∈ s.tasks ∧ r.read = .ok k ∧ k.id = id ∧ k.status = st ∧
        s.updateTask id st (fun r => r.move st' (result r) (retries r) stamp) = (true, s') ∧
        Moved k { k with
          status := st'
          result := result r
          retries := retriesOf (retries r)
          updatedAt := Time.ofStamp (columnText stamp) } s s' := by
  have hselected : ∀ r : TaskRow, (r.id == id && r.isIn st) = true → r.id = id := by
    intro r hr
    rw [Bool.and_eq_true, beq_iff_eq] at hr
    exact hr.1
  rcases map_eq_of_unique (fun r => r.id == id && r.isIn st)
      (fun r => r.move st' (result r) (retries r) stamp) hselected hs.taskIds with
    ⟨hnone, hsame⟩ | ⟨r, hsel, hany, hrows⟩
  · refine .inl ⟨?_, ?_⟩
    · unfold updateTask
      dsimp only
      rw [hnone, hsame]
    · intro e k hk hid hst
      obtain ⟨r, hr, -, hread⟩ := mem_tasksOf.1 hk
      rw [List.any_eq_false] at hnone
      refine hnone r hr ?_
      rw [Bool.and_eq_true, beq_iff_eq, (hs.tasks r hr).isIn_iff hread]
      exact ⟨(TaskRow.id_of_read hread).symm.trans hid, hst⟩
  · have hr := hrows.mem
    have hvalid := hs.tasks r hr
    obtain ⟨k, hread⟩ := hvalid.exists_read
    rw [Bool.and_eq_true, beq_iff_eq] at hsel
    refine .inr ⟨r, k, (s.updateTask id st fun r => r.move st' (result r) (retries r) stamp).2, hr,
      hread, (TaskRow.id_of_read hread).trans hsel.1, (hvalid.isIn_iff hread st).1 hsel.2, ?_, ?_,
      rfl, rfl, rfl⟩
    · exact Prod.ext hany rfl
    · exact ⟨r, _, hrows, hread, TaskRow.read_move hread _ _ _ _,
        fun _ => hvalid.move (hnumber r hr) (hfinished r hr hsel.2) _ _, rfl, rfl⟩

theorem mem_of_oldest? {rows : List TaskRow} {r : TaskRow} (h : oldest? rows = some r) :
    r ∈ rows := by
  cases rows with
  | nil => cases h
  | cons x rest =>
    have hfold : ∀ (rest : List TaskRow) (x : TaskRow), rest.foldl older x ∈ x :: rest := by
      intro rest
      induction rest with
      | nil => simp
      | cons y rest ih =>
        intro x
        rw [List.foldl_cons]
        have holder : older x y = x ∨ older x y = y := by
          unfold older
          split_ifs
          · exact .inr rfl
          · exact .inl rfl
        rcases List.mem_cons.1 (ih (older x y)) with h | h
        · rw [h]
          rcases holder with ho | ho <;> rw [ho] <;> simp
        · exact List.mem_cons_of_mem _ (List.mem_cons_of_mem _ h)
    rw [← Option.some.inj h]
    exact hfold rest x

theorem eq_nil_of_oldest? {rows : List TaskRow} (h : oldest? rows = none) : rows = [] := by
  cases rows with
  | nil => rfl
  | cons x rest => cases h

/-- A row in another state than the final one has no result. -/
theorem WellFormed.done_of_result {s : Store} (hs : s.WellFormed) {st : TaskStatus} {r : TaskRow}
    (hr : r ∈ s.tasks) (hin : r.isIn st = true) {v : Float} (hv : r.result = some v) :
    st = .done := by
  have hdone := (hs.tasks r hr).finished v hv
  rw [TaskRow.isIn, beq_iff_eq, hdone] at hin
  exact (TaskStatus.name_injective hin).symm

theorem lease_eq {s : Store} {now : Instant} {r : TaskRow} {k : Task}
    (hold : oldest? (s.tasks.filter (·.isIn .pending)) = some r) (hread : r.read = .ok k) :
    s.lease now = .ok (some { k with status := .inProgress, updatedAt := Time.ofStamp now.stamp },
      (s.updateTask r.id .pending fun r =>
        r.move .inProgress r.result r.retries now.stamp).2) := by
  unfold lease
  rw [hold]
  dsimp only
  rw [hread]
  rfl

/-- A worker is given a pending task, unless there is none. -/
theorem lease_cases {s : Store} (hs : s.WellFormed) (now : Instant) :
    (s.lease now = .ok (none, s) ∧ ∀ e, ∀ k ∈ s.tasksOf e, k.status ≠ .pending) ∨
      ∃ k shown kept s',
        s.lease now = .ok (some { k with status := .inProgress, updatedAt := shown }, s') ∧
        k.status = .pending ∧ Moved k { k with status := .inProgress, updatedAt := kept } s s' := by
  cases hold : oldest? (s.tasks.filter (·.isIn .pending)) with
  | none =>
    refine .inl ⟨by rw [lease, hold], fun e k hk hst => ?_⟩
    obtain ⟨r, hr, -, hread⟩ := mem_tasksOf.1 hk
    have hpending : r ∈ s.tasks.filter (·.isIn .pending) :=
      List.mem_filter.2 ⟨hr, ((hs.tasks r hr).isIn_iff hread .pending).2 hst⟩
    rw [eq_nil_of_oldest? hold] at hpending
    cases hpending
  | some row =>
    have hmem := mem_of_oldest? hold
    rw [List.mem_filter] at hmem
    obtain ⟨k, hread⟩ := (hs.tasks row hmem.1).exists_read
    have hst := ((hs.tasks row hmem.1).isIn_iff hread .pending).1 hmem.2
    have hunfinished : ∀ r ∈ s.tasks, r.isIn .pending = true → ∀ v, r.result = some v →
        TaskStatus.inProgress = .done := fun r hr hin v hv =>
      absurd (hs.done_of_result hr hin hv) (by decide)
    rcases updateTask_cases hs row.id .pending .inProgress TaskRow.result TaskRow.retries now.stamp
        (fun r hr => (hs.tasks r hr).number) hunfinished with
      ⟨-, hnone⟩ | ⟨r, k', s', hr, hread', hid, -, hupdate, hmoved⟩
    · have hk : k ∈ s.tasksOf row.expressionId := mem_tasksOf.2 ⟨row, hmem.1, rfl, hread⟩
      exact absurd hst (hnone _ k hk (TaskRow.id_of_read hread))
    · have hsame : r = row := by
        refine eq_of_pairwise hs.taskIds hr hmem.1 ?_
        rw [← hid, TaskRow.id_of_read hread']
      subst hsame
      cases hread.symm.trans hread'
      obtain ⟨op, -, hk⟩ := TaskRow.read_eq_ok hread
      refine .inr ⟨k, Time.ofStamp now.stamp, Time.ofStamp (columnText now.stamp), s', ?_, hst, ?_⟩
      · rw [lease_eq hold hread, hupdate]
      · subst hk
        exact hmoved

/-- A result is recorded if its task is in progress. -/
theorem complete_cases {s : Store} (hs : s.WellFormed) (now : Instant) (id : Int) (value : Float) :
    (s.complete now id value = (false, s) ∧
        ∀ e, ∀ k ∈ s.tasksOf e, k.id = id → k.status ≠ .inProgress) ∨
      ∃ k kept s', s.complete now id value = (true, s') ∧ k.id = id ∧ k.status = .inProgress ∧
        Moved k { k with status := .done, result := columnFloat value, updatedAt := kept }
          s s' := by
  rcases updateTask_cases hs id .inProgress .done (fun _ => columnFloat value) TaskRow.retries
      now.stamp (fun _ _ _ => Number.isNaN_of_columnFloat) (fun _ _ _ _ _ => rfl) with
    hnone | ⟨r, k, s', hr, hread, hid, hst, hupdate, hmoved⟩
  · exact .inl hnone
  · obtain ⟨op, -, hk⟩ := TaskRow.read_eq_ok hread
    refine .inr ⟨k, Time.ofStamp (columnText now.stamp), s', hupdate, hid, hst, ?_⟩
    subst hk
    exact hmoved

/-- A task is put back if it is in progress. -/
theorem fail_cases {s : Store} (hs : s.WellFormed) (now : Instant) (id : Int) :
    (s.fail now id = (false, s) ∧
        ∀ e, ∀ k ∈ s.tasksOf e, k.id = id → k.status ≠ .inProgress) ∨
      ∃ k retries kept s', s.fail now id = (true, s') ∧ k.id = id ∧ k.status = .inProgress ∧
        Moved k { k with status := .pending, retries, updatedAt := kept } s s' := by
  have hunfinished : ∀ r ∈ s.tasks, r.isIn .inProgress = true → ∀ v, r.result = some v →
      TaskStatus.pending = .done := fun r hr hin v hv =>
    absurd (hs.done_of_result hr hin hv) (by decide)
  rcases updateTask_cases hs id .inProgress .pending TaskRow.result (fun r => r.retries + 1)
      now.stamp (fun r hr => (hs.tasks r hr).number) hunfinished with
    hnone | ⟨r, k, s', hr, hread, hid, hst, hupdate, hmoved⟩
  · exact .inl hnone
  · obtain ⟨op, -, hk⟩ := TaskRow.read_eq_ok hread
    refine .inr ⟨k, retriesOf (r.retries + 1), Time.ofStamp (columnText now.stamp), s', hupdate,
      hid, hst, ?_⟩
    subst hk
    exact hmoved

/-! ## A task is added -/

/-- The task is new and waits for a worker. -/
structure Issued (k : Task) (s s' : Store) : Prop where
  rows : ∃ r, s'.tasks = s.tasks ++ [r] ∧ r.Valid ∧ r.read = .ok k ∧ r.id = s.lastTask + 1
  parent : ∃ r ∈ s.expressions, r.id = k.expressionId
  status : k.status = .pending
  result : k.result = none
  expressions : s'.expressions = s.expressions
  lastTask : s'.lastTask = s.lastTask + 1
  lastExpression : s'.lastExpression = s.lastExpression

section Issued

variable {s s' : Store} {k : Task}

theorem Issued.tasksOf (h : Issued k s s') :
    s'.tasksOf k.expressionId = s.tasksOf k.expressionId ++ [k] := by
  obtain ⟨r, hrows, -, hread, -⟩ := h.rows
  have he := (TaskRow.expressionId_of_read hread).symm
  rw [tasksOf_eq, tasksOf_eq, hrows, List.filterMap_append,
    List.filterMap_cons_some (readOf_eq_some.2 ⟨he, hread⟩), List.filterMap_nil]

theorem Issued.tasksOf_of_ne (h : Issued k s s') {e : Int} (he : e ≠ k.expressionId) :
    s'.tasksOf e = s.tasksOf e := by
  obtain ⟨r, hrows, -, hread, -⟩ := h.rows
  have hne : r.expressionId ≠ e := by
    rw [← TaskRow.expressionId_of_read hread]
    exact he.symm
  have hnone : readOf e r = none := if_neg hne
  rw [tasksOf_eq, tasksOf_eq, hrows, List.filterMap_append, List.filterMap_cons_none hnone,
    List.filterMap_nil, List.append_nil]

/-- Every other task is older. -/
theorem Issued.id_lt (h : Issued k s s') (hs : s.WellFormed) {e : Int} {k' : Task}
    (hk' : k' ∈ s.tasksOf e) : k'.id < k.id := by
  obtain ⟨r, -, -, hread, hid⟩ := h.rows
  obtain ⟨r', hr', -, hread'⟩ := mem_tasksOf.1 hk'
  have hle := hs.lastTask r' hr'
  rw [TaskRow.id_of_read hread, TaskRow.id_of_read hread']
  omega

theorem Issued.mem (h : Issued k s s') {e : Int} {k0 : Task} (hk0 : k0 ∈ s.tasksOf e) :
    k0 ∈ s'.tasksOf e := by
  by_cases he : e = k.expressionId
  · subst he
    rw [h.tasksOf]
    exact List.mem_append_left _ hk0
  · rw [h.tasksOf_of_ne he]
    exact hk0

theorem Issued.mem_old (h : Issued k s s') {e : Int} {k0 : Task} (hk0 : k0 ∈ s'.tasksOf e) :
    k0 ∈ s.tasksOf e ∨ k0 = k := by
  by_cases he : e = k.expressionId
  · subst he
    rw [h.tasksOf, List.mem_append, List.mem_singleton] at hk0
    exact hk0
  · rw [h.tasksOf_of_ne he] at hk0
    exact .inl hk0

theorem Issued.wellFormed (h : Issued k s s') (hs : s.WellFormed) : s'.WellFormed := by
  obtain ⟨r, hrows, hvalid, hread, hid⟩ := h.rows
  have hall : ∀ {P : TaskRow → Prop}, (∀ x ∈ s.tasks, P x) → P r → ∀ x ∈ s'.tasks, P x := by
    intro P hold hnew x hx
    rw [hrows, List.mem_append, List.mem_singleton] at hx
    rcases hx with hx | rfl
    · exact hold x hx
    · exact hnew
  refine ⟨hall hs.tasks hvalid, ?_, ?_, ?_, ?_, ?_⟩
  · rw [hrows, List.map_append, List.map_singleton, List.pairwise_append]
    refine ⟨hs.taskIds, List.pairwise_singleton _ _, fun i hi j hj => ?_⟩
    obtain ⟨x, hx, rfl⟩ := List.mem_map.1 hi
    rw [List.mem_singleton] at hj
    have := hs.lastTask x hx
    omega
  · rw [h.lastTask]
    refine hall (fun x hx => ?_) (Int.le_of_eq hid)
    have := hs.lastTask x hx
    omega
  · rw [h.expressions]
    exact hs.expressionIds
  · rw [h.expressions, h.lastExpression]
    exact hs.lastExpression
  · rw [h.expressions]
    refine hall hs.parents ?_
    rw [← TaskRow.expressionId_of_read hread]
    exact h.parent

end Issued

/-- A task is added for an expression that exists, with numbers as its operands. -/
theorem createTask_ok {s s' : Store} {now : Instant} {e id : Int} {op : Operator} {lhs rhs : Float}
    {path : String} (h : s.createTask now e op lhs rhs path = .ok (id, s')) :
    ∃ k, Issued k s s' ∧ k.expressionId = e ∧ k.operator = op ∧ k.path = columnText path ∧
      columnFloat lhs = some k.operand1 ∧ columnFloat rhs = some k.operand2 := by
  unfold createTask at h
  split at h
  · cases h
  · cases h
  · rename_i a b ha hb
    split_ifs at h with hparent
    cases h
    rw [List.any_eq_true] at hparent
    obtain ⟨r, hr, hid⟩ := hparent
    rw [beq_iff_eq] at hid
    refine ⟨⟨s.lastTask + 1, e, op, a, b, columnText path, none, .pending, retriesOf 0,
      Time.ofStamp (columnText now.stamp), Time.ofStamp (columnText now.stamp)⟩,
      ⟨⟨_, rfl, ?_, ?_, rfl⟩, ⟨r, hr, hid⟩, rfl, rfl, rfl, rfl, rfl⟩, rfl, rfl, rfl, ha, hb⟩
    · exact ⟨⟨op, rfl⟩, ⟨.pending, rfl⟩,
        ⟨Number.isNaN_of_columnFloat ha, Number.isNaN_of_columnFloat hb⟩,
        (fun v hv => nomatch hv), (fun v hv => nomatch hv)⟩
    · simp only [TaskRow.read, columnText_symbol, Operator.ofSymbol_symbol, columnText_taskStatus,
        TaskStatus.ofStored_name]

theorem exists_createTask {s : Store} {r : ExpressionRow} (hr : r ∈ s.expressions) (now : Instant)
    (op : Operator) {lhs rhs : Float} (hlhs : lhs.isNaN = false) (hrhs : rhs.isNaN = false)
    (path : String) : ∃ id s', s.createTask now r.id op lhs rhs path = .ok (id, s') := by
  obtain ⟨a, ha⟩ := Number.exists_columnFloat hlhs
  obtain ⟨b, hb⟩ := Number.exists_columnFloat hrhs
  have hparent : (s.expressions.any fun x => x.id == r.id) = true :=
    List.any_eq_true.2 ⟨r, hr, by simp⟩
  unfold createTask
  rw [ha, hb]
  dsimp only
  rw [if_pos hparent]
  exact ⟨_, _, rfl⟩

/-! ## An expression is added -/

/-- The expression is new and nobody has looked at it. -/
structure Submitted (source : String) (s s' : Store) : Prop where
  rows : ∃ r, s'.expressions = s.expressions ++ [r] ∧ r.id = s.lastExpression + 1 ∧
    r.source = source ∧ r.status = ExpressionStatus.pending.name ∧ r.result = none ∧ r.steps = none
  tasks : s'.tasks = s.tasks
  lastTask : s'.lastTask = s.lastTask
  lastExpression : s'.lastExpression = s.lastExpression + 1

theorem createExpression_submitted (s : Store) (now : Instant) (owner source : String) :
    Submitted source s (s.createExpression now owner source).2 :=
  ⟨⟨_, rfl, rfl, rfl, rfl, rfl, rfl⟩, rfl, rfl, rfl⟩

section Submitted

variable {s s' : Store} {source : String}

theorem tasksOf_congr (h : s'.tasks = s.tasks) (e : Int) : s'.tasksOf e = s.tasksOf e := by
  rw [tasksOf, tasksOf, h]

theorem Submitted.wellFormed (h : Submitted source s s') (hs : s.WellFormed) : s'.WellFormed := by
  obtain ⟨r, hrows, hid, -⟩ := h.rows
  refine ⟨?_, ?_, ?_, ?_, ?_, ?_⟩
  · rw [h.tasks]
    exact hs.tasks
  · rw [h.tasks]
    exact hs.taskIds
  · rw [h.tasks, h.lastTask]
    exact hs.lastTask
  · rw [hrows, List.map_append, List.map_singleton, List.pairwise_append]
    refine ⟨hs.expressionIds, List.pairwise_singleton _ _, fun i hi j hj => ?_⟩
    obtain ⟨x, hx, rfl⟩ := List.mem_map.1 hi
    rw [List.mem_singleton] at hj
    have := hs.lastExpression x hx
    omega
  · rw [hrows, h.lastExpression]
    intro x hx
    rw [List.mem_append, List.mem_singleton] at hx
    rcases hx with hx | rfl
    · have := hs.lastExpression x hx
      omega
    · exact Int.le_of_eq hid
  · rw [h.tasks, hrows]
    intro x hx
    obtain ⟨parent, hparent, hp⟩ := hs.parents x hx
    exact ⟨parent, List.mem_append_left _ hparent, hp⟩

/-- A new expression has no tasks. -/
theorem Submitted.tasksOf_new (h : Submitted source s s') (hs : s.WellFormed) :
    s'.tasksOf (s.lastExpression + 1) = [] := by
  rw [tasksOf_congr h.tasks, List.eq_nil_iff_forall_not_mem]
  intro k hk
  obtain ⟨r, hr, hid⟩ := hs.exists_parent hk
  have := hs.lastExpression r hr
  omega

end Submitted

/-! ## An expression is marked -/

/-- The row with another state, result and trace. -/
def mark (status : ExpressionStatus) (result : Option Float) (steps : Option (List String))
    (stamp : String) (r : ExpressionRow) : ExpressionRow :=
  { r with
    status := status.name
    result := result.bind columnFloat
    steps := steps.map stepsFormat.encode
    updatedAt := stamp }

/-- One row of an expression has become another one. -/
structure Marked (r r' : ExpressionRow) (s s' : Store) : Prop where
  rows : Replaces r r' s.expressions s'.expressions
  id : r'.id = r.id
  source : r'.source = r.source
  tasks : s'.tasks = s.tasks
  lastTask : s'.lastTask = s.lastTask
  lastExpression : s'.lastExpression = s.lastExpression

theorem Marked.wellFormed {s s' : Store} {r r' : ExpressionRow} (h : Marked r r' s s')
    (hs : s.WellFormed) : s'.WellFormed := by
  refine ⟨?_, ?_, ?_, ?_, ?_, ?_⟩
  · rw [h.tasks]
    exact hs.tasks
  · rw [h.tasks]
    exact hs.taskIds
  · rw [h.tasks, h.lastTask]
    exact hs.lastTask
  · rw [← h.rows.map_eq h.id.symm]
    exact hs.expressionIds
  · rw [h.lastExpression]
    exact h.rows.forall_mem hs.lastExpression (h.id ▸ hs.lastExpression r h.rows.mem)
  · rw [h.tasks]
    intro x hx
    obtain ⟨parent, hparent, hp⟩ := hs.parents x hx
    by_cases heq : parent = r
    · exact ⟨r', h.rows.mem_new, by rw [h.id, ← heq, hp]⟩
    · exact ⟨parent, h.rows.mem_of_ne hparent heq, hp⟩

/-- Marking an expression that does not exist changes nothing. -/
theorem setStatus_cases {s : Store} (hs : s.WellFormed) (now : Instant) (id : Int)
    (status : ExpressionStatus) (result : Option Float) (steps : Option (List String)) :
    ((∀ r ∈ s.expressions, r.id ≠ id) ∧ s.setStatus now id status result steps = s) ∨
      ∃ r, r.id = id ∧ Marked r (mark status result steps now.stamp r) s
        (s.setStatus now id status result steps) := by
  have hselected : ∀ r : ExpressionRow, (r.id == id) = true → r.id = id := by
    intro r hr
    exact beq_iff_eq.1 hr
  rcases map_eq_of_unique (fun r => r.id == id) (mark status result steps now.stamp) hselected
      hs.expressionIds with ⟨hnone, hsame⟩ | ⟨r, hsel, -, hrows⟩
  · refine .inl ⟨fun r hr hid => ?_, ?_⟩
    · rw [List.any_eq_false] at hnone
      exact hnone r hr (beq_iff_eq.2 hid)
    · exact congrArg (fun rows => { s with expressions := rows }) hsame
  · exact .inr ⟨r, hselected r hsel, hrows, rfl, rfl, rfl, rfl, rfl⟩

theorem setStatus_marked {s : Store} (hs : s.WellFormed) {r : ExpressionRow}
    (hr : r ∈ s.expressions) (now : Instant) (status : ExpressionStatus) (result : Option Float)
    (steps : Option (List String)) :
    Marked r (mark status result steps now.stamp r) s
      (s.setStatus now r.id status result steps) := by
  rcases setStatus_cases hs now r.id status result steps with ⟨hnone, -⟩ | ⟨r', hid, hmarked⟩
  · exact absurd rfl (hnone r hr)
  · cases hs.eq_of_id hmarked.rows.mem hr hid
    exact hmarked

section SetStatus

variable {p : ExpressionRow → Bool}
  (hp : ∀ status result steps stamp r, p (mark status result steps stamp r) = p r)
  (now : Instant) (id : Int) (status : ExpressionStatus) (result : Option Float)
  (steps : Option (List String)) (s : Store)
include hp

/-- Marking selects no other rows. -/
theorem filter_setStatus : (s.setStatus now id status result steps).expressions.filter p =
    (s.expressions.filter p).map fun r =>
      if r.id == id then mark status result steps now.stamp r else r := by
  rw [setStatus, List.filter_map]
  refine congrArg (List.map _) (List.filter_congr fun r _ => ?_)
  show p (if r.id == id then mark status result steps now.stamp r else r) = p r
  split_ifs
  · exact hp status result steps now.stamp r
  · rfl

/-- Marking an expression leaves other rows as they are. -/
theorem filter_setStatus_of_ne (hne : ∀ r ∈ s.expressions.filter p, r.id ≠ id) :
    (s.setStatus now id status result steps).expressions.filter p = s.expressions.filter p := by
  rw [filter_setStatus hp]
  conv_rhs => rw [← List.map_id (s.expressions.filter p)]
  refine List.map_congr_left fun r hr => if_neg ?_
  rw [beq_iff_eq]
  exact hne r hr

end SetStatus

/-! ## Looking up single rows -/

section Reading

variable {s : Store}

/-- A task is known by its identifier. -/
theorem WellFormed.eq_of_task_id (hs : s.WellFormed) {e e' : Int} {k k' : Task}
    (hk : k ∈ s.tasksOf e) (hk' : k' ∈ s.tasksOf e') (hid : k.id = k'.id) : k = k' := by
  obtain ⟨r, hr, -, hread⟩ := mem_tasksOf.1 hk
  obtain ⟨r', hr', -, hread'⟩ := mem_tasksOf.1 hk'
  rw [TaskRow.id_of_read hread, TaskRow.id_of_read hread'] at hid
  cases eq_of_pairwise hs.taskIds hr hr' hid
  exact Except.ok.inj (hread.symm.trans hread')

/-- Looking up a task finds the one with the identifier, if there is one. -/
theorem task?_cases (hs : s.WellFormed) (id : Int) :
    (s.task? id = .ok none ∧ ∀ e, ∀ k ∈ s.tasksOf e, k.id ≠ id) ∨
      ∃ k, s.task? id = .ok (some k) ∧ k ∈ s.tasksOf k.expressionId ∧ k.id = id := by
  unfold task?
  cases hfind : s.tasks.find? (·.id == id) with
  | none =>
    refine .inl ⟨rfl, fun e k hk hid => ?_⟩
    obtain ⟨r, hr, -, hread⟩ := mem_tasksOf.1 hk
    have hne := List.find?_eq_none.1 hfind r hr
    rw [← TaskRow.id_of_read hread, hid] at hne
    exact hne (beq_self_eq_true id)
  | some r =>
    have hr := List.mem_of_find?_eq_some hfind
    have hid := List.find?_some hfind
    obtain ⟨k, hread⟩ := (hs.tasks r hr).exists_read
    refine .inr ⟨k, by rw [readFound, hread]; rfl, ?_, ?_⟩
    · exact mem_tasksOf.2 ⟨r, hr, (TaskRow.expressionId_of_read hread).symm, hread⟩
    · rw [TaskRow.id_of_read hread]
      exact beq_iff_eq.1 hid

/-- Where identifiers are keys, looking up an expression reads the row with the identifier. -/
theorem expression?_of_nodup (hkeys : (s.expressions.map ExpressionRow.id).Nodup)
    {r : ExpressionRow} (hr : r ∈ s.expressions) : s.expression? r.id = r.read.map some := by
  have hfound : (s.expressions.find? (·.id == r.id)).isSome := by
    rw [List.find?_isSome]
    exact ⟨r, hr, beq_self_eq_true r.id⟩
  obtain ⟨r', hr'⟩ := Option.isSome_iff_exists.1 hfound
  have hid := List.find?_some hr'
  have hsame := List.inj_on_of_nodup_map hkeys (List.mem_of_find?_eq_some hr') hr (beq_iff_eq.1 hid)
  rw [expression?, hr', hsame]
  rfl

theorem expression?_eq (hs : s.WellFormed) {r : ExpressionRow} (hr : r ∈ s.expressions) :
    s.expression? r.id = r.read.map some :=
  expression?_of_nodup (hs.expressionIds.imp Int.ne_of_lt) hr

/-- A row that is listed as unfinished. -/
theorem mem_unfinished {e : Expression} :
    e ∈ s.unfinished ↔ ∃ r ∈ s.expressions, r.isUnfinished = true ∧ r.read = .ok e := by
  simp only [unfinished, readableExpressions, List.mem_filterMap, List.mem_filter,
    toOption_eq_some, and_assoc]

/-- Where identifiers are keys, an expression is listed once. -/
theorem nodup_unfinished (hkeys : (s.expressions.map ExpressionRow.id).Nodup) :
    (s.unfinished.map Expression.id).Nodup := by
  have hrows : s.expressions.Pairwise fun r r' => r.id ≠ r'.id := List.pairwise_map.1 hkeys
  rw [unfinished, readableExpressions, List.Nodup, List.pairwise_map, List.pairwise_filterMap]
  refine (hrows.filter _).imp fun hne e he e' he' => ?_
  rw [(ExpressionRow.read_eq_ok (toOption_eq_some.1 he)).1,
    (ExpressionRow.read_eq_ok (toOption_eq_some.1 he')).1]
  exact hne

theorem WellFormed.nodup_unfinished (hs : s.WellFormed) :
    (s.unfinished.map Expression.id).Nodup :=
  Store.nodup_unfinished (hs.expressionIds.imp Int.ne_of_lt)

end Reading

/-! ## What holds of every task -/

/-- Something holds of every task. -/
def AllTasks (P : Task → Prop) (s : Store) : Prop := ∀ e, ∀ k ∈ s.tasksOf e, P k

section AllTasks

variable {P : Task → Prop} {s s' : Store} {k k' : Task}

theorem allTasks_empty : AllTasks P empty := by
  intro e k hk
  cases hk

theorem AllTasks.congr (h : AllTasks P s) (hsame : s'.tasks = s.tasks) : AllTasks P s' := by
  intro e
  rw [tasksOf_congr hsame]
  exact h e

theorem AllTasks.moved (h : AllTasks P s) (hmoved : Moved k k' s s') (hk' : P k') :
    AllTasks P s' := by
  intro e k0 hk0
  rcases hmoved.mem_old hk0 with hold | rfl
  · exact h e k0 hold
  · exact hk'

theorem AllTasks.issued (h : AllTasks P s) (hissued : Issued k s s') (hk : P k) :
    AllTasks P s' := by
  intro e k0 hk0
  rcases hissued.mem_old hk0 with hold | rfl
  · exact h e k0 hold
  · exact hk

end AllTasks

/-! ## All calls -/

/-- Whether a call adds a task or overwrites an expression.  Only passes make such
calls. -/
def schedules : Call → Bool
  | .createTask .. | .setStatus .. => true
  | _ => false

/-- What a call does that neither adds a task nor overwrites an expression. -/
inductive Elsewhere : Call → Store → Store → Prop
  | kept {c : Call} {s : Store} : Elsewhere c s s
  | moved {c : Call} {s s' : Store} {k k' : Task} :
      Moves c k k' → Moved k k' s s' → Elsewhere c s s'
  | submitted {s s' : Store} (owner source : String) :
      Submitted source s s' → Elsewhere (.createExpression owner source) s s'

/-- Looking something up leaves the store as it is. -/
theorem map_pair_ok {ε α : Type} {x : Except ε α} {s s' : Store} {a : α}
    (h : x.map (·, s) = .ok (a, s')) : x = .ok a ∧ s' = s := by
  cases x with
  | error e => cases h
  | ok b =>
    cases h
    exact ⟨rfl, rfl⟩

theorem map_pair_error {ε α : Type} {x : Except ε α} {s : Store} {e : ε}
    (h : x.map (·, s) = .error e) : x = .error e := by
  cases x with
  | error e' =>
    cases h
    rfl
  | ok b => cases h

theorem answer_elsewhere {s s' : Store} (hs : s.WellFormed) {now : Instant} {c : Call}
    {reply : c.Reply} (hc : schedules c = false) (h : s.answer now c = .ok (reply, s')) :
    Elsewhere c s s' := by
  cases c with
  | createTask | setStatus => cases hc
  | migrate | listTasks | listOwned | listUnfinished =>
    cases h
    exact .kept
  | getTask | getExpression | getOwnedExpression =>
    obtain ⟨-, rfl⟩ := map_pair_ok h
    exact .kept
  | createExpression owner source =>
    cases h
    exact .submitted owner source (createExpression_submitted s now owner source)
  | lease =>
    rcases lease_cases hs now with ⟨hnone, -⟩ | ⟨k, shown, kept, s'', hsome, hst, hmoved⟩
    · cases hnone.symm.trans h
      exact .kept
    · cases hsome.symm.trans h
      exact .moved (.leased kept hst) hmoved
  | completeTask id value =>
    have h' : s.complete now id value = (reply, s') := Except.ok.inj h
    rcases complete_cases hs now id value with
      ⟨hnone, -⟩ | ⟨k, kept, s'', hsome, rfl, hst, hmoved⟩
    · cases hnone.symm.trans h'
      exact .kept
    · cases hsome.symm.trans h'
      exact .moved (.completed value kept hst) hmoved
  | failTask id =>
    have h' : s.fail now id = (reply, s') := Except.ok.inj h
    rcases fail_cases hs now id with
      ⟨hnone, -⟩ | ⟨k, retries, kept, s'', hsome, rfl, hst, hmoved⟩
    · cases hnone.symm.trans h'
      exact .kept
    · cases hsome.symm.trans h'
      exact .moved (.failed retries kept hst) hmoved

theorem Elsewhere.wellFormed {s s' : Store} {c : Call} (h : Elsewhere c s s')
    (hs : s.WellFormed) : s'.WellFormed := by
  cases h with
  | kept => exact hs
  | moved _ hmoved => exact hmoved.wellFormed hs
  | submitted _ _ hsubmitted => exact hsubmitted.wellFormed hs

/-- Whatever is asked of a store, its rows stay well formed. -/
theorem WellFormed.answer {s s' : Store} (hs : s.WellFormed) {now : Instant} {c : Call}
    {reply : c.Reply} (h : s.answer now c = .ok (reply, s')) : s'.WellFormed := by
  cases hc : schedules c with
  | false => exact (answer_elsewhere hs hc h).wellFormed hs
  | true =>
    cases c with
    | createTask e op lhs rhs path =>
      obtain ⟨k, hk, -⟩ := createTask_ok h
      exact hk.wellFormed hs
    | setStatus id status result steps =>
      cases h
      rcases setStatus_cases hs now id status result steps with ⟨-, hsame⟩ | ⟨r, -, hmarked⟩
      · rw [hsame]
        exact hs
      · exact hmarked.wellFormed hs
    | _ => cases hc

/-- A store that calls have led to. -/
inductive Reached : Store → Prop
  | empty : Reached .empty
  | call {s s' : Store} {now : Instant} {c : Call} {reply : c.Reply} :
      Reached s → s.answer now c = .ok (reply, s') → Reached s'

theorem Reached.wellFormed {s : Store} (h : s.Reached) : s.WellFormed := by
  induction h with
  | empty => exact wellFormed_empty
  | call _ heq ih => exact ih.answer heq

end Store

end Piecework
