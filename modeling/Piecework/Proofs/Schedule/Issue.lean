import Piecework.Proofs.Expr.PostOrder
import Piecework.Proofs.Schedule.Undisturbed

/-!
# Tasks for what is missing

A ready operation is missing when no task of its expression covers it.  The tasks are listed
once, in front of the first new one, so two questions come up: whether a new task could have
covered a later operation of the same list, and whether a task is found again after its operands
went through a column, where negative zero loses its sign.

* `Store.Supplied` says what creating tasks for some operations does to a store, row by row.
* `createTasks_supplies` is the induction over the operations, and `issueTasks_supplies` the
  listing in front of it.
* `Store.Grown.uncovered`: the new tasks cover their operations, so none is left.
* `missing_tasks_issued` puts these together, and adds that doing it again does nothing.
-/

namespace Piecework

open Schedule

namespace Store

/-- The ready operations of a tree that no task of the expression covers. -/
def missing (e : Int) (t : Tree) (s : Store) : List Ready :=
  t.frontier.filter fun x => (s.tasksOf e).all fun k => !k.covers x

theorem uncovered_eq_missing (e : Int) (t : Tree) (s : Store) :
    uncovered (s.tasksOf e) t.frontier = s.missing e t := by
  rw [uncovered, missing]
  exact List.filter_congr fun x _ => List.not_any_eq_all_not

/-- Every operation was given a pending task: the rows stand behind the old ones, in the order of
the operations and under the identifiers that come next, and nothing else has changed. -/
def Supplied (e : Int) (xs : List Ready) (s s' : Store) : Prop :=
  ∃ rows : List TaskRow,
    s' = { s with tasks := s.tasks ++ rows, lastTask := s.lastTask + xs.length } ∧
      rows.map TaskRow.bare = xs.map (Ready.row e) ∧
      rows.map TaskRow.id = (List.range xs.length).map fun (i : Nat) => s.lastTask + 1 + i

section Supplied

variable {e : Int} {xs : List Ready} {x : Ready} {row : TaskRow} {s s' : Store}

theorem Supplied.nil (e : Int) (s : Store) : Supplied e [] s s := by
  refine ⟨[], ?_, rfl, rfl⟩
  rw [List.append_nil, List.length_nil, Int.natCast_zero, Int.add_zero]

theorem Supplied.cons (hbare : row.bare = x.row e) (hid : row.id = s.lastTask + 1)
    (h : Supplied e xs (s.push row) s') : Supplied e (x :: xs) s s' := by
  obtain ⟨rows, rfl, hrows, hids⟩ := h
  refine ⟨row :: rows, ?_, ?_, ?_⟩
  · simp only [push, List.append_assoc, List.singleton_append, List.length_cons, Nat.cast_succ,
      mk.injEq, true_and, and_true]
    omega
  · rw [List.map_cons, hbare, hrows, List.map_cons]
  · rw [List.map_cons, hid, hids, List.length_cons, List.range_succ_eq_map, List.map_cons,
      List.map_map, Int.natCast_zero, Int.add_zero]
    refine congrArg _ (List.map_congr_left fun i _ => ?_)
    simp only [push, Function.comp_apply, Nat.cast_succ]
    omega

theorem Supplied.eq_of_nil (h : Supplied e [] s s') : s' = s := by
  obtain ⟨rows, rfl, hrows, -⟩ := h
  rw [List.map_eq_nil_iff.1 hrows, List.append_nil, List.length_nil, Int.natCast_zero, Int.add_zero]

theorem Supplied.grown (h : Supplied e xs s s') : Grown e xs s s' := by
  obtain ⟨rows, rfl, hrows, -⟩ := h
  exact ⟨⟨rows, rfl, hrows⟩, rfl⟩

end Supplied

/-! ## What is covered afterwards -/

section Covered

variable {e : Int} {ready : List Ready} {s s' : Store}

/-- Whether an operation is covered can be read off the view of its expression. -/
theorem uncovered_view (e : Int) (s : Store) (ready : List Ready) :
    uncovered (readableTasks (s.view e).tasks) ready = uncovered (s.tasksOf e) ready := by
  show uncovered (readableTasks ((s.tasks.filter (·.expressionId == e)).map TaskRow.bare)) _ = _
  rw [readableTasks_bare, uncovered_bare]
  rfl

/-- Once the uncovered operations have their tasks, none is left. -/
theorem Grown.uncovered (h : Grown e (uncovered (s.tasksOf e) ready) s s')
    (hnodup : (ready.map Ready.path).Nodup)
    (hstorable : ∀ x ∈ Schedule.uncovered (s.tasksOf e) ready, x.isStorable = true) :
    Schedule.uncovered (s'.tasksOf e) ready = [] := by
  rw [← uncovered_view, h.view, readableTasks_append, Ready.readableTasks_row]
  refine Plan.uncovered_append hnodup ((uncovered_view e s ready).trans (List.append_nil _).symm)
    ?_ ?_
  · intro k hk
    obtain ⟨x, hx, rfl⟩ := List.mem_map.1 hk
    exact ⟨x, hx, Ready.issuedFor_task (hstorable x hx) e⟩
  · exact fun x hx => ⟨_, List.mem_map_of_mem hx, Ready.issuedFor_task (hstorable x hx) e⟩

theorem exists_covers_of_uncovered {tasks : List Task} (h : uncovered tasks ready = []) {x : Ready}
    (hx : x ∈ ready) : ∃ k ∈ tasks, k.covers x = true := by
  have hcovered := List.filter_eq_nil_iff.1 h x hx
  rw [Bool.not_eq_true, Bool.not_eq_false'] at hcovered
  exact List.any_eq_true.1 hcovered

end Covered

end Store

/-- The operands of a ready operation can be stored if all numbers of the tree can. -/
theorem Tree.isStorable_of_mem_frontier {t : Tree} (ht : t.Every fun v => v.isNaN = false)
    {x : Ready} (hx : x ∈ t.frontier) : x.isStorable = true := by
  obtain ⟨hlhs, hrhs⟩ := ht.at? (Tree.mem_frontier.1 hx)
  obtain ⟨a, ha⟩ := Number.exists_columnFloat hlhs
  obtain ⟨b, hb⟩ := Number.exists_columnFloat hrhs
  rw [Ready.isStorable, ha, hb]
  rfl

/-! ## Creating tasks -/

section Issue

variable {e : Int} {s : Store}

theorem createTasks_supplies (hparent : ∃ r ∈ s.expressions, r.id = e) (xs : List Ready)
    (hstorable : ∀ x ∈ xs, x.isStorable = true) :
    (createTasks e xs).Meets (undisturbed False)
      (fun result s' => result = .ok xs.length ∧ s.Supplied e xs s') s := by
  induction xs generalizing s with
  | nil =>
    rintro s' rfl
    exact ⟨rfl, .nil e s⟩
  | cons x rest ih =>
    rw [List.forall_mem_cons] at hstorable
    refine Program.meets_call (fun _ _ => trivial) ?_ ?_
    · rintro s1 now id s2 rfl heq
      obtain ⟨row, hbare, hid, hcreate⟩ := Store.createTask_eq hparent now hstorable.1
      cases hcreate.symm.trans heq
      refine (ih (s := s.push row) hparent hstorable.2).bind ?_ ?_
      · rintro n s3 ⟨hn, hsupplied⟩ s4 rfl
        cases hn
        exact ⟨rfl, hsupplied.cons hbare hid⟩
      · rintro err s3 ⟨herr, -⟩
        cases herr
    · rintro s1 err rfl (hfails | ⟨now, heq⟩)
      · exact hfails.elim
      · obtain ⟨row, -, -, hcreate⟩ := Store.createTask_eq hparent now hstorable.1
        cases hcreate.symm.trans heq

theorem issueTasks_supplies (hparent : ∃ r ∈ s.expressions, r.id = e) {t : Tree}
    (ht : t.Every fun v => v.isNaN = false) :
    (issueTasks e t).Meets (undisturbed False)
      (fun result s' => result = .ok (s.missing e t).length ∧ s.Supplied e (s.missing e t) s')
      s := by
  have hstorable : ∀ x ∈ s.missing e t, x.isStorable = true := fun x hx =>
    t.isStorable_of_mem_frontier ht (List.mem_filter.1 hx).1
  unfold issueTasks
  split_ifs with hempty
  · have hnone : s.missing e t = [] := by
      rw [Store.missing, List.isEmpty_iff.1 hempty, List.filter_nil]
    rw [hnone]
    exact createTasks_supplies hparent [] (by simp)
  · refine Program.meets_call (fun _ _ => trivial) ?_ ?_
    · rintro s1 now listed s2 rfl heq
      cases heq
      rw [Store.uncovered_eq_missing]
      exact createTasks_supplies hparent _ hstorable
    · rintro s1 err rfl (hfails | ⟨now, heq⟩)
      · exact hfails.elim
      · cases heq

/-- Each ready operation that no task covers is given one pending task, in the order of the
frontier, and nothing else changes.  The number of new tasks is counted.  Every ready operation is
covered by a task then, so that a second time nothing is missing and nothing changes. -/
theorem missing_tasks_issued {site : Site} (hquiet : site.outages.Quiet)
    (hparent : ∃ r ∈ site.store.expressions, r.id = e) {t : Tree}
    (ht : t.Every fun v => v.isNaN = false) :
    (site.perform (issueTasks e t)).1 = .ok (site.store.missing e t).length ∧
      site.store.Supplied e (site.store.missing e t) (site.perform (issueTasks e t)).2.store ∧
      ((site.store.missing e t).Pairwise fun x y => Path.Before x.path y.path) ∧
      (∀ x ∈ t.frontier, ∃ k ∈ (site.perform (issueTasks e t)).2.store.tasksOf e,
        k.covers x = true) ∧
      ∀ again : Site, again.store = (site.perform (issueTasks e t)).2.store →
        again.outages.Quiet → (again.perform (issueTasks e t)).1 = .ok 0 ∧
          (again.perform (issueTasks e t)).2.store = again.store := by
  obtain ⟨⟨hcount, hsupplied⟩, -⟩ := (issueTasks_supplies hparent ht).perform site hquiet
  have hgrown := hsupplied.grown
  have hnone : uncovered ((site.perform (issueTasks e t)).2.store.tasksOf e) t.frontier = [] := by
    rw [← Store.uncovered_eq_missing] at hgrown
    refine hgrown.uncovered t.nodup_frontier fun x hx => ?_
    exact t.isStorable_of_mem_frontier ht (List.mem_filter.1 hx).1
  refine ⟨hcount, hsupplied, t.pairwise_frontier.filter _, fun x hx => ?_, ?_⟩
  · exact Store.exists_covers_of_uncovered hnone hx
  · intro again hstore hquiet'
    have hparent' : ∃ r ∈ again.store.expressions, r.id = e := by
      rwa [hstore, hgrown.expressions]
    obtain ⟨⟨hcount', hsupplied'⟩, -⟩ := (issueTasks_supplies hparent' ht).perform again hquiet'
    rw [← hstore, Store.uncovered_eq_missing] at hnone
    rw [hnone] at hcount' hsupplied'
    exact ⟨hcount', hsupplied'.eq_of_nil⟩

/-- The tree of `(1+2)*(-0-4)`. -/
def signedZero : Tree :=
  .node .mul (.node .add (.leaf 1) (.leaf 2)) (.node .sub (.leaf (-0.0)) (.leaf 4))

/-- The sum has two tasks and a stale one.  The difference has none: one row belongs to another
place, one to another expression, and one does not read. -/
def staleTasks : Store :=
  ⟨[⟨1, 1, "+", 1, 5, "L", some 6, "done", 0, "", ""⟩,
      ⟨2, 1, "+", 1, 2, "L", none, "in_progress", 1, "", ""⟩,
      ⟨3, 1, "+", 1, 2, "L", some 3, "done", 0, "", ""⟩,
      ⟨4, 1, "-", 0, 4, "LR", none, "pending", 0, "", ""⟩,
      ⟨5, 2, "-", 0, 4, "R", none, "pending", 0, "", ""⟩,
      ⟨6, 1, "minus", 0, 4, "R", none, "pending", 0, "", ""⟩],
    [⟨1, "alice", "(1+2)*(-0-4)", "pending", none, none, "", ""⟩,
      ⟨2, "bob", "1*(0-4)", "in_progress", none, none, "", ""⟩], 6, 2⟩

/-- Only the difference is given a task, and once it has one it is found again. -/
theorem staleTasks_issued :
    (∃ r ∈ staleTasks.expressions, r.id = 1) ∧ (signedZero.Every fun v => v.isNaN = false) ∧
      staleTasks.missing 1 signedZero = [⟨[.right], .sub, -0.0, 4⟩] ∧
      (Site.perform (issueTasks 1 signedZero) ⟨staleTasks, Site.dawn, []⟩).1 = .ok 1 ∧
      (Site.perform (issueTasks 1 signedZero) ⟨(Site.perform (issueTasks 1 signedZero)
        ⟨staleTasks, Site.dawn, []⟩).2.store, Site.dawn, []⟩).1 = .ok 0 := by
  have hparent : ∃ r ∈ staleTasks.expressions, r.id = 1 := ⟨_, List.mem_cons_self, rfl⟩
  have hnumbers : signedZero.Every fun v => v.isNaN = false := by
    simp only [signedZero, Tree.Every]
    decide +kernel
  have hmissing : staleTasks.missing 1 signedZero = [⟨[.right], .sub, -0.0, 4⟩] := by
    decide +kernel
  have hquiet : (⟨staleTasks, Site.dawn, []⟩ : Site).outages.Quiet := Outages.quiet_nil
  obtain ⟨hcount, -, -, -, hagain⟩ := missing_tasks_issued hquiet hparent hnumbers
  rw [hmissing] at hcount
  generalize (Site.perform (issueTasks 1 signedZero) ⟨staleTasks, Site.dawn, []⟩).2.store = after
    at hagain ⊢
  exact ⟨hparent, hnumbers, hmissing, hcount, (hagain ⟨after, _, _⟩ rfl Outages.quiet_nil).1⟩

end Issue

end Piecework
