import Piecework.Proofs.Refill
import Piecework.Proofs.Store.Rows

/-!
# The tasks of an expression and its tree

`Tracked` relates the tasks of one expression, in the order of their identifiers, to the
tree of its source.

* No two tasks share a path, and each one computes the operation at its path.
* A task without a result covers an operation that is ready once the results are folded
  in.
* A task with a result has been folded in: no operation is left at its path.

A task is only added for an operation that is `Open`, that is ready and without a task
(`Tracked.issue`), and a task that changes hands stays where it is (`Tracked.moved`).  What
is known of an older list of tasks is carried over by `Later`, which compares the two
lists task by task: `Open.later` and `Tracked.eq_of_later`.
-/

namespace Piecework

/-! ## Tasks that change hands -/

/-- The second task computes the same operation in the same place. -/
structure Task.Alike (k k' : Task) : Prop where
  id : k'.id = k.id
  path : k'.path = k.path
  operator : k'.operator = k.operator
  operand1 : k'.operand1 = k.operand1
  operand2 : k'.operand2 = k.operand2

/-- What a task may have become: a finished one stays as it is. -/
structure Task.Later (k k' : Task) : Prop extends k.Alike k' where
  done : k.status = .done → k' = k

theorem Task.Later.refl (k : Task) : k.Later k := ⟨⟨rfl, rfl, rfl, rfl, rfl⟩, fun _ => rfl⟩

theorem Task.Later.trans {a b c : Task} (h : a.Later b) (h' : b.Later c) : a.Later c := by
  refine ⟨⟨h'.id.trans h.id, h'.path.trans h.path, h'.operator.trans h.operator,
    h'.operand1.trans h.operand1, h'.operand2.trans h.operand2⟩, fun hdone => ?_⟩
  have hb := h.done hdone
  rw [hb] at h'
  exact h'.done hdone

theorem Task.Alike.computes_eq {k k' : Task} (h : k.Alike k') (path : String) (op : Operator)
    (a b : Float) : k'.computes path op a b = k.computes path op a b := by
  unfold Task.computes
  rw [h.path, h.operator, h.operand1, h.operand2]

theorem Task.Alike.covers_eq {k k' : Task} (h : k.Alike k') (x : Ready) :
    k'.covers x = k.covers x := h.computes_eq _ _ _ _

theorem Task.path_of_covers {k : Task} {x : Ready} (h : k.covers x = true) :
    k.path = x.path.text := path_of_computes h

theorem Task.exact_of_unfinished {k : Task} (h : k.status ≠ .done) : k.Exact :=
  fun _ hdone => absurd hdone h

/-- A finished task has a result. -/
def Task.Answered (k : Task) : Prop := k.status = .done → ∃ v, k.result = some v

theorem Task.answered_of_unfinished {k : Task} (h : k.status ≠ .done) : k.Answered :=
  fun hdone => absurd hdone h

/-! ## Results -/

section Results

variable {tasks tasks' : List Task} {k k' : Task}

/-- There is no result for an operation that no task covers. -/
theorem resultOf?_eq_none_of_covers {x : Ready} (h : ∀ k ∈ tasks, k.covers x = false) :
    resultOf? tasks x.path.text x.op x.lhs x.rhs = none := by
  rw [Option.eq_none_iff_forall_ne_some]
  intro v hv
  obtain ⟨k, hk, -, hcomputes, -⟩ := exists_of_resultOf? hv
  exact absurd (h k hk) (by simp [Task.covers, hcomputes])

/-- Tasks that are not finished have no influence. -/
theorem resultOf?_append_unfinished (h : k.status ≠ .done) (path : String) (op : Operator)
    (a b : Float) : resultOf? (tasks ++ [k]) path op a b = resultOf? tasks path op a b := by
  have hfind : finished? (tasks ++ [k]) path op a b = finished? tasks path op a b := by
    have hk : (k.status == .done && k.computes path op a b) = false := by simp [h]
    rw [finished?, List.find?_append, List.find?_cons, hk, List.find?_nil, Option.or_none,
      finished?]
  rw [resultOf?, hfind, resultOf?]

/-- A task that changes hands has no influence on other places. -/
theorem resultOf?_replaces_of_ne (h : Replaces k k' tasks tasks') {path : String}
    (hk : k.path ≠ path) (hk' : k'.path ≠ path) (op : Operator) (a b : Float) :
    resultOf? tasks' path op a b = resultOf? tasks path op a b := by
  have hfalse : ∀ {k : Task}, k.path ≠ path →
      (k.status == .done && k.computes path op a b) = false := by
    intro k hne
    rw [Bool.and_eq_false_iff]
    exact .inr (by simp [Task.computes, hne])
  obtain ⟨front, back, rfl, rfl⟩ := h
  have hfind : finished? (front ++ k' :: back) path op a b =
      finished? (front ++ k :: back) path op a b := by
    rw [finished?, List.find?_append, List.find?_cons, hfalse hk', finished?, List.find?_append,
      List.find?_cons, hfalse hk]
  rw [resultOf?, hfind, resultOf?]

/-- Where no two tasks share a path, a task that is not finished leaves its place without
a result. -/
theorem resultOf?_eq_none_of_unfinished (hnodup : (tasks.map Task.path).Nodup) (hk : k ∈ tasks)
    (hstatus : k.status ≠ .done) (op : Operator) (a b : Float) :
    resultOf? tasks k.path op a b = none := by
  rw [Option.eq_none_iff_forall_ne_some]
  intro v hv
  obtain ⟨k', hk', hdone, hcomputes, -⟩ := exists_of_resultOf? hv
  have hsame : k' = k :=
    List.inj_on_of_nodup_map hnodup hk' hk (Task.path_of_computes hcomputes)
  exact hstatus (hsame ▸ hdone)

theorem resultOf?_eq_none_of_result (hnodup : (tasks.map Task.path).Nodup) (hk : k ∈ tasks)
    (hresult : k.result = none) (op : Operator) (a b : Float) :
    resultOf? tasks k.path op a b = none := by
  rw [Option.eq_none_iff_forall_ne_some]
  intro v hv
  obtain ⟨k', hk', -, hcomputes, hv'⟩ := exists_of_resultOf? hv
  have hsame : k' = k :=
    List.inj_on_of_nodup_map hnodup hk' hk (Task.path_of_computes hcomputes)
  rw [hsame, hresult] at hv'
  cases hv'

end Results

namespace Tree

/-- Where no two tasks share a path, every finished task gives its result. -/
theorem knowsMore_of_done {tasks tasks' : List Task} (hnodup : (tasks'.map Task.path).Nodup)
    (h : ∀ k ∈ tasks, k.status = .done → k ∈ tasks') : KnowsMore tasks tasks' := by
  intro path op a b v hv
  obtain ⟨k, hk, hdone, hcomputes, hresult⟩ := exists_of_resultOf? hv
  exact resultOf?_of_mem hnodup (h k hk hdone) hdone hcomputes hresult

theorem refillAt_nil (t : Tree) (p : Path) : t.refillAt [] p = t := by
  induction t generalizing p with
  | leaf v => rfl
  | node op l r ihl ihr => exact refillAt_eq_node.2 ⟨⟨rfl, ihl _, ihr _⟩, fun _ _ _ _ => rfl⟩

@[simp]
theorem refill_nil (t : Tree) : t.refill [] = t := t.refillAt_nil []

/-- Refilling puts in results only. -/
theorem Every.refillAt {P : Float → Prop} {tasks : List Task}
    (htasks : ∀ k ∈ tasks, ∀ v, k.result = some v → P v) {t : Tree} (ht : t.Every P) (p : Path) :
    (t.refillAt tasks p).Every P := by
  induction t generalizing p with
  | leaf v => exact ht
  | node op l r ihl ihr =>
    cases hc : (node op l r).refillAt tasks p with
    | leaf v =>
      obtain ⟨a, b, -, -, hv⟩ := refillAt_eq_leaf.1 hc
      obtain ⟨k, hk, -, -, hresult⟩ := exists_of_resultOf? hv
      exact htasks k hk v hresult
    | node op' l' r' =>
      obtain ⟨⟨-, hl, hr⟩, -⟩ := refillAt_eq_node.1 hc
      exact ⟨hl ▸ ihl ht.1 _, hr ▸ ihr ht.2 _⟩

theorem Every.at? {P : Float → Prop} {t u : Tree} (ht : t.Every P) {p : Path}
    (h : t.at? p = some u) : u.Every P := by
  induction p generalizing t with
  | nil =>
    rw [at?_nil] at h
    cases h
    exact ht
  | cons side p ih =>
    cases t with
    | leaf v => cases h
    | node op l r =>
      cases side with
      | left => exact ih ht.1 h
      | right => exact ih ht.2 h

end Tree

/-! ## The invariant -/

/-- The tasks of an expression fit its tree. -/
structure Tracked (t : Tree) (tasks : List Task) : Prop where
  nodup : (tasks.map Task.path).Nodup
  valid : ∀ k ∈ tasks, k.Valid
  place : ∀ k ∈ tasks, ∃ p l r, k.path = Path.text p ∧ t.at? p = some (.node k.operator l r)
  waiting : ∀ k ∈ tasks, k.result = none → ∃ x ∈ (t.refill tasks).frontier, k.covers x = true
  resolved : ∀ k ∈ tasks, ∀ v, k.result = some v → ∀ p op l r, k.path = Path.text p →
    (t.refill tasks).at? p ≠ some (.node op l r)

/-- The operation is ready and no task covers it. -/
structure Open (t : Tree) (tasks : List Task) (x : Ready) : Prop where
  ready : x ∈ (t.refill tasks).frontier
  uncovered : ∀ k ∈ tasks, k.covers x = false

theorem tracked_nil (t : Tree) : Tracked t [] := by
  constructor <;> simp

section Tracked

variable {t : Tree} {tasks tasks' : List Task} {k k' : Task} {x : Ready}

/-- The place of an open operation is free. -/
theorem Tracked.path_ne_of_open (h : Tracked t tasks) (hx : Open t tasks x) (hk : k ∈ tasks) :
    k.path ≠ x.path.text := by
  intro hpath
  cases hresult : k.result with
  | none =>
    obtain ⟨y, hy, hcovers⟩ := h.waiting k hk hresult
    have hsame : y = x := by
      refine Tree.eq_of_mem_frontier hy hx.ready (Path.text_injective ?_)
      rw [← Task.path_of_covers hcovers, hpath]
    rw [hsame, hx.uncovered k hk] at hcovers
    cases hcovers
  | some v =>
    exact h.resolved k hk v hresult x.path x.op _ _ hpath (Tree.mem_frontier.1 hx.ready)

/-- A task for an open operation. -/
structure Task.IssuedFor (k : Task) (x : Ready) : Prop where
  path : k.path = x.path.text
  operator : k.operator = x.op
  operand1 : columnFloat x.lhs = some k.operand1
  operand2 : columnFloat x.rhs = some k.operand2
  status : k.status = .pending
  result : k.result = none

theorem Task.IssuedFor.covers (h : k.IssuedFor x) : k.covers x = true := by
  simp only [Task.covers, Task.computes, h.path, h.operator, beq_self_eq_true, Bool.true_and,
    Bool.and_eq_true]
  exact ⟨Number.beq_symm (Number.columnFloat_agrees h.operand1),
    Number.beq_symm (Number.columnFloat_agrees h.operand2)⟩

theorem Task.IssuedFor.valid (h : k.IssuedFor x) : k.Valid where
  operands := ⟨Number.isNaN_of_columnFloat h.operand1, Number.isNaN_of_columnFloat h.operand2⟩
  number v hv := by rw [h.result] at hv; cases hv
  finished v hv := by rw [h.result] at hv; cases hv

theorem Task.IssuedFor.unfinished (h : k.IssuedFor x) : k.status ≠ .done := by
  rw [h.status]
  decide

theorem Task.IssuedFor.refill_append (h : k.IssuedFor x) (t : Tree) (tasks : List Task) :
    t.refill (tasks ++ [k]) = t.refill tasks :=
  t.refill_congr (resultOf?_append_unfinished h.unfinished)

/-- A task may be added for an open operation. -/
theorem Tracked.issue (h : Tracked t tasks) (hx : Open t tasks x) (hk : k.IssuedFor x) :
    Tracked t (tasks ++ [k]) := by
  have hrefill := hk.refill_append t tasks
  have hall : ∀ {P : Task → Prop}, (∀ k' ∈ tasks, P k') → P k → ∀ k' ∈ tasks ++ [k], P k' := by
    intro P hold hnew k' hk'
    rw [List.mem_append, List.mem_singleton] at hk'
    rcases hk' with hk' | rfl
    · exact hold k' hk'
    · exact hnew
  refine ⟨?_, hall h.valid hk.valid, hall h.place ?_, ?_, ?_⟩
  · rw [List.map_append, List.map_singleton, List.nodup_append]
    refine ⟨h.nodup, List.nodup_singleton _, ?_⟩
    intro path hpath path' hpath'
    obtain ⟨k', hk', rfl⟩ := List.mem_map.1 hpath
    rw [List.mem_singleton.1 hpath', hk.path]
    exact h.path_ne_of_open hx hk'
  · obtain ⟨l, r, hat⟩ := Tree.at?_of_refillAt (p := []) (Tree.mem_frontier.1 hx.ready)
    exact ⟨x.path, l, r, hk.path, hk.operator ▸ hat⟩
  · rw [hrefill]
    exact hall h.waiting fun _ => ⟨x, hx.ready, hk.covers⟩
  · rw [hrefill]
    exact hall h.resolved fun v hv => by rw [hk.result] at hv; cases hv

/-- The other open operations stay open. -/
theorem Open.issue {y : Ready} (hy : Open t tasks y) (hk : k.IssuedFor x)
    (hne : y.path ≠ x.path) : Open t (tasks ++ [k]) y := by
  refine ⟨by rw [hk.refill_append]; exact hy.ready, fun k' hk' => ?_⟩
  rw [List.mem_append, List.mem_singleton] at hk'
  rcases hk' with hk' | rfl
  · exact hy.uncovered k' hk'
  · rw [Bool.eq_false_iff]
    intro hcovers
    exact hne (Path.text_injective ((Task.path_of_covers hcovers).symm.trans hk.path))

/-- A task that ends without a result, or does not end, changes no tree. -/
theorem refill_replaces_of_none (hnodup : (tasks.map Task.path).Nodup)
    (h : Replaces k k' tasks tasks') (hpath : k'.path = k.path) (hk : k.result = none)
    (hk' : k'.result = none) (t : Tree) : t.refill tasks' = t.refill tasks := by
  refine t.refill_congr fun path op a b => ?_
  by_cases hne : k.path = path
  · subst hne
    have hnodup' : (tasks'.map Task.path).Nodup := h.map_eq hpath.symm ▸ hnodup
    have hnone := resultOf?_eq_none_of_result hnodup' h.mem_new hk' op a b
    rw [resultOf?_eq_none_of_result hnodup h.mem hk, ← hpath, hnone]
  · exact resultOf?_replaces_of_ne h hne (hpath ▸ hne) op a b

/-- The result of a task is one more result. -/
theorem Tracked.oneMore (h : Tracked t tasks) (hmoves : Replaces k k' tasks tasks')
    (hlater : k.Later k') (hdone : k'.status = .done) {v : Float} (hv : k'.result = some v)
    (hx : x ∈ (t.refill tasks).frontier) (hcovers : k.covers x = true) :
    Tree.OneMore tasks tasks' x.path x.op x.lhs x.rhs v := by
  have hnodup' : (tasks'.map Task.path).Nodup := hmoves.map_eq hlater.path.symm ▸ h.nodup
  have hpath := Task.path_of_covers hcovers
  refine ⟨?_, ?_, ?_⟩
  · refine resultOf?_of_mem hnodup' hmoves.mem_new hdone ?_ hv
    rw [hlater.computes_eq]
    exact hcovers
  · intro q hne op a b
    have hq : k.path ≠ q.text := by
      rw [hpath]
      exact fun heq => hne (Path.text_injective heq.symm)
    exact resultOf?_replaces_of_ne hmoves hq (hlater.path ▸ hq) op a b
  · -- above a ready operation nothing has been folded in
    intro q hpre hne op a b
    rw [Option.eq_none_iff_forall_ne_some]
    intro w hw
    obtain ⟨k0, hk0, -, hcomputes, hresult0⟩ := exists_of_resultOf? hw
    obtain ⟨rest, hrest⟩ := hpre
    have hat := Tree.mem_frontier.1 hx
    rw [← hrest, Tree.at?_append] at hat
    cases hq : (t.refill tasks).at? q with
    | none =>
      rw [hq] at hat
      cases hat
    | some u =>
      rw [hq, Option.bind_some] at hat
      cases u with
      | leaf w =>
        obtain ⟨rfl, -⟩ := Tree.at?_leaf hat
        exact hne (by rw [← hrest, List.append_nil])
      | node op' l r =>
        exact h.resolved k0 hk0 w hresult0 q op' l r (Task.path_of_computes hcomputes) hq

/-- A task that gets its result is folded in. -/
theorem Tracked.refill_resolved (h : Tracked t tasks) (hmoves : Replaces k k' tasks tasks')
    (hlater : k.Later k') (hdone : k'.status = .done) {v : Float} (hv : k'.result = some v)
    (hresult : k.result = none) :
    ∃ x ∈ (t.refill tasks).frontier, k.covers x = true ∧
      t.refill tasks' = (t.refill tasks).put x.path (.leaf v) := by
  obtain ⟨x, hx, hcovers⟩ := h.waiting k hmoves.mem hresult
  exact ⟨x, hx, hcovers, Tree.refill_put hx (h.oneMore hmoves hlater hdone hv hx hcovers)⟩

/-- A task has changed hands, and there is no new result. -/
theorem Tracked.moved_of_none (h : Tracked t tasks) (hmoves : Replaces k k' tasks tasks')
    (hlater : k.Later k') (hresult : k.result = none) (hvalid : k'.Valid)
    (hnone : k'.result = none) :
    Tracked t tasks' := by
  have hsame : t.refill tasks' = t.refill tasks :=
    refill_replaces_of_none h.nodup hmoves hlater.path hresult hnone t
  refine ⟨hmoves.map_eq hlater.path.symm ▸ h.nodup, hmoves.forall_mem h.valid hvalid,
    hmoves.forall_mem h.place ?_, fun k0 hk0 hnone0 => ?_, fun k0 hk0 w hw p op l r hpath hat => ?_⟩
  · rw [hlater.path, hlater.operator]
    exact h.place k hmoves.mem
  · rw [hsame]
    rcases hmoves.mem_old hk0 with hold | rfl
    · exact h.waiting k0 hold hnone0
    · obtain ⟨x, hx, hcovers⟩ := h.waiting k hmoves.mem hresult
      exact ⟨x, hx, hlater.covers_eq x ▸ hcovers⟩
  · rw [hsame] at hat
    rcases hmoves.mem_old hk0 with hold | rfl
    · exact h.resolved k0 hold w hw p op l r hpath hat
    · rw [hnone] at hw
      cases hw

/-- A task has its result now. -/
theorem Tracked.moved_of_some (h : Tracked t tasks) (hmoves : Replaces k k' tasks tasks')
    (hlater : k.Later k') (hresult : k.result = none) (hvalid : k'.Valid) {v : Float}
    (hv : k'.result = some v) : Tracked t tasks' := by
  have hnodup' : (tasks'.map Task.path).Nodup := hmoves.map_eq hlater.path.symm ▸ h.nodup
  obtain ⟨x, hx, hcovers, hput⟩ := h.refill_resolved hmoves hlater (hvalid.finished v hv) hv hresult
  refine ⟨hnodup', hmoves.forall_mem h.valid hvalid, hmoves.forall_mem h.place ?_,
    fun k0 hk0 hnone => ?_, fun k0 hk0 w hw p op l r hpath hat => ?_⟩
  · rw [hlater.path, hlater.operator]
    exact h.place k hmoves.mem
  · rcases hmoves.mem_old hk0 with hold | rfl
    · obtain ⟨y, hy, hcovers'⟩ := h.waiting k0 hold hnone
      refine ⟨y, ?_, hcovers'⟩
      rw [hput]
      refine Tree.mem_frontier_put hx hy fun heq => ?_
      -- two tasks for one operation would share its path
      have hpath : k0.path = k'.path := by
        rw [Task.path_of_covers hcovers', heq, hlater.path, Task.path_of_covers hcovers]
      have hsame := List.inj_on_of_nodup_map hnodup' hk0 hmoves.mem_new hpath
      rw [hsame, hv] at hnone
      cases hnone
    · rw [hv] at hnone
      cases hnone
  · rw [hput] at hat
    rcases hmoves.mem_old hk0 with hold | rfl
    · obtain ⟨l', r', hat'⟩ := Tree.at?_put_leaf hat
      exact h.resolved k0 hold w hw p op l' r' hpath hat'
    · rw [hlater.path, Task.path_of_covers hcovers] at hpath
      cases Path.text_injective hpath
      rw [Tree.at?_put_self (Tree.mem_frontier.1 hx)] at hat
      cases hat

/-- Whatever a worker makes of a task, the tasks fit the tree. -/
theorem Tracked.moved (h : Tracked t tasks) (hmoves : Replaces k k' tasks tasks')
    (hlater : k.Later k') (hunfinished : k.status ≠ .done) (hvalid : k'.Valid) :
    Tracked t tasks' := by
  have hresult := (h.valid k hmoves.mem).result_eq_none hunfinished
  cases hv : k'.result with
  | none => exact h.moved_of_none hmoves hlater hresult hvalid hv
  | some v => exact h.moved_of_some hmoves hlater hresult hvalid hv

/-! ## Tasks of ready operations -/

/-- Adding tasks changes no tree. -/
theorem refill_append_unfinished {new : List Task} (hnew : ∀ k ∈ new, k.status ≠ .done) :
    t.refill (tasks ++ new) = t.refill tasks := by
  induction new generalizing tasks with
  | nil => rw [List.append_nil]
  | cons k rest ih =>
    rw [List.forall_mem_cons] at hnew
    rw [List.append_cons, ih hnew.2]
    exact t.refill_congr (resultOf?_append_unfinished hnew.1)

/-- The task of an operation that is still ready is not finished. -/
theorem Tracked.unfinished_of_covers (h : Tracked t tasks) (hk : k ∈ tasks) (hanswered : k.Answered)
    (hx : x ∈ (t.refill tasks).frontier) (hcovers : k.covers x = true) : k.status ≠ .done := by
  intro hdone
  obtain ⟨v, hv⟩ := hanswered hdone
  have hnone := Tree.resultOf?_eq_none_of_mem_frontier hx
  rw [resultOf?_of_mem h.nodup hk hdone hcovers hv] at hnone
  cases hnone

/-- An operation of the source that has an unfinished task is still ready. -/
theorem Tracked.mem_frontier_of_issued (h : Tracked t tasks) (hk : k ∈ tasks) (hx : x ∈ t.frontier)
    (hissued : k.IssuedFor x) : x ∈ (t.refill tasks).frontier := by
  have hnil : Tree.KnowsMore [] tasks := fun hv => by cases hv
  refine Tree.mem_frontier_of_le hnil (by rwa [Tree.refill_nil]) ?_
  rw [← hissued.path]
  exact resultOf?_eq_none_of_unfinished h.nodup hk hissued.unfinished _ _ _

/-! ## Finished trees -/

/-- When the tree has come down to a number, every task is finished. -/
theorem Tracked.result_of_leaf (h : Tracked t tasks) {v : Float} (hleaf : t.refill tasks = .leaf v)
    (hk : k ∈ tasks) : ∃ w, k.result = some w := by
  cases hresult : k.result with
  | some w => exact ⟨w, rfl⟩
  | none =>
    obtain ⟨x, hx, -⟩ := h.waiting k hk hresult
    rw [hleaf] at hx
    cases hx

theorem Tracked.done_of_leaf (h : Tracked t tasks) {v : Float} (hleaf : t.refill tasks = .leaf v)
    (hk : k ∈ tasks) : k.status = .done := by
  obtain ⟨w, hw⟩ := h.result_of_leaf hleaf hk
  exact (h.valid k hk).finished w hw

/-- Where a task is, there is an operation. -/
theorem Tracked.isLeaf_eq_false (h : Tracked t tasks) (hk : k ∈ tasks) : t.isLeaf = false := by
  obtain ⟨p, l, r, -, hat⟩ := h.place k hk
  cases t with
  | leaf v => exact absurd (Tree.at?_leaf hat).2 (by simp)
  | node op l r => rfl

/-- What results have brought a finite tree to has only numbers in it. -/
theorem Tracked.every_number (h : Tracked t tasks) (ht : t.Finite) :
    (t.refill tasks).Every fun v => v.isNaN = false := by
  have ht' : t.Every fun v => v.isNaN = false := ht.imp fun _ => Number.isNaN_of_isFinite
  exact Tree.Every.refillAt (fun k hk v hv => (h.valid k hk).number v hv) ht' []

/-- The operands of a ready operation are numbers. -/
theorem Tracked.isNaN_of_mem_frontier (h : Tracked t tasks) (ht : t.Finite)
    (hx : x ∈ (t.refill tasks).frontier) : x.lhs.isNaN = false ∧ x.rhs.isNaN = false :=
  (h.every_number ht).at? (Tree.mem_frontier.1 hx)

/-- An operation has one task at most. -/
theorem Tracked.filter_covers (h : Tracked t tasks) (hk : k ∈ tasks) (hcovers : k.covers x = true) :
    tasks.filter (·.covers x) = [k] := by
  have hnodup : (tasks.filter (·.covers x)).Nodup := h.nodup.of_map.filter _
  refine List.perm_singleton.1 ((List.perm_ext_iff_of_nodup hnodup (List.nodup_singleton k)).2 ?_)
  intro k'
  rw [List.mem_filter, List.mem_singleton]
  constructor
  · rintro ⟨hk', hcovers'⟩
    refine List.inj_on_of_nodup_map h.nodup hk' hk ?_
    rw [Task.path_of_covers hcovers', Task.path_of_covers hcovers]
  · rintro rfl
    exact ⟨hk, hcovers⟩

end Tracked

/-! ## Older lists -/

/-- Every task of the first list has become the one at the same position of the second
list. -/
abbrev AllLater (tasks tasks' : List Task) : Prop := List.Forall₂ Task.Later tasks tasks'

section Later

variable {t : Tree} {tasks tasks' : List Task} {x : Ready}

theorem AllLater.refl (tasks : List Task) : AllLater tasks tasks :=
  List.forall₂_same.2 fun k _ => .refl k

theorem AllLater.trans {tasks'' : List Task} (h : AllLater tasks tasks')
    (h' : AllLater tasks' tasks'') : AllLater tasks tasks'' := by
  induction h generalizing tasks'' with
  | nil => exact h'
  | cons hk _ ih =>
    cases h' with
    | cons hk' hrest => exact .cons (hk.trans hk') (ih hrest)

theorem AllLater.of_replaces {k k' : Task} (h : Replaces k k' tasks tasks') (hk : k.Later k') :
    AllLater tasks tasks' := by
  obtain ⟨front, back, rfl, rfl⟩ := h
  exact List.rel_append (AllLater.refl front) (.cons hk (AllLater.refl back))

theorem AllLater.exists_new (h : AllLater tasks tasks') {k : Task} (hk : k ∈ tasks) :
    ∃ k' ∈ tasks', k.Later k' := by
  induction h with
  | nil => cases hk
  | cons hlater _ ih =>
    rcases List.mem_cons.1 hk with rfl | hk
    · exact ⟨_, List.mem_cons_self, hlater⟩
    · obtain ⟨k', hk', h'⟩ := ih hk
      exact ⟨k', List.mem_cons_of_mem _ hk', h'⟩

theorem AllLater.exists_old (h : AllLater tasks tasks') {k' : Task} (hk' : k' ∈ tasks') :
    ∃ k ∈ tasks, k.Later k' := by
  induction h with
  | nil => cases hk'
  | cons hlater _ ih =>
    rcases List.mem_cons.1 hk' with rfl | hk'
    · exact ⟨_, List.mem_cons_self, hlater⟩
    · obtain ⟨k, hk, h'⟩ := ih hk'
      exact ⟨k, List.mem_cons_of_mem _ hk, h'⟩

theorem AllLater.mem_of_done (h : AllLater tasks tasks') {k : Task} (hk : k ∈ tasks)
    (hdone : k.status = .done) : k ∈ tasks' := by
  obtain ⟨k', hk', hlater⟩ := h.exists_new hk
  cases hlater.done hdone
  exact hk'

/-- Results stay. -/
theorem AllLater.knowsMore (h : AllLater tasks tasks') (hnodup : (tasks'.map Task.path).Nodup) :
    Tree.KnowsMore tasks tasks' :=
  Tree.knowsMore_of_done hnodup fun _ hk hdone => h.mem_of_done hk hdone

/-- Finished tasks do not change any more. -/
theorem AllLater.eq_of_done (h : AllLater tasks tasks') (hdone : ∀ k ∈ tasks, k.status = .done) :
    tasks' = tasks := by
  induction h with
  | nil => rfl
  | cons hlater _ ih =>
    rw [hlater.done (hdone _ List.mem_cons_self),
      ih fun k hk => hdone k (List.mem_cons_of_mem _ hk)]

/-- An open operation stays open until there is a task for it. -/
theorem Open.later (hx : Open t tasks x) (h : AllLater tasks tasks') (htracked : Tracked t tasks') :
    Open t tasks' x := by
  have huncovered : ∀ k' ∈ tasks', k'.covers x = false := by
    intro k' hk'
    obtain ⟨k, hk, hlater⟩ := h.exists_old hk'
    rw [hlater.covers_eq]
    exact hx.uncovered k hk
  exact ⟨Tree.mem_frontier_of_le (h.knowsMore htracked.nodup) hx.ready
    (resultOf?_eq_none_of_covers huncovered), huncovered⟩

/-- An operation of the tree itself is open as long as there is no task for it. -/
theorem open_of_mem_frontier (hx : x ∈ t.frontier) (h : ∀ k ∈ tasks, k.covers x = false) :
    Open t tasks x := by
  refine ⟨?_, h⟩
  have hnil : Tree.KnowsMore [] tasks := fun hv => by cases hv
  refine Tree.mem_frontier_of_le hnil ?_ (resultOf?_eq_none_of_covers h)
  rw [Tree.refill_nil]
  exact hx

/-- A tree that has come down to a number stays that number, and its tasks stay as they
are. -/
theorem Tracked.eq_of_later (h : Tracked t tasks) {v : Float} (hleaf : t.refill tasks = .leaf v)
    (hlater : AllLater tasks tasks') : tasks' = tasks :=
  hlater.eq_of_done fun _ hk => h.done_of_leaf hleaf hk

end Later

end Piecework
