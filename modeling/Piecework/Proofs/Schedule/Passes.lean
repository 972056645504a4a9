import Piecework.Proofs.Schedule.Standing
import Piecework.Proofs.Store.Meets

/-!
# What the passes do

Each pass keeps to the rules, whatever others do between its calls and wherever its calls
fail: it adds the tasks of open operations only, and it marks an expression only as it
may be marked.  A pass whose calls do not fail reaches its end, and then the expression
has `Advanced`: every operation that was ready has a task, and the row shows what the
tree had come down to when the tasks were listed.

The rules are a parameter.  `Rules.Suits` says what the passes need of them, so one proof
for each pass serves for passes among others and for passes that are made at once.
-/

namespace Piecework

open Schedule
open Store (Issued)

/-- What the passes need of the rules. -/
structure Rules.Suits (ρ : Rules) (σ : Scope) (first : Int → Prop) : Prop where
  others : ∀ {s s'}, ρ.others s s' → Sound σ s → Meanwhile s s' ∧ Sound σ s'
  may : ∀ {s c}, Allowed σ first s c → ρ.may s c
  fails : ρ.fails → σ.faults

/-- A pass is being made over the expression of a row. -/
structure At (σ : Scope) (r : ExpressionRow) (s : Store) : Prop where
  sound : Sound σ s
  mem : r ∈ s.expressions
  own : σ.own r.id

/-- Others have done something, or a task was added for one of the operations of the
expression. -/
inductive Along (ρ : Rules) (e : Int) (xs : List Ready) : Store → Store → Prop
  | here (s : Store) : Along ρ e xs s s
  | others {s s' s'' : Store} : ρ.others s s' → Meanwhile s s' → Along ρ e xs s' s'' →
      Along ρ e xs s s''
  | issued {s s' s'' : Store} {k : Task} {x : Ready} : x ∈ xs → k.IssuedFor x → Issued k s s' →
      k.expressionId = e → Along ρ e xs s' s'' → Along ρ e xs s s''

/-- What the row of an expression shows when its tree has come down to a number, or not yet. -/
def ExpressionRow.concluded (tree : Tree) (steps : Float → List String) (stamp : String)
    (r : ExpressionRow) : ExpressionRow :=
  match tree.value? with
  | some v => Store.mark .done (some v) (some (steps v)) stamp r
  | none => Store.mark .inProgress none none stamp r

section Concluded

variable {r : ExpressionRow} {tree : Tree} {steps : Float → List String}

/-- Marking an expression keeps its identifier and its text. -/
theorem ExpressionRow.concluded_id (stamp : String) : (r.concluded tree steps stamp).id = r.id := by
  unfold ExpressionRow.concluded
  split <;> rfl

theorem ExpressionRow.concluded_source (stamp : String) :
    (r.concluded tree steps stamp).source = r.source := by
  unfold ExpressionRow.concluded
  split <;> rfl

end Concluded

/-- The row says what a tree has come down to. -/
def Store.conclude (now : Time.Instant) (e : Int) (tree : Tree) (steps : Float → List String)
    (s : Store) : Store :=
  match tree.value? with
  | some v => s.setStatus now e .done (some v) (some (steps v))
  | none => s.setStatus now e .inProgress none none

/-- The expression was marked by what its tree has come down to; others may have gone on
since. -/
structure Concluded (ρ : Rules) (σ : Scope) (r : ExpressionRow) (tree : Tree)
    (steps : Float → List String) (s s' : Store) : Prop where
  before : At σ r s
  after : ∃ now, ρ.others (s.conclude now r.id tree steps) s' ∧
    Meanwhile (s.conclude now r.id tree steps) s' ∧ Sound σ s'

/-- Every ready operation of the tree got a task, then the expression was marked. -/
structure Advanced (ρ : Rules) (σ : Scope) (r : ExpressionRow) (tree : Tree)
    (steps : Float → List String) (s s' : Store) : Prop where
  marked : ∃ s1, Along ρ r.id tree.frontier s s1 ∧
    (∀ x ∈ tree.frontier, ∃ k ∈ s1.tasksOf r.id, k.covers x = true) ∧
    Concluded ρ σ r tree steps s1 s'

section Along

variable {ρ : Rules} {σ : Scope} {first : Int → Prop} {e : Int} {xs ys : List Ready}
  {s s' s'' : Store} {r : ExpressionRow}

theorem Along.trans (h : Along ρ e xs s s') (h' : Along ρ e xs s' s'') : Along ρ e xs s s'' := by
  induction h with
  | here => exact h'
  | others ho hm _ ih => exact .others ho hm (ih h')
  | issued hx hk hissued hid _ ih => exact .issued hx hk hissued hid (ih h')

theorem Along.mono (h : Along ρ e xs s s') (hsub : xs ⊆ ys) : Along ρ e ys s s' := by
  induction h with
  | here => exact .here _
  | others ho hm _ ih => exact .others ho hm ih
  | issued hx hk hissued hid _ ih => exact .issued (hsub hx) hk hissued hid ih

/-- An operation that has a task keeps it. -/
theorem Along.covered (h : Along ρ e xs s s') {x : Ready}
    (hx : ∃ k ∈ s.tasksOf e, k.covers x = true) : ∃ k ∈ s'.tasksOf e, k.covers x = true := by
  induction h with
  | here => exact hx
  | others _ hm _ ih =>
    obtain ⟨k, hk, hcovers⟩ := hx
    obtain ⟨k', hk', hlater⟩ := (hm.tasks e).exists_new hk
    exact ih ⟨k', hk', by rw [hlater.covers_eq]; exact hcovers⟩
  | issued _ _ hissued hid _ ih =>
    obtain ⟨k, hk, hcovers⟩ := hx
    refine ih ⟨k, ?_, hcovers⟩
    rw [← hid, hissued.tasksOf]
    exact List.mem_append_left _ (hid ▸ hk)

theorem At.others (hat : At σ r s) (hρ : ρ.Suits σ first) (ho : ρ.others s s') :
    At σ r s' ∧ Meanwhile s s' := by
  obtain ⟨hm, hs⟩ := hρ.others ho hat.sound
  exact ⟨⟨hs, hm.mem hat.mem, hat.own⟩, hm⟩

theorem At.scheduled (hat : At σ r s) : Scheduled σ.faults (s.tasksOf r.id) r :=
  hat.sound.scheduled r hat.mem hat.own

theorem At.tracked (hat : At σ r s) {t : Tree} (ht : r.Parses t) : Tracked t (s.tasksOf r.id) :=
  hat.scheduled.tracked t ht

end Along

section Passes

variable {ρ : Rules} {σ : Scope} {first : Int → Prop} {s : Store} {r : ExpressionRow} {t : Tree}

/-! ## Adding tasks -/

/-- The end of adding tasks: each of the operations has one, unless a call has failed. -/
def Provided (ρ : Rules) (σ : Scope) (r : ExpressionRow) (xs : List Ready) (s : Store)
    (result : Except StoreError Nat) (s' : Store) : Prop :=
  At σ r s' ∧ Along ρ r.id xs s s' ∧
    ((∃ n, result = .ok n ∧ ∀ x ∈ xs, ∃ k ∈ s'.tasksOf r.id, k.covers x = true) ∨
      ρ.fails ∧ ∃ e, result = .error e)

section Provided

variable {xs : List Ready} {s' s'' : Store} {result : Except StoreError Nat}

/-- Others may have gone first. -/
theorem Provided.before (h : Provided ρ σ r xs s' result s'') (ho : ρ.others s s')
    (hm : Meanwhile s s') : Provided ρ σ r xs s result s'' :=
  ⟨h.1, .others ho hm h.2.1, h.2.2⟩

/-- Others may go on. -/
theorem Provided.later (h : Provided ρ σ r xs s result s') (hρ : ρ.Suits σ first)
    (ho : ρ.others s' s'') : Provided ρ σ r xs s result s'' := by
  obtain ⟨hat, hal, hcase⟩ := h
  obtain ⟨hat', hm⟩ := hat.others hρ ho
  have hlater : Along ρ r.id xs s' s'' := .others ho hm (.here s'')
  refine ⟨hat', hal.trans hlater, hcase.imp ?_ id⟩
  rintro ⟨n, hn, hcovered⟩
  exact ⟨n, hn, fun x hx => hlater.covered (hcovered x hx)⟩

/-- One more task was added at first. -/
theorem Provided.issued {x : Ready} {k : Task} (h : Provided ρ σ r xs s' result s'')
    (hk : k.IssuedFor x) (hissued : Issued k s s') (hid : k.expressionId = r.id) :
    Provided ρ σ r (x :: xs) s (result.map (· + 1)) s'' := by
  obtain ⟨hat, hal, hcase⟩ := h
  have hal' := hal.mono (List.subset_cons_self x xs)
  refine ⟨hat, .issued List.mem_cons_self hk hissued hid hal', ?_⟩
  rcases hcase with ⟨n, rfl, hcovered⟩ | ⟨hfails, e, rfl⟩
  · refine .inl ⟨n + 1, rfl, fun y hy => ?_⟩
    rcases List.mem_cons.1 hy with rfl | hy
    · have hmem : k ∈ s'.tasksOf r.id := by
        rw [← hid, hissued.tasksOf]
        exact List.mem_append_right _ List.mem_cons_self
      exact hal.covered ⟨k, hmem, hk.covers⟩
    · exact hcovered y hy
  · exact .inr ⟨hfails, e, rfl⟩

/-- A call that has failed ends it. -/
theorem At.provided_of_fails (hat : At σ r s) (hfails : ρ.fails) (e : StoreError) :
    Provided ρ σ r xs s (.error e) s :=
  ⟨hat, .here s, .inr ⟨hfails, e, rfl⟩⟩

end Provided

/-- The task of an open operation may be created. -/
theorem At.allowed_createTask (hat : At σ r s) (ht : r.Parses t) {x : Ready}
    (hopen : Open t (s.tasksOf r.id) x) :
    Allowed σ first s (.createTask r.id x.op x.lhs x.rhs x.path.text) :=
  ⟨r, hat.mem, rfl, hat.own, t, x, ht, hopen, rfl, rfl, rfl, rfl⟩

/-- The store takes the task of every open operation, since its operands are numbers. -/
theorem At.answer_createTask (hat : At σ r s) (ht : r.Parses t) {x : Ready}
    (hopen : Open t (s.tasksOf r.id) x) (now : Time.Instant) (e : StoreError) :
    s.answer now (.createTask r.id x.op x.lhs x.rhs x.path.text) ≠ .error e := by
  intro heq
  obtain ⟨hlhs, hrhs⟩ :=
    (hat.tracked ht).isNaN_of_mem_frontier (Expr.finite_of_parse ht) hopen.ready
  obtain ⟨id, s', hok⟩ := Store.exists_createTask hat.mem now x.op hlhs hrhs x.path.text
  cases heq.symm.trans hok

theorem createTasks_meets (hρ : ρ.Suits σ first) (ht : r.Parses t) {xs : List Ready}
    (hat : At σ r s) (hnodup : (xs.map Ready.path).Nodup)
    (hopen : ∀ x ∈ xs, Open t (s.tasksOf r.id) x) :
    (createTasks r.id xs).Meets ρ (Provided ρ σ r xs s) s := by
  induction xs generalizing s with
  | nil =>
    intro s' ho
    obtain ⟨hat', hm⟩ := hat.others hρ ho
    exact ⟨hat', .others ho hm (.here s'), .inl ⟨0, rfl, by simp⟩⟩
  | cons x rest ih =>
    rw [List.map_cons, List.nodup_cons] at hnodup
    -- whatever others do, the operations stay open
    have hstill : ∀ {s'}, ρ.others s s' → ∀ y ∈ x :: rest, Open t (s'.tasksOf r.id) y := by
      intro s' ho y hy
      obtain ⟨hat', hm⟩ := hat.others hρ ho
      exact (hopen y hy).later (hm.tasks r.id) (hat'.tracked ht)
    have hallowed : ∀ {s'}, ρ.others s s' →
        Allowed σ first s' (.createTask r.id x.op x.lhs x.rhs x.path.text) := fun ho =>
      (hat.others hρ ho).1.allowed_createTask ht (hstill ho x List.mem_cons_self)
    refine Program.meets_call (fun s' ho => hρ.may (hallowed ho)) ?_ ?_
    · intro s' now id s'' ho heq
      obtain ⟨hat', hm⟩ := hat.others hρ ho
      have hsound := hat'.sound.allowed (hallowed ho) heq
      obtain ⟨k, hissued, hid, hop, hpath, hlhs, hrhs⟩ := Store.createTask_ok heq
      rw [columnText_path] at hpath
      have hk : k.IssuedFor x := ⟨hpath, hop, hlhs, hrhs, hissued.status, hissued.result⟩
      have hat'' : At σ r s'' := ⟨hsound, by rw [hissued.expressions]; exact hat'.mem, hat'.own⟩
      have hrest : ∀ y ∈ rest, Open t (s''.tasksOf r.id) y := by
        intro y hy
        rw [← hid, hissued.tasksOf, hid]
        refine (hstill ho y (List.mem_cons_of_mem _ hy)).issue hk fun heq => hnodup.1 ?_
        rw [← heq]
        exact List.mem_map_of_mem hy
      refine (ih hat'' hnodup.2 hrest).bind ?_ ?_
      · intro n s3 hprovided s4 ho4
        exact ((hprovided.later hρ ho4).issued hk hissued hid).before ho hm
      · intro e s3 hprovided s4 ho4
        exact ((hprovided.later hρ ho4).issued hk hissued hid).before ho hm
    · intro s' e ho herr s4 ho4
      obtain ⟨hat', hm⟩ := hat.others hρ ho
      rcases herr with hfails | ⟨now, heq⟩
      · exact ((hat'.provided_of_fails hfails e).later hρ ho4).before ho hm
      · exact absurd heq (hat'.answer_createTask ht (hstill ho x List.mem_cons_self) now e)

/-- A tree whose ready operations are open until they have a task. -/
def Ahead (ρ : Rules) (r : ExpressionRow) (t tree : Tree) (s : Store) : Prop :=
  ∀ s', ρ.others s s' → ∀ x ∈ tree.frontier, (∀ k ∈ s'.tasksOf r.id, k.covers x = false) →
    Open t (s'.tasksOf r.id) x

/-- An operation is among the uncovered ones if no task is for it. -/
theorem mem_uncovered {tasks : List Task} {ready : List Ready} {x : Ready} :
    x ∈ uncovered tasks ready ↔ x ∈ ready ∧ ∀ k ∈ tasks, k.covers x = false := by
  simp only [uncovered, List.mem_filter, Bool.not_eq_true', List.any_eq_false, Bool.not_eq_true]

theorem issueTasks_meets (hρ : ρ.Suits σ first) (ht : r.Parses t) {tree : Tree} (hat : At σ r s)
    (hahead : Ahead ρ r t tree s) :
    (issueTasks r.id tree).Meets ρ (Provided ρ σ r tree.frontier s) s := by
  unfold issueTasks
  split_ifs with hempty
  · rw [List.isEmpty_iff] at hempty
    rw [hempty]
    exact createTasks_meets hρ ht hat List.nodup_nil (by simp)
  · refine Program.meets_call (fun s' ho => hρ.may trivial) ?_ ?_
    · intro s' now listed s'' ho heq
      obtain ⟨hat', hm⟩ := hat.others hρ ho
      cases heq
      have hopen : ∀ x ∈ uncovered (s'.tasksOf r.id) tree.frontier, Open t (s'.tasksOf r.id) x := by
        intro x hx
        obtain ⟨hx, hnone⟩ := mem_uncovered.1 hx
        exact hahead s' ho x hx hnone
      have hnodup : ((uncovered (s'.tasksOf r.id) tree.frontier).map Ready.path).Nodup :=
        tree.nodup_frontier.sublist (List.filter_sublist.map _)
      refine (createTasks_meets hρ ht hat' hnodup hopen).mono ?_
      rintro result s3 ⟨hat3, hal, hcase⟩
      have hal' : Along ρ r.id tree.frontier s' s3 := hal.mono fun x hx => (mem_uncovered.1 hx).1
      refine Provided.before ⟨hat3, hal', hcase.imp ?_ id⟩ ho hm
      rintro ⟨n, hn, hcovered⟩
      refine ⟨n, hn, fun x hx => ?_⟩
      by_cases hnone : ∀ k ∈ s'.tasksOf r.id, k.covers x = false
      · exact hcovered x (mem_uncovered.2 ⟨hx, hnone⟩)
      · push Not at hnone
        obtain ⟨k, hk, hcovers⟩ := hnone
        exact hal.covered ⟨k, hk, by simpa using hcovers⟩
    · intro s' e ho herr s4 ho4
      obtain ⟨hat', hm⟩ := hat.others hρ ho
      rcases herr with hfails | ⟨now, heq⟩
      · exact ((hat'.provided_of_fails hfails e).later hρ ho4).before ho hm
      · cases heq

/-! ## Marking the expression -/

/-- How the end of a pass may mark the expression. -/
structure Concludes (faults first : Prop) (r : ExpressionRow) (t tree : Tree)
    (steps : Float → List String) (tasks : List Task) : Prop where
  done : ∀ v, tree = .leaf v → t.refill tasks = .leaf v ∧ steps v = report t tasks v
  inProgress : tree.isLeaf = false →
    t.isLeaf = false ∧ (first ∨ r.status ≠ ExpressionStatus.done.name)

/-- The row says what the tree has come down to, unless the call has failed. -/
def Written (ρ : Rules) (σ : Scope) (r : ExpressionRow) (tree : Tree) (steps : Float → List String)
    (s : Store) (result : Except Error ExpressionStatus) (s' : Store) : Prop :=
  (∃ st s1, result = .ok st ∧ ρ.others s s1 ∧ Concluded ρ σ r tree steps s1 s') ∨
    ρ.fails ∧ ∃ e, result = .error e

/-- The call that marks the expression, and the answer of the pass. -/
theorem mark_meets (hρ : ρ.Suits σ first) {tree : Tree} {steps : Float → List String}
    {st : ExpressionStatus} {value : Option Float} {lines : Option (List String)} (hat : At σ r s)
    (hverdict : ∀ s', ρ.others s s' →
      Verdicts σ.faults (first r.id) (s'.tasksOf r.id) r st value lines)
    (hconclude : ∀ (s' : Store) now,
      s'.setStatus now r.id st value lines = s'.conclude now r.id tree steps) :
    ((liftM (Program.call (.setStatus r.id st value lines)) : Program Error Unit) >>=
      fun _ => pure st).Meets ρ (Written ρ σ r tree steps s) s := by
  have hallowed : ∀ {s'}, ρ.others s s' → Allowed σ first s' (.setStatus r.id st value lines) := by
    intro s' ho
    obtain ⟨hat', -⟩ := hat.others hρ ho
    exact ⟨r, hat'.mem, rfl, hat'.own, hverdict s' ho⟩
  refine Program.meets_lift (fun s' ho => hρ.may (hallowed ho)) ?_ ?_
  · intro s' now reply s'' ho heq s3 ho3
    obtain ⟨hat', -⟩ := hat.others hρ ho
    obtain ⟨hm, hs⟩ := hρ.others ho3 (hat'.sound.allowed (hallowed ho) heq)
    have hmarked : s'' = s'.conclude now r.id tree steps := by
      cases heq
      exact hconclude s' now
    rw [hmarked] at ho3 hm
    exact .inl ⟨st, s', rfl, ho, hat', now, ho3, hm, hs⟩
  · rintro s' e ho (hfails | ⟨now, heq⟩) s3 ho3
    · exact .inr ⟨hfails, _, rfl⟩
    · cases heq

theorem conclude_meets (hρ : ρ.Suits σ first) (ht : r.Parses t) {tree : Tree}
    {steps : Float → List String} (hat : At σ r s)
    (hconcludes : ∀ s', ρ.others s s' →
      Concludes σ.faults (first r.id) r t tree steps (s'.tasksOf r.id)) :
    (conclude r.id tree steps).Meets ρ (Written ρ σ r tree steps s) s := by
  cases tree with
  | leaf v =>
    refine mark_meets hρ hat (fun s' ho => ?_) fun s' now => rfl
    obtain ⟨hleaf, hsteps⟩ := (hconcludes s' ho).done v rfl
    rw [hsteps]
    exact .done ht hleaf
  | node op a b =>
    refine mark_meets hρ hat (fun s' ho => ?_) fun s' now => rfl
    obtain ⟨hleaf, hfirst⟩ := (hconcludes s' ho).inProgress rfl
    exact .inProgress ht hleaf hfirst

/-- The end of a pass: the expression has advanced, unless a call has failed. -/
def Passed (ρ : Rules) (σ : Scope) (r : ExpressionRow) (tree : Tree) (steps : Float → List String)
    (s : Store) (result : Except Error ExpressionStatus) (s' : Store) : Prop :=
  (∃ st, result = .ok st ∧ Advanced ρ σ r tree steps s s') ∨
    ρ.fails ∧ ∃ err, result = .error err

theorem passed_of_conclude {tree : Tree} {steps : Float → List String} {s s1 s' : Store}
    {result : Except Error ExpressionStatus} (hρ : ρ.Suits σ first) (hat : At σ r s1)
    (hal : Along ρ r.id tree.frontier s s1)
    (hcovered : ∀ x ∈ tree.frontier, ∃ k ∈ s1.tasksOf r.id, k.covers x = true)
    (h : Written ρ σ r tree steps s1 result s') : Passed ρ σ r tree steps s result s' := by
  refine h.imp ?_ id
  rintro ⟨st, s2, hresult, ho, hconcluded⟩
  obtain ⟨-, hm⟩ := hat.others hρ ho
  have hal2 : Along ρ r.id tree.frontier s1 s2 := .others ho hm (.here s2)
  exact ⟨st, hresult, s2, hal.trans hal2, fun x hx => hal2.covered (hcovered x hx), hconcluded⟩

/-- What the row shows after it was marked. -/
theorem Concluded.row {tree : Tree} {steps : Float → List String} {s' : Store}
    (h : Concluded ρ σ r tree steps s s') :
    ∃ stamp, r.concluded tree steps stamp ∈ s'.expressions := by
  obtain ⟨now, -, hm, -⟩ := h.after
  refine ⟨now.stamp, hm.mem ?_⟩
  unfold Store.conclude ExpressionRow.concluded
  cases tree.value? with
  | some v => exact (Store.setStatus_marked h.before.sound.wellFormed h.before.mem ..).rows.mem_new
  | none => exact (Store.setStatus_marked h.before.sound.wellFormed h.before.mem ..).rows.mem_new

/-! ## The first pass -/

/-- Writing down why an expression has no value leads to whatever comes next. -/
theorem giveUp_meets {β : Type} {post : Except Error β → Store → Prop} (hρ : ρ.Suits σ first)
    (hat : At σ r s) {reason : String} {f : Unit → Program Error β}
    (hverdict : ∀ s', ρ.others s s' →
      Verdicts σ.faults (first r.id) (s'.tasksOf r.id) r .error none (some [reason]))
    (hf : ∀ s' reply s'', ρ.others s s' →
      Served ρ.fails s' (.setStatus r.id .error none (some [reason])) reply s'' →
      (f ()).Meets ρ post s'') :
    (giveUp r.id reason >>= f).Meets ρ post s := by
  intro s' ho
  obtain ⟨hat', -⟩ := hat.others hρ ho
  exact ⟨hρ.may ⟨r, hat'.mem, rfl, hat'.own, hverdict s' ho⟩,
    fun reply s'' hserved => hf s' reply s'' ho hserved⟩

/-- The steps of a number alone. -/
def literalSteps (v : Float) : List String := ["result: " ++ Decimal.text v]

/-- A first pass once its text is parsed. -/
def firstPassOver (expressionId : Int) (tree : Tree) : Program Error ExpressionStatus := do
  match ← (issueTasks expressionId tree).attempt with
  | .error e =>
    giveUp expressionId ("scheduling failed: " ++ e.message)
    Program.fail (.store e)
  | .ok _ => conclude expressionId tree literalSteps

theorem firstPass_eq {text : String} (h : Expr.parse text = .ok t) (expressionId : Int) :
    firstPass expressionId text = firstPassOver expressionId t := by
  unfold firstPass
  rw [h]
  rfl

theorem firstPass_meets (hρ : ρ.Suits σ first) (hfirst : first r.id) (hat : At σ r s)
    {text : String}
    (htext : text = columnText r.source ∨ σ.faults ∧ text = r.source) :
    (firstPass r.id text).Meets ρ
      (fun result s' => ∀ t, Expr.parse text = .ok t →
        Passed ρ σ r t literalSteps s result s') s := by
  cases hparse : Expr.parse text with
  | error e =>
    unfold firstPass
    rw [hparse]
    refine giveUp_meets hρ hat (fun s' _ => ?_) fun _ _ _ _ _ _ _ t ht => ?_
    · rcases htext with rfl | ⟨hfaults, -⟩
      · exact .rejected hparse
      · exact .gaveUp _ hfaults hfirst
    · cases ht
  | ok t =>
    have ht : r.Parses t := by
      rcases htext with rfl | ⟨-, rfl⟩
      · exact hparse
      · rw [ExpressionRow.Parses, Expr.columnText_of_parse hparse]
        exact hparse
    have hahead : Ahead ρ r t t s := fun s' _ x hx hnone => open_of_mem_frontier hx hnone
    rw [firstPass_eq hparse]
    refine ((issueTasks_meets hρ ht hat hahead).attempt ?_).mono
      fun result s' (h : Passed ρ σ r t literalSteps s result s') t' ht' => ?_
    · rintro (e | n) s1 ⟨hat1, hal, hcase⟩
      · have hfails : ρ.fails := by
          rcases hcase with ⟨n, hn, -⟩ | ⟨hfails, -⟩
          · cases hn
          · exact hfails
        exact giveUp_meets hρ hat1 (fun s' _ => .gaveUp _ (hρ.fails hfails) hfirst)
          fun _ _ _ _ _ _ _ => .inr ⟨hfails, _, rfl⟩
      · have hcovered : ∀ x ∈ t.frontier, ∃ k ∈ s1.tasksOf r.id, k.covers x = true := by
          rcases hcase with ⟨n, -, hcovered⟩ | ⟨-, e, he⟩
          · exact hcovered
          · cases he
        refine (conclude_meets hρ ht hat1 (fun s' ho => ?_)).mono fun result s' h =>
          passed_of_conclude hρ hat1 hal hcovered h
        refine ⟨fun v hv => ?_, fun hnode => ⟨hnode, .inl hfirst⟩⟩
        subst hv
        exact ⟨rfl, rfl⟩
    · cases ht'
      exact h

/-! ## Later passes -/

/-- The end of a later pass: with what was known when the tasks were listed, the
expression has advanced. -/
def LaterPassed (ρ : Rules) (σ : Scope) (r : ExpressionRow) (t : Tree) (s : Store)
    (result : Except Error ExpressionStatus) (s' : Store) : Prop :=
  ∃ s0, ρ.others s s0 ∧ Passed ρ σ r (t.refill (s0.tasksOf r.id))
    (fun _ => trace (doneTasks (s0.tasksOf r.id))) s0 result s'

/-- If nothing is left to do, the tasks stay as they are. -/
theorem concludeLater_meets (hρ : ρ.Suits σ first) (hat : At σ r s) (ht : r.Parses t)
    (hnode : t.isLeaf = false) {v : Float} (htree : t.refill (s.tasksOf r.id) = .leaf v) :
    (conclude r.id (.leaf v) fun _ => trace (doneTasks (s.tasksOf r.id))).Meets ρ
      (Passed ρ σ r (.leaf v) (fun _ => trace (doneTasks (s.tasksOf r.id))) s) s := by
  refine (conclude_meets hρ ht hat (fun s' ho => ?_)).mono fun result s' h => ?_
  · obtain ⟨-, hm⟩ := hat.others hρ ho
    have hsame := (hat.tracked ht).eq_of_later htree (hm.tasks r.id)
    refine ⟨fun w hw => ?_, fun h => by cases h⟩
    cases hw
    rw [hsame, htree, report, hnode]
    exact ⟨rfl, rfl⟩
  · exact passed_of_conclude hρ hat (.here s) (by simp [Tree.frontier, Tree.frontierAt]) h

/-- If something is left to do, its tasks are added first. -/
theorem issueLater_meets (hρ : ρ.Suits σ first) (hat : At σ r s) (ht : r.Parses t)
    (hnode : t.isLeaf = false) (hleaf : (t.refill (s.tasksOf r.id)).isLeaf = false)
    (steps : Float → List String) :
    ((liftM (issueTasks r.id (t.refill (s.tasksOf r.id))) : Program Error Nat) >>=
        fun _ => conclude r.id (t.refill (s.tasksOf r.id)) steps).Meets ρ
      (Passed ρ σ r (t.refill (s.tasksOf r.id)) steps s) s := by
  have hstatus : r.status ≠ ExpressionStatus.done.name := by
    intro hdone
    obtain ⟨t', v, ht', hv, -⟩ := hat.scheduled.of_done hdone
    cases ht.unique ht'
    rw [hv] at hleaf
    cases hleaf
  have hahead : Ahead ρ r t (t.refill (s.tasksOf r.id)) s := by
    intro s' ho x hx hnone
    obtain ⟨hat', hm⟩ := hat.others hρ ho
    refine Open.later ⟨hx, fun k hk => ?_⟩ (hm.tasks r.id) (hat'.tracked ht)
    obtain ⟨k', hk', hlater⟩ := (hm.tasks r.id).exists_new hk
    rw [← hlater.covers_eq]
    exact hnone k' hk'
  refine (issueTasks_meets hρ ht hat hahead).lift ?_ ?_
  · rintro n s1 ⟨hat1, hal, ⟨m, -, hcovered⟩ | ⟨-, e, he⟩⟩
    · refine (conclude_meets hρ ht hat1 (fun s' _ => ?_)).mono fun result s' h =>
        passed_of_conclude hρ hat1 hal hcovered h
      refine ⟨fun v hv => ?_, fun _ => ⟨hnode, .inr hstatus⟩⟩
      rw [hv] at hleaf
      cases hleaf
    · cases he
  · rintro e s1 ⟨-, -, ⟨n, hn, -⟩ | ⟨hfails, -⟩⟩ s2 -
    · cases hn
    · exact .inr ⟨hfails, _, rfl⟩

theorem laterPass_meets (hρ : ρ.Suits σ first) (hat : At σ r s) {e : Expression}
    (hid : e.id = r.id) (hsource : e.source = columnText r.source) (ht : r.Parses t)
    (hnode : t.isLeaf = false) :
    (laterPass e).Meets ρ (LaterPassed ρ σ r t s) s := by
  unfold laterPass
  rw [hid, hsource, ht]
  refine Program.meets_lift (fun s' ho => hρ.may trivial) ?_ ?_
  · intro s0 now listed s0' ho heq
    obtain ⟨hat0, -⟩ := hat.others hρ ho
    cases heq
    dsimp only
    rw [Tree.refill_doneTasks]
    cases htree : t.refill (s0.tasksOf r.id) with
    | leaf v =>
      refine (concludeLater_meets hρ hat0 ht hnode htree).mono fun result s' h => ?_
      exact ⟨s0, ho, htree.symm ▸ h⟩
    | node op a b =>
      rw [← htree]
      have hleaf : (t.refill (s0.tasksOf r.id)).isLeaf = false := by
        rw [htree]
        rfl
      exact (issueLater_meets hρ hat0 ht hnode hleaf _).mono fun result s' h => ⟨s0, ho, h⟩
  · rintro s' e ho (hfails | ⟨now, heq⟩) s'' ho'
    · exact ⟨s, ρ.refl s, .inr ⟨hfails, _, rfl⟩⟩
    · cases heq

/-- The row is unfinished, so it can be read, and a pass goes on with it. -/
theorem At.read_of_unfinished (hat : At σ r s) (hr : r.isUnfinished = true) :
    ∃ e, r.read = .ok e ∧ e.status.isTerminal = false := by
  rw [ExpressionRow.isUnfinished_iff] at hr
  have hsteps : r.steps = none := by
    cases hat.scheduled.standing with
    | pending _ _ hsteps | inProgress _ _ _ hsteps => exact hsteps
    | done _ _ hstatus | error hstatus =>
      rw [hstatus] at hr
      exact absurd hr (by decide)
  obtain ⟨e, he⟩ := ExpressionRow.exists_read hsteps
  refine ⟨e, he, ?_⟩
  rcases hr with hr | hr <;> rw [ExpressionRow.status_of_read he hr] <;> rfl

theorem At.finished_cases (hat : At σ r s) (hr : r.isUnfinished = false) :
    r.status = ExpressionStatus.done.name ∨ r.status = ExpressionStatus.error.name := by
  cases hat.scheduled.standing with
  | pending hstatus | inProgress _ hstatus =>
    rw [ExpressionRow.isUnfinished, hstatus] at hr
    exact absurd hr (by decide)
  | done _ _ hstatus => exact .inl hstatus
  | error hstatus => exact .inr hstatus

/-- A finished expression is read as one. -/
theorem At.isTerminal_of_read (hat : At σ r s) (hr : r.isUnfinished = false) {e : Expression}
    (he : r.read = .ok e) : e.status.isTerminal = true := by
  rcases hat.finished_cases hr with hstatus | hstatus <;>
    rw [ExpressionRow.status_of_read he hstatus] <;> rfl

/-- A pass for an expression that is looked up. -/
def passFor (expressionId : Int) : Program Error ExpressionStatus := do
  let expression ← found .expression expressionId (← Program.call (.getExpression expressionId))
  if expression.status.isTerminal then pure expression.status else laterPass expression

/-- A pass that a call has cut off. -/
theorem laterPassed_of_fails {s' : Store} (hfails : ρ.fails) (e : Error) :
    LaterPassed ρ σ r t s (.error e) s' :=
  ⟨s, ρ.refl s, .inr ⟨hfails, e, rfl⟩⟩

theorem LaterPassed.before {s' s'' : Store} {result : Except Error ExpressionStatus}
    (h : LaterPassed ρ σ r t s' result s'') (ho : ρ.others s s') :
    LaterPassed ρ σ r t s result s'' := by
  obtain ⟨s0, ho0, hpassed⟩ := h
  exact ⟨s0, ρ.trans ho ho0, hpassed⟩

/-- The end of a pass over an expression that is looked up: a later pass was made over it, or
it was finished and stays so. -/
structure Followed (ρ : Rules) (σ : Scope) (r : ExpressionRow) (t : Tree) (s : Store)
    (result : Except Error ExpressionStatus) (s' : Store) : Prop where
  unfinished : r.isUnfinished = true → LaterPassed ρ σ r t s result s'
  finished : r.isUnfinished = false → At σ r s'

theorem Followed.before {s' s'' : Store} {result : Except Error ExpressionStatus}
    (h : Followed ρ σ r t s' result s'') (ho : ρ.others s s') : Followed ρ σ r t s result s'' :=
  ⟨fun hr => (h.unfinished hr).before ho, h.finished⟩

theorem passFor_meets (hρ : ρ.Suits σ first) (hat : At σ r s) (ht : r.Parses t)
    (hnode : t.isLeaf = false) : (passFor r.id).Meets ρ (Followed ρ σ r t s) s := by
  refine Program.meets_lift (fun s' ho => hρ.may trivial) ?_ ?_
  · intro s1 now found s1' ho heq
    obtain ⟨hat1, -⟩ := hat.others hρ ho
    obtain ⟨hfound, rfl⟩ := Store.map_pair_ok heq
    have hlook := Store.expression?_eq hat1.sound.wellFormed hat1.mem
    cases hread : r.read with
    | error err =>
      rw [hread] at hlook
      cases hlook.symm.trans hfound
    | ok e =>
      rw [hread] at hlook
      cases hlook.symm.trans hfound
      obtain ⟨hid, hsource, -⟩ := ExpressionRow.read_eq_ok hread
      change (if e.status.isTerminal = true then pure e.status else laterPass e).Meets ρ _ s1'
      split_ifs with hterminal
      · refine fun s2 ho2 => ⟨fun hunfinished => ?_, fun _ => (hat1.others hρ ho2).1⟩
        obtain ⟨e', he', hnot⟩ := hat1.read_of_unfinished hunfinished
        cases hread.symm.trans he'
        rw [hterminal] at hnot
        cases hnot
      · refine (laterPass_meets hρ hat1 hid hsource ht hnode).mono fun result s2 h => ?_
        exact ⟨fun _ => h.before ho, fun hr => absurd (hat1.isTerminal_of_read hr hread) hterminal⟩
  · intro s1 e ho herr s2 ho2
    obtain ⟨hat1, -⟩ := hat.others hρ ho
    refine ⟨fun hunfinished => ?_, fun _ => (hat1.others hρ ho2).1⟩
    rcases herr with hfails | ⟨now, heq⟩
    · exact laterPassed_of_fails hfails _
    · obtain ⟨e', he', -⟩ := hat1.read_of_unfinished hunfinished
      have hlook := Store.expression?_eq hat1.sound.wellFormed hat1.mem
      rw [he'] at hlook
      cases hlook.symm.trans (Store.map_pair_error heq)

/-- The expression of a task stays the one it belongs to. -/
theorem Meanwhile.eq_of_task {s s' : Store} (hm : Meanwhile s s') (hs' : s'.WellFormed)
    {r r' : ExpressionRow} (hr : r ∈ s.expressions) (hr' : r' ∈ s'.expressions) {k k' : Task}
    (hk : k ∈ s.tasksOf r.id) (hk' : k' ∈ s'.tasksOf r'.id) (hid : k.id = k'.id) : r = r' := by
  obtain ⟨k1, hk1, hlater⟩ := (hm.tasks r.id).exists_new hk
  have hsame : k1 = k' := hs'.eq_of_task_id hk1 hk' (hlater.id.trans hid)
  refine hs'.eq_of_id (hm.mem hr) hr' ?_
  rw [← Store.expressionId_of_mem hk1, hsame, Store.expressionId_of_mem hk']

/-- The pass after a task, by what it means for the task's expression. -/
theorem passAfter_meets (hρ : ρ.Suits σ first) (hs : Sound σ s) (id : Int)
    (hown : ∀ s', ρ.others s s' → ∀ e, ∀ k ∈ s'.tasksOf e, k.id = id → σ.own e) :
    (passAfter id).Meets ρ
      (fun result s' => ∀ r ∈ s.expressions, (∃ k ∈ s.tasksOf r.id, k.id = id) →
        ∀ t, r.Parses t → Followed ρ σ r t s result s') s := by
  refine Program.meets_lift (fun s' ho => hρ.may trivial) ?_ ?_
  · intro s1 now found s1' ho heq
    obtain ⟨hm, hs1⟩ := hρ.others ho hs
    obtain ⟨hfound, rfl⟩ := Store.map_pair_ok heq
    rcases Store.task?_cases hs1.wellFormed id with ⟨hnone, hids⟩ | ⟨k, hsome, hk, hid⟩
    · -- no task, so none of an expression
      cases hnone.symm.trans hfound
      intro s2 ho2 r hr hk
      obtain ⟨k, hk, hid⟩ := hk
      obtain ⟨k', hk', hlater⟩ := (hm.tasks r.id).exists_new hk
      exact absurd (hlater.id.trans hid) (hids r.id k' hk')
    · cases hsome.symm.trans hfound
      obtain ⟨r0, hr0, hparent⟩ := hs1.wellFormed.exists_parent hk
      have hat1 : At σ r0 s1' := ⟨hs1, hr0, hparent ▸ hown s1' ho _ k hk hid⟩
      rw [← hparent] at hk
      obtain ⟨t0, ht0, hnode⟩ := hat1.scheduled.exists_tree hk
      change (passFor k.expressionId).Meets ρ _ s1'
      rw [← hparent]
      refine (passFor_meets hρ hat1 ht0 hnode).mono ?_
      intro result s2 hfollowed r hr hkr t ht
      -- the expression of the task is the one that was looked up
      obtain ⟨k1, hk1, hid1⟩ := hkr
      have hsame : r = r0 := hm.eq_of_task hs1.wellFormed hr hr0 hk1 hk (hid1.trans hid.symm)
      subst hsame
      cases ht0.unique ht
      exact hfollowed.before ho
  · rintro s1 e ho herr s2 ho2 r hr ⟨k, hk, hid⟩ t _
    obtain ⟨hm, hs1⟩ := hρ.others ho hs
    have hat1 : At σ r s1 := ⟨hs1, hm.mem hr, hown s (ρ.refl s) r.id k hk hid⟩
    refine ⟨fun _ => ?_, fun _ => (hat1.others hρ ho2).1⟩
    rcases herr with hfails | ⟨now, heq⟩
    · exact laterPassed_of_fails hfails _
    · rcases Store.task?_cases hs1.wellFormed id with ⟨hnone, -⟩ | ⟨k, hsome, -⟩
      · cases hnone.symm.trans (Store.map_pair_error heq)
      · cases hsome.symm.trans (Store.map_pair_error heq)

/-! ## Taking up listed expressions -/

/-- The store still knows the expression; if a pass was made over it, it has an
operation. -/
def Listed (s : Store) (e : Expression) : Prop :=
  ∃ r ∈ s.expressions, r.id = e.id ∧ e.source = columnText r.source ∧
    (e.status ≠ .pending → ∃ t, r.Parses t ∧ t.isLeaf = false)

theorem Listed.sameTexts {s s' : Store} {e : Expression} (h : Listed s e) (hrows : SameTexts s s') :
    Listed s' e := by
  obtain ⟨r, hr, hid, hsource, hnode⟩ := h
  obtain ⟨r', hr', hid', hsource'⟩ := hrows r hr
  refine ⟨r', hr', hid'.trans hid, hsource'.symm ▸ hsource, fun hstatus => ?_⟩
  obtain ⟨t, ht, hleaf⟩ := hnode hstatus
  refine ⟨t, ?_, hleaf⟩
  rw [ExpressionRow.Parses, hsource']
  exact ht

theorem Sound.listed (hs : Sound σ s) (hown : ∀ i, σ.own i) {e : Expression}
    (he : e ∈ s.unfinished) : Listed s e := by
  obtain ⟨r, hr, hunfinished, hread⟩ := Store.mem_unfinished.1 he
  obtain ⟨hid, hsource, -⟩ := ExpressionRow.read_eq_ok hread
  refine ⟨r, hr, hid.symm, hsource, fun hstatus => ?_⟩
  rw [ExpressionRow.isUnfinished_iff] at hunfinished
  cases (hs.scheduled r hr (hown r.id)).standing with
  | pending hpending => exact absurd (ExpressionRow.status_of_read hread hpending) hstatus
  | inProgress t _ _ _ ht hnode => exact ⟨t, ht, hnode⟩
  | done _ _ hdone | error hdone =>
    rw [hdone] at hunfinished
    exact absurd hunfinished (by decide)

end Passes

end Piecework
