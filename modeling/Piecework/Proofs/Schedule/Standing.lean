import Piecework.Proofs.Schedule.Tracking
import Piecework.Proofs.Store.Effects

/-!
# Where an expression stands

The row of an expression, its tasks and the tree of its source belong together.

* `Standing` says what the row may show, state by state.  A row that is done shows the
  number that its tree has come down to, and the trace of its tasks.
* `Scheduled` adds that the tasks are tracked, and `Sound` asks it of every expression
  that is followed.
* `Meanwhile` is what others may do to the store between two calls of a pass, and
  `Allowed` what the pass itself may ask.  Both keep the store sound:
  `Sound.elsewhere` and `Sound.allowed`.
-/

namespace Piecework

open Store (WellFormed Issued Submitted Marked Elsewhere)

/-- Which expressions are followed, and whether anything may go wrong with them: a call on
the store may fail, or a first pass may read a text that the store gives back shortened. -/
structure Scope where
  own : Int → Prop
  faults : Prop

/-- The tree of an expression, by the text that the store gives back. -/
abbrev ExpressionRow.Parses (r : ExpressionRow) (t : Tree) : Prop :=
  Expr.parse (columnText r.source) = .ok t

/-- The steps of a finished expression: a number alone has no tasks. -/
def report (t : Tree) (tasks : List Task) (v : Float) : List String :=
  if t.isLeaf then ["result: " ++ Decimal.text v] else trace (Schedule.doneTasks tasks)

/-- The steps of a text that is no expression. -/
def rejection (e : ParseError) : List String := ["parse error: " ++ e.message]

/-- What the row of an expression shows, given its tasks. -/
inductive Standing (faults : Prop) (tasks : List Task) (r : ExpressionRow) : Prop
  | pending :
      r.status = ExpressionStatus.pending.name → r.result = none → r.steps = none →
      Standing faults tasks r
  | inProgress (t : Tree) :
      r.status = ExpressionStatus.inProgress.name → r.result = none → r.steps = none →
      r.Parses t → t.isLeaf = false → Standing faults tasks r
  | done (t : Tree) (v : Float) :
      r.status = ExpressionStatus.done.name → r.Parses t → t.refill tasks = .leaf v →
      r.result = columnFloat v → r.steps = some (stepsFormat.encode (report t tasks v)) →
      Standing faults tasks r
  | error :
      r.status = ExpressionStatus.error.name → r.result = none →
      (faults ∨ ∃ e, Expr.parse (columnText r.source) = .error e ∧
        r.steps = some (stepsFormat.encode (rejection e))) →
      Standing faults tasks r

/-- The row of an expression, its tasks and its tree belong together. -/
structure Scheduled (faults : Prop) (tasks : List Task) (r : ExpressionRow) : Prop where
  tracked : ∀ t, r.Parses t → Tracked t tasks
  parsed : tasks ≠ [] → ∃ t, r.Parses t
  standing : Standing faults tasks r

section Scheduled

variable {faults : Prop} {tasks tasks' : List Task} {r : ExpressionRow} {t : Tree}

theorem ExpressionRow.Parses.unique {t' : Tree} (h : r.Parses t) (h' : r.Parses t') : t = t' :=
  Except.ok.inj (h.symm.trans h')

/-- An expression with a task is not a number alone. -/
theorem Scheduled.exists_tree (h : Scheduled faults tasks r) {k : Task} (hk : k ∈ tasks) :
    ∃ t, r.Parses t ∧ t.isLeaf = false := by
  obtain ⟨t, ht⟩ := h.parsed (List.ne_nil_of_mem hk)
  exact ⟨t, ht, (h.tracked t ht).isLeaf_eq_false hk⟩

/-- An expression that is done has come down to a number. -/
theorem Scheduled.of_done (h : Scheduled faults tasks r)
    (hdone : r.status = ExpressionStatus.done.name) :
    ∃ t v, r.Parses t ∧ t.refill tasks = .leaf v ∧ r.result = columnFloat v ∧
      r.steps = some (stepsFormat.encode (report t tasks v)) := by
  cases h.standing with
  | pending hstatus | inProgress _ hstatus | error hstatus =>
    exact absurd (hstatus.symm.trans hdone) (by decide)
  | done t v _ ht hleaf hresult hsteps => exact ⟨t, v, ht, hleaf, hresult, hsteps⟩

/-- What the row shows depends on the tasks only when the expression is done. -/
theorem Standing.congr (h : Standing faults tasks r)
    (htasks : r.status = ExpressionStatus.done.name → tasks' = tasks) :
    Standing faults tasks' r := by
  cases h with
  | pending hstatus hresult hsteps => exact .pending hstatus hresult hsteps
  | inProgress t hstatus hresult hsteps ht hnode =>
    exact .inProgress t hstatus hresult hsteps ht hnode
  | done t v hstatus ht hleaf hresult hsteps =>
    rw [htasks hstatus]
    exact .done t v hstatus ht hleaf hresult hsteps
  | error hstatus hresult hcause => exact .error hstatus hresult hcause

theorem Scheduled.submitted (hstatus : r.status = ExpressionStatus.pending.name)
    (hresult : r.result = none) (hsteps : r.steps = none) : Scheduled faults [] r :=
  ⟨fun t _ => tracked_nil t, fun h => absurd rfl h, .pending hstatus hresult hsteps⟩

theorem Scheduled.issue (h : Scheduled faults tasks r) (ht : r.Parses t) {x : Ready}
    (hx : Open t tasks x) {k : Task} (hk : k.IssuedFor x) : Scheduled faults (tasks ++ [k]) r := by
  refine ⟨fun t' ht' => ?_, fun _ => ⟨t, ht⟩, h.standing.congr fun hdone => ?_⟩
  · cases ht.unique ht'
    exact (h.tracked t ht).issue hx hk
  · -- nothing is open in a finished expression
    obtain ⟨t', v, ht', hleaf, -⟩ := h.of_done hdone
    cases ht.unique ht'
    have hready := hx.ready
    rw [hleaf] at hready
    cases hready

theorem Scheduled.moved (h : Scheduled faults tasks r) {k k' : Task}
    (hmoves : Replaces k k' tasks tasks') (hlater : k.Later k') (hunfinished : k.status ≠ .done)
    (hvalid : k'.Valid) : Scheduled faults tasks' r := by
  refine ⟨fun t ht => (h.tracked t ht).moved hmoves hlater hunfinished hvalid,
    fun _ => h.parsed (List.ne_nil_of_mem hmoves.mem), h.standing.congr fun hdone => ?_⟩
  obtain ⟨t, v, ht, hleaf, -⟩ := h.of_done hdone
  exact absurd ((h.tracked t ht).done_of_leaf hleaf hmoves.mem) hunfinished

end Scheduled

/-- Every expression that is followed is scheduled. -/
structure Sound (σ : Scope) (s : Store) : Prop where
  wellFormed : s.WellFormed
  scheduled : ∀ r ∈ s.expressions, σ.own r.id → Scheduled σ.faults (s.tasksOf r.id) r

/-! ## What others do -/

section Moves

variable {c : Call} {k k' : Task}

/-- A task that is leased has waited for it. -/
theorem Store.Moves.pending (h : Store.Moves .lease k k') : k.status = .pending := by
  cases h with
  | leased _ hst => exact hst

/-- Then somebody works on it. -/
theorem Store.Moves.inProgress (h : Store.Moves .lease k k') : k'.status = .inProgress := by
  cases h
  rfl

theorem Store.Moves.unfinished (h : Store.Moves c k k') : k.status ≠ .done := by
  cases h with
  | leased _ hst | completed _ _ hst | failed _ _ hst =>
    rw [hst]
    decide

theorem Store.Moves.later (h : Store.Moves c k k') : k.Later k' := by
  have hunfinished := h.unfinished
  refine ⟨?_, fun hdone => absurd hdone hunfinished⟩
  cases h <;> exact ⟨rfl, rfl, rfl, rfl, rfl⟩

theorem Store.Moves.valid (h : Store.Moves c k k') (hk : k.Valid) : k'.Valid := by
  have hnone : ∀ v, k.result ≠ some v := fun v hv => h.unfinished (hk.finished v hv)
  cases h with
  | leased | failed => exact ⟨hk.operands, hk.number, fun v hv => absurd hv (hnone v)⟩
  | completed value =>
    exact ⟨hk.operands, fun v hv => Number.isNaN_of_columnFloat hv, fun _ _ => rfl⟩

/-- A task stays with its expression. -/
theorem Store.Moves.expressionId (h : Store.Moves c k k') : k'.expressionId = k.expressionId := by
  cases h <;> rfl

theorem Store.Moves.recorded (h : Store.Moves c k k') {id : Int} {value : Float}
    (hc : c = .completeTask id value) : k'.status = .done ∧ k'.result = columnFloat value := by
  cases h with
  | leased | failed => cases hc
  | completed =>
    cases hc
    exact ⟨rfl, rfl⟩

/-- Whatever becomes of a task, an honest result is exact. -/
theorem Store.Moves.exact (h : Store.Moves c k k')
    (hhonest : ∀ value, c = .completeTask k.id value →
      k.operator.apply k.operand1 k.operand2 = .ok value) : k'.Exact := by
  cases h with
  | leased | failed => exact Task.exact_of_unfinished (by simp)
  | completed value now hst =>
    intro x _ hx
    refine ⟨value, hhonest value rfl, ?_⟩
    exact Number.beq_symm (Number.columnFloat_agrees hx)

theorem Store.Moves.answered (h : Store.Moves c k k')
    (hnumber : ∀ value, c = .completeTask k.id value → value.isNaN = false) : k'.Answered := by
  cases h with
  | leased | failed => exact Task.answered_of_unfinished (by simp)
  | completed value now hst => exact fun _ => Number.exists_columnFloat (hnumber value rfl)

end Moves

/-- What others may have done to the store: expressions were added, and tasks have changed
hands. -/
structure Meanwhile (s s' : Store) : Prop where
  rows : s.expressions <+: s'.expressions
  tasks : ∀ e, AllLater (s.tasksOf e) (s'.tasksOf e)

theorem Meanwhile.refl (s : Store) : Meanwhile s s :=
  ⟨List.prefix_rfl, fun _ => .refl _⟩

theorem Meanwhile.trans {s s' s'' : Store} (h : Meanwhile s s') (h' : Meanwhile s' s'') :
    Meanwhile s s'' :=
  ⟨h.rows.trans h'.rows, fun e => (h.tasks e).trans (h'.tasks e)⟩

theorem Meanwhile.mem {s s' : Store} (h : Meanwhile s s') {r : ExpressionRow}
    (hr : r ∈ s.expressions) : r ∈ s'.expressions := h.rows.subset hr

theorem Store.Elsewhere.meanwhile {c : Call} {s s' : Store} (h : Elsewhere c s s') :
    Meanwhile s s' := by
  cases h with
  | kept => exact .refl s
  | @moved _ _ _ k k' hmoves hmoved =>
    refine ⟨hmoved.expressions ▸ List.prefix_rfl, fun e => ?_⟩
    by_cases he : e = k.expressionId
    · rw [he]
      exact .of_replaces hmoved.tasksOf hmoves.later
    · rw [hmoved.tasksOf_of_ne he]
      exact .refl _
  | submitted _ _ hsubmitted =>
    obtain ⟨r, hrows, -⟩ := hsubmitted.rows
    refine ⟨by rw [hrows]; exact List.prefix_append _ _, fun e => ?_⟩
    rw [Store.tasksOf_congr hsubmitted.tasks]
    exact .refl _

theorem Sound.elsewhere {σ : Scope} {c : Call} {s s' : Store} (h : Sound σ s)
    (he : Elsewhere c s s') : Sound σ s' := by
  refine ⟨he.wellFormed h.wellFormed, fun r hr hown => ?_⟩
  cases he with
  | kept => exact h.scheduled r hr hown
  | @moved _ _ _ k k' hmoves hmoved =>
    rw [hmoved.expressions] at hr
    by_cases hid : r.id = k.expressionId
    · have hk : k ∈ s.tasksOf r.id := hid ▸ hmoved.mem
      have hreplaces : Replaces k k' (s.tasksOf r.id) (s'.tasksOf r.id) := by
        rw [hid]
        exact hmoved.tasksOf
      exact (h.scheduled r hr hown).moved hreplaces hmoves.later hmoves.unfinished
        (hmoves.valid (h.wellFormed.valid_of_mem hk))
    · rw [hmoved.tasksOf_of_ne hid]
      exact h.scheduled r hr hown
  | submitted _ _ hsubmitted =>
    obtain ⟨new, hrows, hid, -, hstatus, hresult, hsteps⟩ := hsubmitted.rows
    rw [hrows, List.mem_append, List.mem_singleton] at hr
    rcases hr with hr | rfl
    · rw [Store.tasksOf_congr hsubmitted.tasks]
      exact h.scheduled r hr hown
    · rw [hid, hsubmitted.tasksOf_new h.wellFormed]
      exact .submitted hstatus hresult hsteps

/-! ## What a pass may ask -/

/-- How a pass may mark an expression.  Only a first pass marks one that is done as being
under way. -/
inductive Verdicts (faults first : Prop) (tasks : List Task) (r : ExpressionRow) :
    ExpressionStatus → Option Float → Option (List String) → Prop
  | done {t : Tree} {v : Float} : r.Parses t → t.refill tasks = .leaf v →
      Verdicts faults first tasks r .done (some v) (some (report t tasks v))
  | inProgress {t : Tree} : r.Parses t → t.isLeaf = false →
      (first ∨ r.status ≠ ExpressionStatus.done.name) →
      Verdicts faults first tasks r .inProgress none none
  | rejected {e : ParseError} : Expr.parse (columnText r.source) = .error e →
      Verdicts faults first tasks r .error none (some (rejection e))
  | gaveUp (reason : List String) : faults → first →
      Verdicts faults first tasks r .error none (some reason)

/-- What a pass may ask of a store.  The passes differ in the expressions that they make a
first pass over. -/
def Allowed (σ : Scope) (first : Int → Prop) (s : Store) : Call → Prop
  | .getTask _ | .listTasks _ | .getExpression _ => True
  | .createTask e op lhs rhs path => ∃ r ∈ s.expressions, r.id = e ∧ σ.own e ∧
      ∃ t x, r.Parses t ∧ Open t (s.tasksOf e) x ∧ op = x.op ∧ lhs = x.lhs ∧ rhs = x.rhs ∧
        path = x.path.text
  | .setStatus e status result steps => ∃ r ∈ s.expressions, r.id = e ∧ σ.own e ∧
      Verdicts σ.faults (first e) (s.tasksOf e) r status result steps
  | _ => False

/-- A call that a pass may make changes nothing, adds the task of an open operation, or
marks an expression as it may be marked. -/
inductive Effect (σ : Scope) (first : Int → Prop) : Call → Store → Store → Prop
  | read {c : Call} {s : Store} : Effect σ first c s s
  | issued {s s' : Store} {r : ExpressionRow} {t : Tree} {x : Ready} {k : Task} :
      r ∈ s.expressions → σ.own r.id → r.Parses t → Open t (s.tasksOf r.id) x → k.IssuedFor x →
      k.expressionId = r.id → Issued k s s' →
      Effect σ first (.createTask r.id x.op x.lhs x.rhs x.path.text) s s'
  | marked {s s' : Store} {r : ExpressionRow} {status : ExpressionStatus} {result : Option Float}
      {steps : Option (List String)} {stamp : String} :
      σ.own r.id → Verdicts σ.faults (first r.id) (s.tasksOf r.id) r status result steps →
      Marked r (Store.mark status result steps stamp r) s s' →
      Effect σ first (.setStatus r.id status result steps) s s'

section Allowed

variable {σ : Scope} {first : Int → Prop} {s s' : Store} {c : Call}

theorem Allowed.effect (h : Allowed σ first s c) (hs : s.WellFormed) {now : Time.Instant}
    {reply : c.Reply} (heq : s.answer now c = .ok (reply, s')) : Effect σ first c s s' := by
  cases c with
  | getTask | getExpression =>
    obtain ⟨-, rfl⟩ := Store.map_pair_ok heq
    exact .read
  | listTasks =>
    cases heq
    exact .read
  | createTask e op lhs rhs path =>
    obtain ⟨r, hr, rfl, hown, t, x, ht, hx, rfl, rfl, rfl, rfl⟩ := h
    obtain ⟨k, hk, hid, hop, hpath, hlhs, hrhs⟩ := Store.createTask_ok heq
    rw [columnText_path] at hpath
    exact .issued hr hown ht hx ⟨hpath, hop, hlhs, hrhs, hk.status, hk.result⟩ hid hk
  | setStatus e status result steps =>
    obtain ⟨r, hr, rfl, hown, hverdict⟩ := h
    cases heq
    exact .marked hown hverdict (Store.setStatus_marked hs hr now status result steps)
  | _ => cases h

/-- A row that is marked shows what it may show. -/
theorem Verdicts.standing {faults first : Prop} {tasks : List Task} {r : ExpressionRow}
    {status : ExpressionStatus} {result : Option Float} {steps : Option (List String)}
    (h : Verdicts faults first tasks r status result steps) (stamp : String) :
    Standing faults tasks (Store.mark status result steps stamp r) := by
  cases h with
  | @done t v ht hleaf => exact .done t v rfl ht hleaf rfl rfl
  | @inProgress t ht hnode _ => exact .inProgress t rfl rfl rfl ht hnode
  | rejected he => exact .error rfl rfl (.inr ⟨_, he, rfl⟩)
  | gaveUp reason hfaults _ => exact .error rfl rfl (.inl hfaults)

theorem Effect.sound (h : Effect σ first c s s') (hs : Sound σ s) : Sound σ s' := by
  cases h with
  | read => exact hs
  | @issued _ _ r t x k hr hown ht hx hk hid hissued =>
    refine ⟨hissued.wellFormed hs.wellFormed, fun r' hr' hown' => ?_⟩
    rw [hissued.expressions] at hr'
    have hsched := hs.scheduled r' hr' hown'
    by_cases heq : r'.id = r.id
    · cases hs.wellFormed.eq_of_id hr' hr heq
      rw [← hid, hissued.tasksOf, hid]
      exact hsched.issue ht hx hk
    · rw [hissued.tasksOf_of_ne (hid ▸ heq)]
      exact hsched
  | @marked _ _ r status result steps stamp hown hverdict hmarked =>
    refine ⟨hmarked.wellFormed hs.wellFormed, fun r' hr' hown' => ?_⟩
    rw [Store.tasksOf_congr hmarked.tasks]
    rcases hmarked.rows.mem_old hr' with hold | rfl
    · exact hs.scheduled r' hold hown'
    · have hsched := hs.scheduled r hmarked.rows.mem hown
      exact ⟨hsched.tracked, hsched.parsed, hverdict.standing stamp⟩

/-- What a pass may ask keeps the store sound. -/
theorem Sound.allowed (hs : Sound σ s) (h : Allowed σ first s c) {now : Time.Instant}
    {reply : c.Reply} (heq : s.answer now c = .ok (reply, s')) : Sound σ s' :=
  (h.effect hs.wellFormed heq).sound hs

end Allowed

/-! ## What stays -/

section Effect

variable {σ : Scope} {first : Int → Prop} {c : Call} {s s' : Store} {e : Int} {k : Task}

/-- A pass takes no task away. -/
theorem Effect.mem (h : Effect σ first c s s') (hk : k ∈ s.tasksOf e) : k ∈ s'.tasksOf e := by
  cases h with
  | read => exact hk
  | issued _ _ _ _ _ _ hissued => exact hissued.mem hk
  | marked _ _ hmarked => rwa [Store.tasksOf_congr hmarked.tasks]

/-- The tasks that a pass adds wait. -/
theorem Effect.mem_old (h : Effect σ first c s s') (hk : k ∈ s'.tasksOf e) :
    k ∈ s.tasksOf e ∨ k.status = .pending := by
  cases h with
  | read => exact .inl hk
  | issued _ _ _ _ _ _ hissued =>
    rcases hissued.mem_old hk with hold | rfl
    · exact .inl hold
    · exact .inr hissued.status
  | marked _ _ hmarked =>
    rw [Store.tasksOf_congr hmarked.tasks] at hk
    exact .inl hk

end Effect

/-- Identifiers and texts of expressions stay. -/
def SameTexts (s s' : Store) : Prop :=
  ∀ r ∈ s.expressions, ∃ r' ∈ s'.expressions, r'.id = r.id ∧ r'.source = r.source

theorem SameTexts.refl (s : Store) : SameTexts s s := fun r hr => ⟨r, hr, rfl, rfl⟩

theorem SameTexts.trans {a b c : Store} (h : SameTexts a b) (h' : SameTexts b c) :
    SameTexts a c := by
  intro r hr
  obtain ⟨r', hr', hid, hsource⟩ := h r hr
  obtain ⟨r'', hr'', hid', hsource'⟩ := h' r' hr'
  exact ⟨r'', hr'', hid'.trans hid, hsource'.trans hsource⟩

theorem Meanwhile.sameTexts {s s' : Store} (h : Meanwhile s s') : SameTexts s s' :=
  fun r hr => ⟨r, h.mem hr, rfl, rfl⟩

/-- A call of a pass keeps the identifiers and the texts of expressions. -/
theorem Effect.sameTexts {σ : Scope} {first : Int → Prop} {c : Call} {s s' : Store}
    (h : Effect σ first c s s') : SameTexts s s' := by
  intro r hr
  cases h with
  | read => exact ⟨r, hr, rfl, rfl⟩
  | issued _ _ _ _ _ _ hissued => exact ⟨r, by rw [hissued.expressions]; exact hr, rfl, rfl⟩
  | @marked _ _ r0 _ _ _ _ _ _ hmarked =>
    by_cases heq : r = r0
    · rw [heq]
      exact ⟨_, hmarked.rows.mem_new, hmarked.id, hmarked.source⟩
    · exact ⟨r, hmarked.rows.mem_of_ne hr heq, rfl, rfl⟩

end Piecework
