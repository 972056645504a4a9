import Piecework.Proofs.Store.Effects

/-!
# The history of a task

Calls are asked of a store one after another, and each call is noted with its answer.  The
notes and the row of a task tell the same story: how often the task was given to a worker,
put back and finished can be counted in the notes and read off the row.

* `Turn` is what a noted call makes of the row of a task, and `Noted` what it makes of the
  tasks of the store.  `noted` finds it for every call.
* `Accounted` compares the notes with one row, and `Books` with all of them.  `Books.ask` is the
  step and `Books.history` the induction.
* `Outlives` is what later calls leave of a store: every row is still there, a task is the
  same task, and a finished one has the same row.
* `history_accounted` puts this together for a store that was empty at first.
-/

namespace Piecework.Store

open Time (Instant)

/-! ## Notes -/

/-- A call and its answer. -/
structure Note where
  call : Call
  reply : Except StoreError call.Reply

namespace Note

/-- A worker was given the task. -/
def leases (id : Int) : Note → Bool
  | ⟨.lease, .ok (some k)⟩ => k.id == id
  | _ => false

/-- The task was put back. -/
def fails (id : Int) : Note → Bool
  | ⟨.failTask i, .ok true⟩ => i == id
  | _ => false

/-- The task was finished. -/
def completes (id : Int) : Note → Bool
  | ⟨.completeTask i _, .ok true⟩ => i == id
  | _ => false

/-- There was no such task in progress. -/
def refuses : Note → Bool
  | ⟨.completeTask _ _, .ok false⟩ | ⟨.failTask _, .ok false⟩ => true
  | _ => false

theorem refuses_completeTask (id : Int) (value : Float) (counted : Bool) :
    refuses ⟨.completeTask id value, .ok counted⟩ = !counted := by
  cases counted <;> rfl

theorem refuses_failTask (id : Int) (counted : Bool) :
    refuses ⟨.failTask id, .ok counted⟩ = !counted := by
  cases counted <;> rfl

end Note

/-- The answer to a call, as a note, and the store behind it. -/
def ask (now : Instant) (c : Call) (s : Store) : Note × Store :=
  match s.answer now c with
  | .ok (reply, s') => (⟨c, .ok reply⟩, s')
  | .error e => (⟨c, .error e⟩, s)

/-- The notes about calls at their times, and the store behind them. -/
def history : List (Instant × Call) → Store → List Note × Store
  | [], s => ([], s)
  | (now, c) :: rest, s =>
    let (note, s') := s.ask now c
    let (notes, s'') := s'.history rest
    (note :: notes, s'')

/-! ## What a call makes of a task -/

/-- The row is still about the same task. -/
structure SameTask (r r' : TaskRow) : Prop where
  id : r'.id = r.id
  expressionId : r'.expressionId = r.expressionId
  operator : r'.operator = r.operator
  operand1 : r'.operand1 = r.operand1
  operand2 : r'.operand2 = r.operand2
  path : r'.path = r.path
  createdAt : r'.createdAt = r.createdAt

theorem SameTask.refl (r : TaskRow) : SameTask r r := ⟨rfl, rfl, rfl, rfl, rfl, rfl, rfl⟩

theorem SameTask.trans {r r' r'' : TaskRow} (h : SameTask r r') (h' : SameTask r' r'') :
    SameTask r r'' :=
  ⟨h'.id.trans h.id, h'.expressionId.trans h.expressionId, h'.operator.trans h.operator,
    h'.operand1.trans h.operand1, h'.operand2.trans h.operand2, h'.path.trans h.path,
    h'.createdAt.trans h.createdAt⟩

/-- What a noted call makes of the row of a task. -/
inductive Turn : Note → TaskRow → TaskRow → Prop
  | leased {r : TaskRow} {k : Task} (stamp : String) : r.isIn .pending = true → k.id = r.id →
      Turn ⟨.lease, .ok (some k)⟩ r (r.move .inProgress r.result r.retries stamp)
  | failed {r : TaskRow} (stamp : String) : r.isIn .inProgress = true →
      Turn ⟨.failTask r.id, .ok true⟩ r (r.move .pending r.result (r.retries + 1) stamp)
  | completed {r : TaskRow} (value : Float) (stamp : String) : r.isIn .inProgress = true →
      Turn ⟨.completeTask r.id value, .ok true⟩ r (r.move .done (columnFloat value) r.retries stamp)

/-- The note is not about this task. -/
def Note.Passes (n : Note) (id : Int) : Prop :=
  n.leases id = false ∧ n.fails id = false ∧ n.completes id = false

/-- The note is about no task. -/
def Note.Idle (n : Note) : Prop := ∀ id, n.Passes id

/-- What a noted call makes of the tasks of the store. -/
inductive Noted : Note → Store → Store → Prop
  | aside {n : Note} {s s' : Store} : n.Idle → s'.tasks = s.tasks → Noted n s s'
  | added {n : Note} {s s' : Store} {r : TaskRow} : n.Idle → s'.tasks = s.tasks ++ [r] →
      r.id = s.lastTask + 1 → r.isIn .pending = true → r.retries = 0 → Noted n s s'
  | turned {n : Note} {s s' : Store} {r r' : TaskRow} : Turn n r r' →
      Replaces r r' s.tasks s'.tasks → Noted n s s'

theorem updateTask_rows {s : Store} (hs : s.WellFormed) (id : Int) (st : TaskStatus)
    (change : TaskRow → TaskRow) :
    s.updateTask id st change = (false, s) ∨
      ∃ r s', r.id = id ∧ r.isIn st = true ∧ s.updateTask id st change = (true, s') ∧
        Replaces r (change r) s.tasks s'.tasks := by
  have hselected : ∀ r : TaskRow, (r.id == id && r.isIn st) = true → r.id = id := by
    intro r hr
    rw [Bool.and_eq_true, beq_iff_eq] at hr
    exact hr.1
  rcases map_eq_of_unique (fun r => r.id == id && r.isIn st) change hselected hs.taskIds with
    ⟨hnone, hsame⟩ | ⟨r, hsel, hany, hrows⟩
  · left
    unfold updateTask
    dsimp only
    rw [hnone, hsame]
  · rw [Bool.and_eq_true, beq_iff_eq] at hsel
    exact .inr ⟨r, _, hsel.1, hsel.2, Prod.ext hany rfl, hrows⟩

theorem updateTask_refused {s : Store} (hs : s.WellFormed) {id : Int} {st : TaskStatus}
    {change : TaskRow → TaskRow} (h : (s.updateTask id st change).1 = false) :
    (s.updateTask id st change).2 = s := by
  rcases updateTask_rows hs id st change with hnone | ⟨r, s', -, -, hupdate, -⟩
  · rw [hnone]
  · rw [hupdate] at h
    cases h

theorem ask_lease {s : Store} (hs : s.WellFormed) (now : Instant) :
    Noted (s.ask now .lease).1 s (s.ask now .lease).2 := by
  cases hold : oldest? (s.tasks.filter (·.isIn .pending)) with
  | none =>
    have hnone : s.lease now = .ok (none, s) := by rw [lease, hold]
    rw [ask, answer, hnone]
    exact .aside (fun id => ⟨rfl, rfl, rfl⟩) rfl
  | some row =>
    have hmem := mem_of_oldest? hold
    rw [List.mem_filter] at hmem
    obtain ⟨k, hread⟩ := (hs.tasks row hmem.1).exists_read
    rw [ask, answer, lease_eq hold hread]
    rcases updateTask_rows hs row.id .pending
        (fun r => r.move .inProgress r.result r.retries now.stamp) with
      hnone | ⟨r, s', hid, hpending, hupdate, hrows⟩
    · have hany := congrArg Prod.fst hnone
      rw [updateTask, List.any_eq_false] at hany
      exact absurd (by simpa using hmem.2) (hany row hmem.1)
    · rw [hupdate]
      cases eq_of_pairwise hs.taskIds hrows.mem hmem.1 hid
      have hid' : k.id = row.id := TaskRow.id_of_read hread
      exact .turned (.leased now.stamp hpending hid') hrows

theorem createTask_rows {s s' : Store} {now : Instant} {e id : Int} {op : Operator}
    {lhs rhs : Float} {path : String} (h : s.createTask now e op lhs rhs path = .ok (id, s')) :
    ∃ r, s'.tasks = s.tasks ++ [r] ∧ r.id = s.lastTask + 1 ∧ r.isIn .pending = true ∧
      r.retries = 0 := by
  unfold createTask at h
  split at h
  · cases h
  · cases h
  · split_ifs at h
    cases h
    exact ⟨_, rfl, rfl, by simp [TaskRow.isIn], rfl⟩

/-- Every call is noted rightly. -/
theorem noted {s : Store} (hs : s.WellFormed) (now : Instant) (c : Call) :
    Noted (s.ask now c).1 s (s.ask now c).2 := by
  cases c with
  | lease => exact ask_lease hs now
  | migrate | listTasks | listOwned | listUnfinished | setStatus | createExpression =>
    exact .aside (fun id => ⟨rfl, rfl, rfl⟩) rfl
  | getTask | getExpression | getOwnedExpression =>
    unfold ask
    split
    · rename_i reply s' heq
      obtain ⟨-, rfl⟩ := map_pair_ok heq
      exact .aside (fun id => ⟨rfl, rfl, rfl⟩) rfl
    · exact .aside (fun id => ⟨rfl, rfl, rfl⟩) rfl
  | createTask e op lhs rhs path =>
    unfold ask
    split
    · rename_i id s' heq
      obtain ⟨r, hrows, hid, hpending, hretries⟩ := createTask_rows heq
      exact .added (fun id => ⟨rfl, rfl, rfl⟩) hrows hid hpending hretries
    · exact .aside (fun id => ⟨rfl, rfl, rfl⟩) rfl
  | completeTask id value =>
    rcases updateTask_rows hs id .inProgress
        (fun r => r.move .done (columnFloat value) r.retries now.stamp) with
      hnone | ⟨r, s', rfl, hprogress, hupdate, hrows⟩
    · have hcomplete : s.complete now id value = (false, s) := hnone
      rw [ask, answer, hcomplete]
      exact .aside (fun id => ⟨rfl, rfl, rfl⟩) rfl
    · have hcomplete : s.complete now r.id value = (true, s') := hupdate
      rw [ask, answer, hcomplete]
      exact .turned (.completed value now.stamp hprogress) hrows
  | failTask id =>
    rcases updateTask_rows hs id .inProgress
        (fun r => r.move .pending r.result (r.retries + 1) now.stamp) with
      hnone | ⟨r, s', rfl, hprogress, hupdate, hrows⟩
    · have hfail : s.fail now id = (false, s) := hnone
      rw [ask, answer, hfail]
      exact .aside (fun id => ⟨rfl, rfl, rfl⟩) rfl
    · have hfail : s.fail now r.id = (true, s') := hupdate
      rw [ask, answer, hfail]
      exact .turned (.failed now.stamp hprogress) hrows

/-! ## Rows outlive calls -/

theorem Turn.sameTask {n : Note} {r r' : TaskRow} (h : Turn n r r') : SameTask r r' := by
  cases h <;> exact ⟨rfl, rfl, rfl, rfl, rfl, rfl, rfl⟩

theorem isIn_unique {r : TaskRow} {st st' : TaskStatus} (h : r.isIn st = true)
    (h' : r.isIn st' = true) : st = st' := by
  rw [TaskRow.isIn, beq_iff_eq] at h h'
  exact TaskStatus.name_injective (h.symm.trans h')

/-- What is finished has had its last turn. -/
theorem Turn.not_done {n : Note} {r r' : TaskRow} (h : Turn n r r') : r.isIn .done = false := by
  rw [Bool.eq_false_iff]
  intro hdone
  cases h with
  | leased _ hst _ => exact absurd (isIn_unique hst hdone) (by decide)
  | failed _ hst => exact absurd (isIn_unique hst hdone) (by decide)
  | completed _ _ hst => exact absurd (isIn_unique hst hdone) (by decide)

/-- What the store has kept of its rows. -/
structure Outlives (s s' : Store) : Prop where
  tasks : ∀ r ∈ s.tasks, ∃ r' ∈ s'.tasks, SameTask r r' ∧ (r.isIn .done = true → r' = r)
  expressions : ∀ e ∈ s.expressions, ∃ e' ∈ s'.expressions, e'.id = e.id

theorem Outlives.refl (s : Store) : Outlives s s :=
  ⟨fun r hr => ⟨r, hr, .refl r, fun _ => rfl⟩, fun e he => ⟨e, he, rfl⟩⟩

theorem Outlives.trans {s s' s'' : Store} (h : Outlives s s') (h' : Outlives s' s'') :
    Outlives s s'' := by
  constructor
  · intro r hr
    obtain ⟨r', hr', hsame, hdone⟩ := h.tasks r hr
    obtain ⟨r'', hr'', hsame', hdone'⟩ := h'.tasks r' hr'
    refine ⟨r'', hr'', hsame.trans hsame', fun hd => ?_⟩
    cases hdone hd
    exact hdone' hd
  · intro e he
    obtain ⟨e', he', hid⟩ := h.expressions e he
    obtain ⟨e'', he'', hid'⟩ := h'.expressions e' he'
    exact ⟨e'', he'', hid'.trans hid⟩

theorem Noted.tasks {n : Note} {s s' : Store} (h : Noted n s s') :
    ∀ r ∈ s.tasks, ∃ r' ∈ s'.tasks, SameTask r r' ∧ (r.isIn .done = true → r' = r) := by
  intro r hr
  cases h with
  | aside _ hrows =>
    rw [hrows]
    exact ⟨r, hr, .refl r, fun _ => rfl⟩
  | added _ hrows =>
    rw [hrows]
    exact ⟨r, List.mem_append_left _ hr, .refl r, fun _ => rfl⟩
  | @turned r1 r2 hturn hrows =>
    by_cases heq : r = r1
    · subst heq
      refine ⟨r2, hrows.mem_new, hturn.sameTask, fun hdone => ?_⟩
      exact absurd hdone (Bool.eq_false_iff.1 hturn.not_done)
    · exact ⟨r, hrows.mem_of_ne hr heq, .refl r, fun _ => rfl⟩

theorem answer_expressions {s s' : Store} (hs : s.WellFormed) {now : Instant} {c : Call}
    {reply : c.Reply} (h : s.answer now c = .ok (reply, s')) :
    ∀ e ∈ s.expressions, ∃ e' ∈ s'.expressions, e'.id = e.id := by
  intro e he
  by_cases hc : schedules c = true
  · cases c with
    | createTask =>
      obtain ⟨k, hissued, -⟩ := createTask_ok h
      exact ⟨e, hissued.expressions ▸ he, rfl⟩
    | setStatus =>
      cases h
      refine ⟨_, List.mem_map_of_mem he, ?_⟩
      split_ifs <;> rfl
    | _ => cases hc
  · cases answer_elsewhere hs (Bool.eq_false_iff.2 hc) h with
    | kept => exact ⟨e, he, rfl⟩
    | moved _ hmoved => exact ⟨e, hmoved.expressions ▸ he, rfl⟩
    | submitted _ _ hsubmitted =>
      obtain ⟨r, hrows, -⟩ := hsubmitted.rows
      exact ⟨e, hrows ▸ List.mem_append_left _ he, rfl⟩

theorem ask_outlives {s : Store} (hs : s.WellFormed) (now : Instant) (c : Call) :
    Outlives s (s.ask now c).2 := by
  refine ⟨(noted hs now c).tasks, ?_⟩
  unfold ask
  split
  · rename_i heq
    exact answer_expressions hs heq
  · exact fun e he => ⟨e, he, rfl⟩

theorem WellFormed.ask {s : Store} (hs : s.WellFormed) (now : Instant) (c : Call) :
    (s.ask now c).2.WellFormed := by
  unfold Store.ask
  split
  · rename_i heq
    exact hs.answer heq
  · exact hs

theorem WellFormed.history {s : Store} (hs : s.WellFormed) (calls : List (Instant × Call)) :
    (s.history calls).2.WellFormed := by
  induction calls generalizing s with
  | nil => exact hs
  | cons call rest ih => exact ih (hs.ask call.1 call.2)

theorem history_outlives {s : Store} (hs : s.WellFormed) (calls : List (Instant × Call)) :
    Outlives s (s.history calls).2 := by
  induction calls generalizing s with
  | nil => exact .refl s
  | cons call rest ih => exact (ask_outlives hs call.1 call.2).trans (ih (hs.ask call.1 call.2))

/-- A refusal changes nothing. -/
theorem ask_refused {s : Store} (hs : s.WellFormed) {now : Instant} {c : Call}
    (h : (s.ask now c).1.refuses = true) : (s.ask now c).2 = s := by
  cases c with
  | completeTask id value =>
    change Note.refuses ⟨.completeTask id value, .ok (s.complete now id value).1⟩ = true at h
    rw [Note.refuses_completeTask, Bool.not_eq_true'] at h
    exact updateTask_refused hs h
  | failTask id =>
    change Note.refuses ⟨.failTask id, .ok (s.fail now id).1⟩ = true at h
    rw [Note.refuses_failTask, Bool.not_eq_true'] at h
    exact updateTask_refused hs h
  | _ =>
    unfold ask at h ⊢
    split at h <;> cases h

/-! ## Counting -/

/-- The notes and the row tell the same story of the task. -/
structure Accounted (notes : List Note) (r : TaskRow) : Prop where
  fails : r.retries = notes.countP (Note.fails r.id)
  leases : notes.countP (Note.leases r.id) =
    notes.countP (Note.fails r.id) + if r.isIn .pending then 0 else 1
  completes : notes.countP (Note.completes r.id) = if r.isIn .done then 1 else 0

/-- The notes tell the story of all tasks, and of nothing else. -/
structure Books (notes : List Note) (s : Store) : Prop where
  rows : ∀ r ∈ s.tasks, Accounted notes r
  others : ∀ id, (∀ r ∈ s.tasks, r.id ≠ id) → notes.countP (Note.fails id) = 0 ∧
    notes.countP (Note.leases id) = 0 ∧ notes.countP (Note.completes id) = 0

theorem books_empty : Books [] empty := by
  constructor <;> simp [empty]

theorem countP_note (p : Note → Bool) (notes : List Note) (n : Note) :
    (notes ++ [n]).countP p = notes.countP p + if p n then 1 else 0 := by
  rw [List.countP_append, List.countP_singleton]

theorem Turn.passes {n : Note} {r r' : TaskRow} (h : Turn n r r') {id : Int} (hid : r.id ≠ id) :
    n.Passes id := by
  cases h with
  | leased _ _ hk => exact ⟨by simpa [Note.leases, hk] using hid, rfl, rfl⟩
  | failed => exact ⟨rfl, by simpa [Note.fails] using hid, rfl⟩
  | completed => exact ⟨rfl, rfl, by simpa [Note.completes] using hid⟩

theorem Accounted.passes {notes : List Note} {n : Note} {r : TaskRow} (h : Accounted notes r)
    (hn : n.Passes r.id) : Accounted (notes ++ [n]) r := by
  obtain ⟨hleases, hfails, hcompletes⟩ := hn
  constructor
  · simpa [countP_note, hfails] using h.fails
  · simpa [countP_note, hfails, hleases] using h.leases
  · simpa [countP_note, hcompletes] using h.completes

@[simp] theorem move_id (r : TaskRow) (st : TaskStatus) (result : Option Float) (retries : Int)
    (stamp : String) : (r.move st result retries stamp).id = r.id := rfl

@[simp] theorem move_retries (r : TaskRow) (st : TaskStatus) (result : Option Float)
    (retries : Int) (stamp : String) : (r.move st result retries stamp).retries = retries := rfl

@[simp] theorem isIn_move (r : TaskRow) (st st' : TaskStatus) (result : Option Float)
    (retries : Int) (stamp : String) :
    (r.move st result retries stamp).isIn st' = decide (st = st') := by
  cases st <;> cases st' <;> rfl

/-- A turn is noted once. -/
theorem Accounted.turned {notes : List Note} {n : Note} {r r' : TaskRow} (h : Accounted notes r)
    (hturn : Turn n r r') : Accounted (notes ++ [n]) r' := by
  have hfails := h.fails
  have hleases := h.leases
  have hcompletes := h.completes
  rw [if_neg (Bool.eq_false_iff.1 hturn.not_done)] at hcompletes
  cases hturn with
  | leased stamp hst hk =>
    rw [if_pos hst] at hleases
    constructor <;> rw [countP_note]
    · simpa [Note.fails] using hfails
    · rw [countP_note]
      simpa [Note.fails, Note.leases, hk] using hleases
    · rw [move_id, hcompletes]
      rfl
  | failed stamp hst =>
    have hpending : r.isIn .pending ≠ true := fun hp => absurd (isIn_unique hst hp) (by decide)
    rw [if_neg hpending] at hleases
    constructor <;> rw [countP_note]
    · simp [Note.fails, hfails]
    · rw [countP_note]
      simpa [Note.fails, Note.leases] using hleases
    · rw [move_id, hcompletes]
      rfl
  | completed value stamp hst =>
    have hpending : r.isIn .pending ≠ true := fun hp => absurd (isIn_unique hst hp) (by decide)
    rw [if_neg hpending] at hleases
    constructor <;> rw [countP_note]
    · simpa [Note.fails] using hfails
    · rw [countP_note]
      simpa [Note.fails, Note.leases] using hleases
    · rw [move_id, hcompletes]
      simp [Note.completes]

/-- A task is new to notes that are not about it. -/
theorem accounted_new {notes : List Note} {r : TaskRow} (hpending : r.isIn .pending = true)
    (hretries : r.retries = 0)
    (hnew : notes.countP (Note.fails r.id) = 0 ∧ notes.countP (Note.leases r.id) = 0 ∧
      notes.countP (Note.completes r.id) = 0) : Accounted notes r := by
  obtain ⟨hfails, hleases, hcompletes⟩ := hnew
  have hdone : r.isIn .done ≠ true := fun hd => absurd (isIn_unique hpending hd) (by decide)
  constructor
  · rw [hretries, hfails]
    rfl
  · rw [hleases, hfails, if_pos hpending]
  · rw [hcompletes, if_neg hdone]

/-- What is unknown to the notes stays so with a note that is not about it. -/
theorem Books.others_note {notes : List Note} {s : Store} (h : Books notes s) {n : Note}
    {id : Int} (hn : n.Passes id) (hid : ∀ r ∈ s.tasks, r.id ≠ id) :
    (notes ++ [n]).countP (Note.fails id) = 0 ∧ (notes ++ [n]).countP (Note.leases id) = 0 ∧
      (notes ++ [n]).countP (Note.completes id) = 0 := by
  obtain ⟨hleases, hfails, hcompletes⟩ := hn
  simpa [countP_note, hleases, hfails, hcompletes] using h.others id hid

/-- A call and its note keep the books. -/
theorem Books.noted {notes : List Note} {n : Note} {s s' : Store} (h : Books notes s)
    (hs : s.WellFormed) (hn : Noted n s s') : Books (notes ++ [n]) s' := by
  cases hn with
  | aside hidle hrows =>
    constructor
    · rw [hrows]
      exact fun r hr => (h.rows r hr).passes (hidle r.id)
    · rw [hrows]
      exact fun id hid => h.others_note (hidle id) hid
  | @added r hidle hrows hid hpending hretries =>
    -- nothing was noted about the new identifier so far
    have hnew : ∀ x ∈ s.tasks, x.id ≠ r.id := by
      intro x hx
      have hle := hs.lastTask x hx
      omega
    constructor
    · rw [hrows]
      intro x hx
      rcases List.mem_append.1 hx with hx | hx
      · exact (h.rows x hx).passes (hidle x.id)
      · rw [List.mem_singleton] at hx
        subst hx
        exact accounted_new hpending hretries (h.others_note (hidle x.id) hnew)
    · rw [hrows]
      exact fun id hids =>
        h.others_note (hidle id) fun x hx => hids x (List.mem_append_left _ hx)
  | @turned r r' hturn hrows =>
    have hid := hturn.sameTask.id
    have hids : (s'.tasks.map TaskRow.id).Pairwise (· < ·) := hrows.map_eq hid.symm ▸ hs.taskIds
    constructor
    · intro x hx
      by_cases hxr : x.id = r.id
      · cases eq_of_pairwise hids hx hrows.mem_new (hxr.trans hid.symm)
        exact (h.rows r hrows.mem).turned hturn
      · rcases hrows.mem_old hx with hold | rfl
        · exact (h.rows x hold).passes (hturn.passes (Ne.symm hxr))
        · exact absurd hid hxr
    · intro id hids
      have hne : r.id ≠ id := by
        intro heq
        exact hids r' hrows.mem_new (hid.trans heq)
      refine h.others_note (hturn.passes hne) fun x hx => ?_
      by_cases hxr : x = r
      · rw [hxr]
        exact hne
      · exact hids x (hrows.mem_of_ne hx hxr)

/-- The books are kept along a whole history. -/
theorem Books.history {notes : List Note} {s : Store} (h : Books notes s) (hs : s.WellFormed)
    (calls : List (Instant × Call)) :
    Books (notes ++ (s.history calls).1) (s.history calls).2 := by
  induction calls generalizing notes s with
  | nil => simpa [Store.history] using h
  | cons call rest ih =>
    have hstep := h.noted hs (Store.noted hs call.1 call.2)
    have hrest := ih hstep (hs.ask call.1 call.2)
    rw [List.append_assoc, List.singleton_append] at hrest
    exact hrest

theorem Accounted.read {notes : List Note} {r : TaskRow} (h : Accounted notes r) (hr : r.Valid) :
    ∃ k, r.read = .ok k ∧ k.retries = min (notes.countP (Note.fails r.id)) (2 ^ 32 - 1) := by
  obtain ⟨k, hk⟩ := hr.exists_read
  refine ⟨k, hk, ?_⟩
  obtain ⟨op, -, rfl⟩ := TaskRow.read_eq_ok hk
  have hmax : maxRetries = 2 ^ 32 - 1 := rfl
  simp only [retriesOf, h.fails, hmax]
  split_ifs <;> omega

/-! ## The life of a task -/

/-- After any calls of a store that was empty at first, the notes account for every task.
Whatever is called later, each row is still there and about the same task, a finished task has
the very same row, and a refusal changes nothing. -/
theorem history_accounted {calls later : List (Instant × Call)} {notes notes' : List Note}
    {s s' : Store} (h : empty.history calls = (notes, s)) (h' : s.history later = (notes', s')) :
    (∀ r ∈ s.tasks,
      (∃ k, r.read = .ok k ∧ k.retries = min (notes.countP (Note.fails r.id)) (2 ^ 32 - 1)) ∧
      (notes.countP (Note.leases r.id) =
        notes.countP (Note.fails r.id) + if r.isIn .pending then 0 else 1) ∧
      (notes.countP (Note.completes r.id) = if r.isIn .done then 1 else 0) ∧
      ∃ r' ∈ s'.tasks, SameTask r r' ∧ (∀ x ∈ s'.tasks, x.id = r.id → x = r') ∧
        (r.isIn .done = true → r' = r)) ∧
    (∀ e ∈ s.expressions, ∃ e' ∈ s'.expressions, e'.id = e.id) ∧
    ∀ now c, (s.ask now c).1.refuses = true → (s.ask now c).2 = s := by
  have hs : s.WellFormed := by
    have hwell := wellFormed_empty.history calls
    rwa [h] at hwell
  have hs' : s'.WellFormed := by
    have hwell := hs.history later
    rwa [h'] at hwell
  have hbooks : Books notes s := by
    have hkept := books_empty.history wellFormed_empty calls
    rwa [h, List.nil_append] at hkept
  have houtlives : Outlives s s' := by
    have hkept := history_outlives hs later
    rwa [h'] at hkept
  refine ⟨fun r hr => ?_, houtlives.expressions, fun now c => ask_refused hs⟩
  have haccounted := hbooks.rows r hr
  obtain ⟨r', hr', hsame, hdone⟩ := houtlives.tasks r hr
  refine ⟨haccounted.read (hs.tasks r hr), haccounted.leases, haccounted.completes, r', hr', hsame,
    fun x hx hid => ?_, hdone⟩
  exact eq_of_pairwise hs'.taskIds hx hr' (hid.trans hsame.id.symm)

/-- Calls about the task of a sum: the first worker gives up, the second one finishes it and
then finishes it again. -/
def sumCalls : List (Instant × Call) :=
  [.createExpression "alice" "1+2", .createTask 1 .add 1 2 "", .lease, .failTask 1, .lease,
    .completeTask 1 3, .completeTask 1 4].map fun c => (.earliest, c)

/-- A worker gives up on the task after it was finished. -/
def sumLater : List (Instant × Call) := [(.earliest, .failTask 1)]

/-- The finished sum was put back once and given away twice, and stays as it is when somebody
gives up on it again. -/
theorem sum_history_accounted :
    ∃ r, (empty.history sumCalls).2.tasks = [r] ∧ r.isIn .done = true ∧
      (∃ k, r.read = .ok k ∧ k.retries = 1) ∧
      (empty.history sumCalls).1.countP (Note.leases r.id) = 2 ∧
      (empty.history sumCalls).1.countP (Note.completes r.id) = 1 ∧
      r ∈ ((empty.history sumCalls).2.history sumLater).2.tasks := by
  have hcalls : empty.history sumCalls = ((empty.history sumCalls).1, (empty.history sumCalls).2) :=
    rfl
  have hlater : (empty.history sumCalls).2.history sumLater =
      (((empty.history sumCalls).2.history sumLater).1,
        ((empty.history sumCalls).2.history sumLater).2) := rfl
  have hfacts : ∃ r, (empty.history sumCalls).2.tasks = [r] ∧ r.isIn .done = true ∧
      (empty.history sumCalls).1.countP (Note.fails r.id) = 1 := by
    refine ⟨_, rfl, ?_, ?_⟩ <;> decide +kernel
  obtain ⟨r, hrow, hdone, hfails⟩ := hfacts
  obtain ⟨hrows, -⟩ := history_accounted hcalls hlater
  obtain ⟨hread, hleases, hcompletes, r', hr', -, -, hlast⟩ := hrows r (by simp [hrow])
  have hnotPending : ¬r.isIn .pending = true := fun hp => absurd (isIn_unique hp hdone) (by decide)
  rw [hfails] at hread hleases
  rw [if_neg hnotPending] at hleases
  rw [if_pos hdone] at hcompletes
  exact ⟨r, hrow, hdone, hread, hleases, hcompletes, hlast hdone ▸ hr'⟩

end Piecework.Store
