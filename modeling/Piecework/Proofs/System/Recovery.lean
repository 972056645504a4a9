import Piecework.Proofs.Schedule.Settled
import Piecework.Proofs.System.Value

/-!
# Recovery

A recovery makes a pass over every unfinished expression.  Whatever was cut off before, no
call of these passes can be refused, and the passes do not touch each other's expressions
(`resumeAll_alone`), so an expression ends where its own pass has brought it.

The two kinds of passes differ in what they start from.  A later pass folds in the results
that are there, and leaves the expression `Settled`.  A first pass does not: it takes an
expression that is still pending for one without results.  If its operations were finished
in the meantime, no task is left that could bring another pass, and the expression shows
no value although one is there.  `recover_settles_iff` says when an expression is settled.
-/

namespace Piecework

open Schedule

/-- The pass of a recovery finds out what there is to find out: it is a later pass, there is
nothing to compute, or it finds the operations that are ready now among those that were ready
at first. -/
def CatchesUp (r : ExpressionRow) (t : Tree) (s : Store) : Prop :=
  r.status = ExpressionStatus.inProgress.name ∨ t.isLeaf = true ∨
    (s.remaining r.id t).isLeaf = false ∧
      ∀ x ∈ (s.remaining r.id t).frontier, x ∈ t.frontier ∨ s.Awaits r.id x

/-- What the pass of a recovery has brought an expression to. -/
def Resumed (e : Expression) (s s' : Store) : Prop :=
  ∀ r ∈ s.expressions, r.id = e.id → ∀ t, r.Parses t → ∃ steps,
    Brought r (if e.status = .pending then t else s.remaining r.id t) steps s s'

section Resumed

variable {σ : Scope} {e : Expression} {s s' s'' : Store} {site : Site}

theorem Resumed.after (h : Untouched e.id s s') (h' : Resumed e s' s'') : Resumed e s s'' := by
  intro r hr hid t ht
  have hsame : s'.tasksOf r.id = s.tasksOf r.id := hid ▸ h.tasks
  obtain ⟨steps, hbrought⟩ := h' r ((h.rows r hid).2 hr) hid t ht
  rw [Store.remaining, hsame] at hbrought
  exact ⟨steps, by rw [← hsame]; exact hbrought.tasks, hbrought.covered, hbrought.row⟩

theorem Resumed.before (h : Resumed e s s') (h' : Untouched e.id s' s'') : Resumed e s s'' := by
  intro r hr hid t ht
  have hsame : s''.tasksOf r.id = s'.tasksOf r.id := hid ▸ h'.tasks
  obtain ⟨steps, hbrought⟩ := h r hr hid t ht
  obtain ⟨stamp, hrow⟩ := hbrought.row
  refine ⟨steps, by rw [hsame]; exact hbrought.tasks, by rw [hsame]; exact hbrought.covered,
    stamp, (h'.rows _ ?_).2 hrow⟩
  rw [← hid]
  unfold ExpressionRow.concluded
  split <;> rfl

/-- A pass of a recovery. -/
theorem resume_alone (hs : Sound σ site.store) (hown : σ.own e.id) (hquiet : site.outages.Quiet)
    (hlisted : Listed site.store e) :
    PassedOver σ e.id site.store (site.perform (resume e)).2.store ∧
      (site.perform (resume e)).2.outages.Quiet ∧
      Resumed e site.store (site.perform (resume e)).2.store := by
  obtain ⟨r, hr, hid, hsource, hparsed⟩ := hlisted
  have hat : At σ r site.store := ⟨hs, hr, hid ▸ hown⟩
  have honly : ∀ r' ∈ site.store.expressions, r'.id = e.id → r' = r := fun r' hr' hid' =>
    hs.wellFormed.eq_of_id hr' hr (hid'.trans hid.symm)
  unfold resume
  split_ifs with hstatus
  · obtain ⟨hover, hquiet', hbrought⟩ := firstPass_alone hat hquiet hsource
    rw [hid] at hover hquiet' hbrought
    refine ⟨hover, hquiet', fun r' hr' hid' t ht => ?_⟩
    cases honly r' hr' hid'
    rw [if_pos hstatus]
    exact ⟨_, hbrought t ht⟩
  · obtain ⟨t, ht, hnode⟩ := hparsed hstatus
    obtain ⟨hover, hquiet', hbrought⟩ := laterPass_alone hat hquiet hid.symm hsource ht hnode
    rw [hid] at hover
    refine ⟨hover, hquiet', fun r' hr' hid' t' ht' => ?_⟩
    cases honly r' hr' hid'
    cases ht.unique ht'
    rw [if_neg hstatus, Store.remaining_eq]
    exact ⟨_, hbrought⟩

/-- The passes of a recovery do not touch each other's expressions. -/
theorem resumeAll_alone (listed : List Expression) (hs : Sound σ site.store) (hown : ∀ i, σ.own i)
    (hquiet : site.outages.Quiet) (hlisted : ∀ e ∈ listed, Listed site.store e)
    (hnodup : (listed.map Expression.id).Nodup) :
    (site.perform (resumeAll listed)).1 = .ok () ∧
      Sound σ (site.perform (resumeAll listed)).2.store ∧
      (∀ i, i ∉ listed.map Expression.id →
        Untouched i site.store (site.perform (resumeAll listed)).2.store) ∧
      ∀ e ∈ listed, Resumed e site.store (site.perform (resumeAll listed)).2.store := by
  induction listed generalizing site with
  | nil => exact ⟨rfl, hs, fun i _ => .refl i _, by simp⟩
  | cons e rest ih =>
    rw [List.map_cons, List.nodup_cons] at hnodup
    obtain ⟨hover, hquiet', hresumed⟩ :=
      resume_alone hs (hown e.id) hquiet (hlisted e List.mem_cons_self)
    have hperform : site.perform (resumeAll (e :: rest)) =
        (site.perform (resume e)).2.perform (resumeAll rest) := by
      change site.perform ((resume e).attempt >>= fun _ => resumeAll rest) = _
      rw [Program.attempt_bind, Site.perform_andThen]
    obtain ⟨hresult, hsound, huntouched, hrest⟩ := ih hover.sound hquiet'
      (fun e' he' => (hlisted e' (List.mem_cons_of_mem _ he')).sameTexts hover.texts) hnodup.2
    rw [hperform]
    refine ⟨hresult, hsound, fun i hi => ?_, fun e' he' => ?_⟩
    · rw [List.map_cons, List.mem_cons, not_or] at hi
      exact (hover.others i hi.1).trans (huntouched i hi.2)
    · rcases List.mem_cons.1 he' with rfl | he'
      · exact hresumed.before (huntouched _ hnodup.1)
      · refine (hrest e' he').after (hover.others _ ?_)
        rintro heq
        exact hnodup.1 (heq ▸ List.mem_map_of_mem he')

/-- A recovery lists the unfinished expressions and makes its passes over them. -/
theorem recover_alone (hs : Sound σ site.store) (hown : ∀ i, σ.own i)
    (hquiet : site.outages.Quiet) :
    (site.perform recover).1 = .ok site.store.unfinished.length ∧
      Sound σ (site.perform recover).2.store ∧
      ∀ e ∈ site.store.unfinished, Resumed e site.store (site.perform recover).2.store := by
  obtain ⟨now, listed, site', hquiet', heq, hcall⟩ := Site.perform_answered (c := .listUnfinished)
    (fun listed => do resumeAll listed; pure listed.length) hquiet fun now => ⟨_, _, rfl⟩
  obtain ⟨hlisted, hstore⟩ := Prod.mk.inj (Except.ok.inj heq)
  subst hlisted
  have hs' : Sound σ site'.store := hstore ▸ hs
  obtain ⟨hresult, hsound, -, hresumed⟩ := resumeAll_alone site.store.unfinished hs' hown hquiet'
    (fun e he => hstore ▸ hs.listed hown he) hs.wellFormed.nodup_unfinished
  have hperform : site.perform recover = (.ok site.store.unfinished.length,
      (site'.perform (resumeAll site.store.unfinished)).2) := by
    refine Eq.trans hcall ?_
    change Site.perform (Program.andThen _ _) _ = _
    rw [Site.perform_andThen, hresult]
    rfl
  rw [hperform]
  exact ⟨rfl, hsound, fun e he => hstore.symm ▸ hresumed e he⟩

end Resumed

/-! ## What is found out -/

section Caught

variable {σ : Scope} {r : ExpressionRow} {t tree : Tree} {steps : Float → List String}
  {s s' : Store}
  {tasks new : List Task} {x : Ready} {k : Task}

/-- A first pass over an operation settles the expression only if it finds the operations that
are ready now. -/
theorem Brought.catchesUp (h : Brought r t steps s s') (hs' : s'.WellFormed)
    (htracked : Tracked t (s'.tasksOf r.id)) (hnode : t.isLeaf = false)
    (hsettled : Settled r t s') :
    (s.remaining r.id t).isLeaf = false ∧
      ∀ x ∈ (s.remaining r.id t).frontier, x ∈ t.frontier ∨ s.Awaits r.id x := by
  obtain ⟨stamp, hrow⟩ := h.row
  obtain ⟨op, a, b, rfl⟩ := Tree.isLeaf_eq_false_iff.1 hnode
  have hremaining : (s.remaining r.id (.node op a b)).isLeaf = false := by
    rw [Bool.eq_false_iff]
    intro hleaf
    obtain ⟨v, hv⟩ := Tree.isLeaf_iff.1 hleaf
    -- the row says that the expression is under way
    obtain ⟨r', hr', hid, hdone, -⟩ := hsettled.done v (by rw [h.remaining_eq, hv])
    cases hs'.eq_of_id hr' hrow hid
    change ExpressionStatus.inProgress.name = ExpressionStatus.done.name at hdone
    exact absurd hdone (by decide)
  refine ⟨hremaining, fun x hx => ?_⟩
  rw [← h.remaining_eq] at hremaining hx
  obtain ⟨k, hk, hcovers, hstatus⟩ := (hsettled.inProgress hremaining).2 x hx
  obtain ⟨new, htasks, hnew⟩ := h.tasks
  have hk' := hk
  rw [htasks, List.mem_append] at hk'
  rcases hk' with hold | hk'
  · exact .inr ⟨k, hold, hcovers, hstatus⟩
  · -- the task is new, so the pass has found the operation
    obtain ⟨y, hy, hissued⟩ := hnew k hk'
    have hpath : x.path = y.path :=
      Path.text_injective ((Task.path_of_covers hcovers).symm.trans hissued.path)
    rw [Store.remaining_eq] at hx
    have hy' := htracked.mem_frontier_of_issued hk hy hissued
    rw [Tree.eq_of_mem_frontier hx hy' hpath]
    exact .inl hy

/-- When a pass of a recovery settles an expression. -/
theorem Resumed.settled_iff {e : Expression} (h : Resumed e s s') (hs' : Sound σ s')
    (hown : σ.own r.id) (hanswered : ∀ k ∈ s.tasksOf r.id, k.Answered) (hr : r ∈ s.expressions)
    (hunfinished : r.isUnfinished = true) (hread : r.read = .ok e) (ht : r.Parses t) :
    Settled r t s' ↔ CatchesUp r t s := by
  have hid : r.id = e.id := (ExpressionRow.read_eq_ok hread).1.symm
  obtain ⟨steps, hbrought⟩ := h r hr hid t ht
  have htracked := hbrought.tracked hs' hown ht
  rw [ExpressionRow.isUnfinished_iff] at hunfinished
  rcases hunfinished with hpending | hprogress
  · have hstatus : e.status = .pending := ExpressionRow.status_of_read hread hpending
    rw [if_pos hstatus] at hbrought
    constructor
    · intro hsettled
      by_cases hleaf : t.isLeaf = true
      · exact .inr (.inl hleaf)
      · rw [Bool.not_eq_true] at hleaf
        exact .inr (.inr (hbrought.catchesUp hs'.wellFormed htracked hleaf hsettled))
    · rintro (hprogress | hleaf | ⟨hnode, hfound⟩)
      · exact absurd (hpending.symm.trans hprogress) (by decide)
      · obtain ⟨v, rfl⟩ := Tree.isLeaf_iff.1 hleaf
        exact hbrought.settled htracked hanswered rfl fun x hx => .inl hx
      · refine hbrought.settled htracked hanswered ?_ hfound
        rw [Option.not_isSome_iff_eq_none.1 (Bool.eq_false_iff.1 hnode)]
        cases t with
        | leaf v => cases hnode
        | node op a b => rfl
  · have hstatus : e.status = .inProgress := ExpressionRow.status_of_read hread hprogress
    rw [if_neg (by rw [hstatus]; decide)] at hbrought
    exact ⟨fun _ => .inl hprogress, fun _ =>
      hbrought.settled htracked hanswered rfl fun x hx => .inl hx⟩

end Caught

namespace System

/-- Submitted results are numbers. -/
def Numeric (_ : System) (event : Event) : Prop :=
  ∀ id value, event = .serve (.completeTask id value) → value.isNaN = false

variable {faults : Prop} {y y' : System}

/-- A task in a final state has a result, whatever happens. -/
theorem answered_step {event : Event} (h : Store.AllTasks Task.Answered y.store)
    (hsound : y.Sound faults)
    (hnumeric : Numeric y event) (hstep : Step faults y event y') :
    Store.AllTasks Task.Answered y'.store := by
  refine allTasks_step h hsound hstep (fun _ => Task.answered_of_unfinished) ?_
  rintro c k k' rfl hk hmoves
  refine hmoves.answered ?_
  rintro value rfl
  exact hnumeric k.id value rfl

/-- A recovery that is carried out at once meets with no failure of its own, and of the
unfinished expressions that parse it settles exactly those that it catches up with. -/
theorem recover_settles (site : Site) (hs : Piecework.Sound (scope faults) site.store)
    (hanswered : Store.AllTasks Task.Answered site.store) (hquiet : site.outages.Quiet) :
    (site.perform recover).1 = .ok site.store.unfinished.length ∧
      ∀ r ∈ site.store.expressions, r.isUnfinished = true → ∀ t, r.Parses t →
        (Settled r t (site.perform recover).2.store ↔ CatchesUp r t site.store) := by
  obtain ⟨hresult, hs', hresumed⟩ := recover_alone hs (fun _ => trivial) hquiet
  refine ⟨hresult, fun r hr hunfinished t ht => ?_⟩
  obtain ⟨e, hread, -⟩ := At.read_of_unfinished ⟨hs, hr, trivial⟩ hunfinished
  have he := Store.mem_unfinished.2 ⟨r, hr, hunfinished, hread⟩
  exact (hresumed e he).settled_iff hs' trivial (hanswered r.id) hr hunfinished hread ht

/-- What the invariants of a run say of a recovery. -/
theorem Run.sound_answered (h : Run faults Numeric start y) :
    y.Sound faults ∧ Store.AllTasks Task.Answered y.store :=
  (sound_start faults).closed (P := fun y => Store.AllTasks Task.Answered y.store)
    Store.allTasks_empty h
    fun hsound hanswered hnumeric hstep => answered_step hanswered hsound hnumeric hstep

/-! ## Sums whose last pass was not made -/

theorem sumCompleted_numeric {plans : Outages} (hfails : faults ∨ plans.Quiet) :
    Run faults Numeric start ⟨sumCompleted plans, [], none⟩ := by
  refine sumCompleted_run hfails ?_ ?_ ?_
  · rintro y event hpass id value rfl
    rcases hpass with ⟨pass, h⟩ | h | h <;> cases h
  · rintro y c hc id value h
    cases h
    exact absurd rfl (hc id value)
  · rintro id value h
    cases h
    decide

/-- The call that marks the sum fails in its first pass. -/
def cutOff : Outages := [(.setStatus, ⟨0, 1, .query "disk I/O error"⟩)]

/-- The row of the sum that was cut off. -/
def strandedRow : ExpressionRow :=
  ⟨1, "alice", "1+2", "pending", none, none, Site.dawn.stamp, Site.dawn.stamp⟩

/-! ## What is settled -/

/-- Whatever was cut off before, a recovery that is carried out at once meets with no failure
of its own, and of the unfinished expressions that parse it settles exactly those that it
catches up with. -/
theorem recover_settles_iff (h : Run True Numeric start y) (site : Site)
    (hstore : site.store = y.store) (hquiet : site.outages.Quiet) :
    (site.perform recover).1 = .ok y.store.unfinished.length ∧
      ∀ r ∈ y.store.expressions, r.isUnfinished = true → ∀ t, r.Parses t →
        (Settled r t (site.perform recover).2.store ↔ CatchesUp r t y.store) := by
  obtain ⟨hsound, hanswered⟩ := h.sound_answered
  rw [← hstore] at hanswered ⊢
  exact recover_settles site (hstore ▸ hsound.store) hanswered hquiet

/-- The sum is settled if only its last pass is missing. -/
theorem sum_recover_settles_iff :
    (Site.perform recover ⟨sumCompleted [], Site.dawn, []⟩).1 = .ok 1 ∧
      Settled sumRow (.node .add (.leaf 1) (.leaf 2))
        (Site.perform recover ⟨sumCompleted [], Site.dawn, []⟩).2.store := by
  obtain ⟨hresult, hiff⟩ := recover_settles_iff (sumCompleted_numeric (.inr Outages.quiet_nil))
    ⟨sumCompleted [], Site.dawn, []⟩ rfl Outages.quiet_nil
  refine ⟨hresult.trans (by decide), ?_⟩
  exact (hiff sumRow (by decide) (by decide) _ (parses_sum rfl)).2 (.inl rfl)

/-- A sum whose first pass was cut off has its value already, and a recovery does not find it. -/
theorem sum_stranded : Run True Numeric start ⟨sumCompleted cutOff, [], none⟩ ∧
    strandedRow ∈ (sumCompleted cutOff).expressions ∧
      strandedRow.Parses (.node .add (.leaf 1) (.leaf 2)) ∧
      (sumCompleted cutOff).remaining 1 (.node .add (.leaf 1) (.leaf 2)) = .leaf 3 ∧
      ¬Settled strandedRow (.node .add (.leaf 1) (.leaf 2))
        (Site.perform recover ⟨sumCompleted cutOff, Site.dawn, []⟩).2.store := by
  have hrun : Run True Numeric start ⟨sumCompleted cutOff, [], none⟩ :=
    sumCompleted_numeric (.inl trivial)
  have hmem : strandedRow ∈ (sumCompleted cutOff).expressions := by decide
  have hvalue : (sumCompleted cutOff).remaining 1 (.node .add (.leaf 1) (.leaf 2)) = .leaf 3 := by
    decide
  refine ⟨hrun, hmem, parses_sum rfl, hvalue, fun hsettled => ?_⟩
  obtain ⟨hsound, hanswered⟩ := hrun.sound_answered
  obtain ⟨-, hiff⟩ := recover_settles ⟨sumCompleted cutOff, Site.dawn, []⟩ hsound.store
    hanswered Outages.quiet_nil
  rcases (hiff _ hmem (by decide) _ (parses_sum rfl)).1 hsettled with h | h | ⟨hnode, -⟩
  · exact absurd h (by decide)
  · cases h
  · change Tree.isLeaf ((sumCompleted cutOff).remaining 1 _) = false at hnode
    rw [hvalue] at hnode
    cases hnode

end System

end Piecework
