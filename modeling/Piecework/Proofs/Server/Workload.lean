import Piecework.Proofs.Server.Intake

/-!
# Working off expressions

Agents run one after the other, in any order, and the passes that they cause are made in
between.  `Store.left` counts the operations that are left: for each expression the
operations of what its tree has come down to.

`InHand` is the invariant between two iterations.  Every task is finished or waits, and
every expression is settled, so if an operation is left then a task waits for it
(`InHand.left_eq_zero`).  Its operands are the ones of a ready operation, so it has a value
if the expression has one (`InHand.exists_value`).  When it is recorded the operation is
gone, and the pass that follows settles the expression again: `InHand.worked`.
-/

namespace Piecework

open Schedule

/-! ## One task is worked off -/

/-- A worker has leased a task, and its value was recorded. -/
def Worked (k : Task) (value : Float) (s s' : Store) : Prop :=
  ∃ k1 k2 s1, Store.Moves .lease k k1 ∧ Store.Moved k k1 s s1 ∧
    Store.Moves (.completeTask k1.id value) k1 k2 ∧ Store.Moved k1 k2 s1 s'

section Worked

variable {σ : Scope} {s s' : Store} {k : Task} {value : Float} {r : ExpressionRow} {t : Tree}
  {e : Int}

theorem Worked.sound (h : Worked k value s s') (hs : Sound σ s) : Sound σ s' := by
  obtain ⟨k1, k2, s1, hlease, hleased, hcomplete, hcompleted⟩ := h
  exact (hs.elsewhere (.moved hlease hleased)).elsewhere (.moved hcomplete hcompleted)

theorem Worked.expressions (h : Worked k value s s') : s'.expressions = s.expressions := by
  obtain ⟨k1, k2, s1, -, hleased, -, hcompleted⟩ := h
  exact hcompleted.expressions.trans hleased.expressions

theorem Worked.untouched (h : Worked k value s s') (he : e ≠ k.expressionId) :
    Untouched e s s' := by
  obtain ⟨k1, k2, s1, hlease, hleased, -, hcompleted⟩ := h
  exact (hleased.untouched he).trans (hcompleted.untouched (hlease.expressionId ▸ he))

/-- The task has waited for a worker. -/
theorem Worked.mem (h : Worked k value s s') :
    k ∈ s.tasksOf k.expressionId ∧ k.status = .pending := by
  obtain ⟨k1, k2, s1, hlease, hleased, -⟩ := h
  exact ⟨hleased.mem, hlease.pending⟩

/-- The finished task, among the tasks of its expression. -/
theorem Worked.exists_new (h : Worked k value s s') :
    ∃ k2 ∈ s'.tasksOf k.expressionId, k2.id = k.id := by
  obtain ⟨k1, k2, s1, hlease, -, hcomplete, hcompleted⟩ := h
  refine ⟨k2, ?_, hcomplete.later.id.trans hlease.later.id⟩
  rw [← hlease.expressionId]
  exact hcompleted.tasksOf.mem_new

/-- What holds of the other tasks and of the finished one holds of every task. -/
theorem Worked.allTasks {P : Task → Prop} (h : Worked k value s s') (hs : s'.WellFormed)
    (hall : s.AllTasks P)
    (hnew : ∀ k1 k2, Store.Moves .lease k k1 →
      Store.Moves (.completeTask k1.id value) k1 k2 → P k2) :
    s'.AllTasks P := by
  obtain ⟨k1, k2, s1, hlease, hleased, hcomplete, hcompleted⟩ := h
  have hid1 : k1.id = k.id := hlease.later.id
  have hid2 : k2.id = k.id := hcomplete.later.id.trans hid1
  -- in between, nothing is known of the task itself
  have hmost : s.AllTasks fun k' => k'.id = k.id ∨ P k' := fun e k' hk' => .inr (hall e k' hk')
  have hmost' := (hmost.moved hleased (.inl hid1)).moved hcompleted (.inl hid2)
  intro e k' hk'
  rcases hmost' e k' hk' with hid | hP
  · have hsame : k' = k2 := hs.eq_of_task_id hk' hcompleted.tasksOf.mem_new (hid.trans hid2.symm)
    rw [hsame]
    exact hnew k1 k2 hlease hcomplete
  · exact hP

/-- The operation of the task has given way to its value. -/
theorem Worked.refill (h : Worked k value s s') (hs : s.WellFormed) (hnumber : value.isNaN = false)
    (htracked : Tracked t (s.tasksOf k.expressionId)) :
    ∃ x ∈ (t.refill (s.tasksOf k.expressionId)).frontier, ∃ v,
      t.refill (s'.tasksOf k.expressionId) =
        (t.refill (s.tasksOf k.expressionId)).put x.path (.leaf v) := by
  obtain ⟨k1, k2, s1, hlease, hleased, hcomplete, hcompleted⟩ := h
  have hvalid := hs.valid_of_mem hleased.mem
  have hresult := hvalid.result_eq_none hlease.unfinished
  have hresult1 := (hlease.valid hvalid).result_eq_none hcomplete.unfinished
  have hsame : t.refill (s1.tasksOf k.expressionId) = t.refill (s.tasksOf k.expressionId) :=
    refill_replaces_of_none htracked.nodup hleased.tasksOf hlease.later.path hresult hresult1 t
  have htracked1 : Tracked t (s1.tasksOf k1.expressionId) := by
    rw [hlease.expressionId]
    exact htracked.moved hleased.tasksOf hlease.later hlease.unfinished (hlease.valid hvalid)
  obtain ⟨x, hx⟩ := Number.exists_columnFloat hnumber
  obtain ⟨hdone, hrecorded⟩ := hcomplete.recorded rfl
  obtain ⟨y, hy, -, hput⟩ := htracked1.refill_resolved hcompleted.tasksOf hcomplete.later hdone
    (hrecorded.trans hx) hresult1
  rw [hlease.expressionId, hsame] at hy hput
  exact ⟨y, hy, x, hput⟩

end Worked

/-! ## What is left -/

/-- The operations that are left of expressions, each given by its identifier and its tree. -/
def Store.left (work : List (Int × Tree)) (s : Store) : Nat :=
  (work.map fun w => (s.remaining w.1 w.2).operationCount).sum

/-- One summand is less by one. -/
theorem sum_map_add_one {α : Type} {l : List α} {key : α → Int} {f g : α → Nat} {x : α}
    (hnodup : (l.map key).Nodup) (hx : x ∈ l) (hone : g x + 1 = f x)
    (hothers : ∀ y ∈ l, key y ≠ key x → g y = f y) : (l.map g).sum + 1 = (l.map f).sum := by
  induction l with
  | nil => cases hx
  | cons y rest ih =>
    rw [List.map_cons, List.nodup_cons] at hnodup
    rw [List.map_cons, List.map_cons, List.sum_cons, List.sum_cons]
    rcases List.mem_cons.1 hx with rfl | hx
    · have hsame : rest.map g = rest.map f := by
        refine List.map_congr_left fun y hy => hothers y (List.mem_cons_of_mem _ hy) fun heq => ?_
        exact hnodup.1 (heq ▸ List.mem_map_of_mem hy)
      rw [hsame]
      omega
    · have hne : key y ≠ key x := fun heq => hnodup.1 (heq ▸ List.mem_map_of_mem hx)
      have hrest := ih hnodup.2 hx fun z hz => hothers z (List.mem_cons_of_mem _ hz)
      have hy := hothers y List.mem_cons_self hne
      omega

/-- A task between two iterations.  It is in nobody's hands, and it is finished if its
expression is not one of these. -/
structure Resting (ids : List Int) (k : Task) : Prop where
  idle : k.status ≠ .inProgress
  exact : k.expressionId ∈ ids → k.Exact ∧ k.Answered
  other : k.expressionId ∉ ids → k.status = .done

/-- What holds between two iterations. -/
structure InHand (base : Int) (work : List (Int × Tree)) (s : Store) : Prop where
  sound : Sound (.newer base) s
  unique : (work.map Prod.fst).Nodup
  newer : ∀ w ∈ work, base < w.1
  value : ∀ w ∈ work, ∃ v, w.2.evaluate = .ok v
  tasks : s.AllTasks (Resting (work.map Prod.fst))
  settled : ∀ w ∈ work, ∃ r ∈ s.expressions, r.id = w.1 ∧ r.Parses w.2 ∧ Settled r w.2 s

section InHand

variable {base : Int} {work : List (Int × Tree)} {w : Int × Tree} {s s' : Store} {k : Task}
  {e : Int}
  {value : Float}

/-- A task that waits is one of an expression that is being worked on. -/
theorem InHand.exists_work (h : InHand base work s) (hk : k ∈ s.tasksOf e)
    (hpending : k.status = .pending) : ∃ w ∈ work, w.1 = k.expressionId := by
  by_cases hmem : k.expressionId ∈ work.map Prod.fst
  · exact List.mem_map.1 hmem
  · have hdone := (h.tasks e k hk).other hmem
    rw [hpending] at hdone
    cases hdone

theorem InHand.tracked (h : InHand base work s) (hw : w ∈ work) : Tracked w.2 (s.tasksOf w.1) := by
  obtain ⟨r, hr, hid, hparses, -⟩ := h.settled w hw
  rw [← hid]
  exact (h.sound.scheduled r hr (hid ▸ h.newer w hw)).tracked w.2 hparses

theorem InHand.finite (h : InHand base work s) (hw : w ∈ work) : w.2.Finite := by
  obtain ⟨r, -, -, hparses, -⟩ := h.settled w hw
  exact Expr.finite_of_parse hparses

theorem InHand.exact (h : InHand base work s) (hw : w ∈ work) : ∀ k ∈ s.tasksOf w.1, k.Exact := by
  intro k hk
  refine ((h.tasks w.1 k hk).exact ?_).1
  rw [Store.expressionId_of_mem hk]
  exact List.mem_map_of_mem hw

/-- A task that waits is for a ready operation. -/
theorem InHand.exists_ready (h : InHand base work s) (hw : w ∈ work) (hk : k ∈ s.tasksOf w.1)
    (hpending : k.status = .pending) : ∃ x ∈ (s.remaining w.1 w.2).frontier, k.covers x = true := by
  have htracked := h.tracked hw
  rw [Store.remaining_eq]
  refine htracked.waiting k hk ((htracked.valid k hk).result_eq_none ?_)
  rw [hpending]
  decide

/-- A task that waits has a value, because its expression has one. -/
theorem InHand.exists_value (h : InHand base work s) (hk : k ∈ s.tasksOf e)
    (hpending : k.status = .pending) : ∃ v, k.operator.apply k.operand1 k.operand2 = .ok v := by
  obtain ⟨w, hw, hid⟩ := h.exists_work hk hpending
  have hk' : k ∈ s.tasksOf w.1 := by
    rw [hid, Store.expressionId_of_mem hk]
    exact hk
  obtain ⟨x, hx, hcovers⟩ := h.exists_ready hw hk' hpending
  obtain ⟨v, hv⟩ := h.value w hw
  have hagree := Tree.evaluate_refill (h.exact hw) (h.finite hw)
  rw [hv] at hagree
  obtain ⟨v', hv', -⟩ := Number.Agree.of_ok hagree
  rw [Store.remaining_eq] at hx
  obtain ⟨u, hu⟩ := Tree.exists_apply_of_mem_frontier hv' hx
  -- the operands of the task are the ones of the operation
  simp only [Task.covers, Task.computes, Bool.and_eq_true, beq_iff_eq] at hcovers
  obtain ⟨⟨⟨-, hop⟩, hlhs⟩, hrhs⟩ := hcovers
  have hsame := Number.apply_congr k.operator hlhs hrhs
  rw [hop, hu] at hsame
  obtain ⟨v, hv, -⟩ := Number.Agree.of_ok hsame
  exact ⟨v, hop ▸ hv⟩

/-- If no task waits, nothing is left to be done. -/
theorem InHand.left_eq_zero (h : InHand base work s)
    (hnone : ∀ e, ∀ k ∈ s.tasksOf e, k.status ≠ .pending) : s.left work = 0 := by
  refine List.sum_eq_zero_iff_forall_eq_nat.2 fun n hn => ?_
  obtain ⟨w, hw, rfl⟩ := List.mem_map.1 hn
  obtain ⟨r, -, hid, -, hsettled⟩ := h.settled w hw
  by_contra hne
  have hnode : (s.remaining r.id w.2).isLeaf = false := by
    rw [Bool.eq_false_iff]
    intro hleaf
    obtain ⟨v, hv⟩ := Tree.isLeaf_iff.1 hleaf
    rw [← hid, hv] at hne
    exact hne rfl
  obtain ⟨x, hx⟩ := Tree.exists_mem_frontier hnode
  obtain ⟨k, hk, -, hunfinished⟩ := (hsettled.inProgress hnode).2 x hx
  have hidle := (h.tasks _ k hk).idle
  have hpending := hnone _ k hk
  cases hstatus : k.status with
  | pending => exact hpending hstatus
  | inProgress => exact hidle hstatus
  | done => exact hunfinished hstatus

/-- When nothing was left of an expression, no task would wait for it. -/
theorem InHand.unfinished (h : InHand base work s) (hw : w ∈ work) (hk : k ∈ s.tasksOf w.1)
    (hpending : k.status = .pending) :
    ∃ r ∈ s.expressions, r.id = w.1 ∧ r.Parses w.2 ∧ r.isUnfinished = true := by
  obtain ⟨r, hr, hid, hparses, hsettled⟩ := h.settled w hw
  obtain ⟨x, hx, -⟩ := h.exists_ready hw hk hpending
  have hnode : (s.remaining r.id w.2).isLeaf = false := by
    rw [hid, Bool.eq_false_iff]
    intro hleaf
    rw [Tree.frontier_eq_nil_iff.2 hleaf] at hx
    cases hx
  obtain ⟨⟨r', hr', hid', hstatus⟩, -⟩ := hsettled.inProgress hnode
  cases h.sound.wellFormed.eq_of_id hr' hr hid'
  exact ⟨r, hr, hid, hparses, ExpressionRow.isUnfinished_iff.2 (.inr hstatus)⟩

/-- Recorded values are exact. -/
theorem InHand.allTasks_worked (h : InHand base work s) (hs' : s'.WellFormed)
    (hworked : Worked k value s s')
    (hvalue : k.operator.apply k.operand1 k.operand2 = .ok value) :
    s'.AllTasks (Resting (work.map Prod.fst)) := by
  refine hworked.allTasks hs' h.tasks fun k1 k2 hlease hcomplete => ?_
  obtain ⟨hdone, -⟩ := hcomplete.recorded rfl
  have hlater := hlease.later
  have hvalue1 : k1.operator.apply k1.operand1 k1.operand2 = .ok value := by
    rw [hlater.operator, hlater.operand1, hlater.operand2]
    exact hvalue
  refine ⟨by rw [hdone]; decide, fun _ => ⟨?_, ?_⟩, fun _ => hdone⟩
  · refine hcomplete.exact fun value' hcall => ?_
    cases hcall
    exact hvalue1
  · refine hcomplete.answered fun value' hcall => ?_
    cases hcall
    exact Number.isNaN_of_isFinite (Number.isFinite_of_apply hvalue)

/-- Neither the worker nor the pass touches another expression. -/
theorem Worked.untouched_after {s1 : Store} {r : ExpressionRow} (hworked : Worked k value s s1)
    (hid : k.expressionId = r.id) (hover : PassedOver (.newer base) r.id s1 s') (he : e ≠ r.id) :
    Untouched e s s' :=
  (hworked.untouched (hid ▸ he)).trans (hover.others e he)

/-- The pass after a finished task settles its expression. -/
theorem Brought.exists_settled {s1 : Store} {r : ExpressionRow} {steps : Float → List String}
    (hbrought : Brought r (w.2.refill (s1.tasksOf r.id)) steps s1 s')
    (hresting : s1.AllTasks (Resting (work.map Prod.fst))) (hmem : r.id ∈ work.map Prod.fst)
    (hown : base < r.id) (hparses : r.Parses w.2) (hover : PassedOver (.newer base) r.id s1 s') :
    ∃ r' ∈ s'.expressions, r'.id = r.id ∧ r'.Parses w.2 ∧ Settled r' w.2 s' := by
  obtain ⟨stamp, hrow⟩ := hbrought.row
  have hid : (r.concluded (w.2.refill (s1.tasksOf r.id)) steps stamp).id = r.id :=
    ExpressionRow.concluded_id stamp
  have hanswered : ∀ k ∈ s1.tasksOf r.id, k.Answered := fun k hk =>
    ((hresting r.id k hk).exact (by rw [Store.expressionId_of_mem hk]; exact hmem)).2
  have hsettled : Settled r w.2 s' := by
    refine hbrought.settled (hbrought.tracked hover.sound hown hparses) hanswered ?_ ?_ <;>
      rw [Store.remaining_eq]
    exact fun x hx => .inl hx
  refine ⟨_, hrow, hid, ?_, hsettled.congr hid⟩
  rw [ExpressionRow.Parses, ExpressionRow.concluded_source]
  exact hparses

/-- After the pass, everything is in hand again. -/
theorem InHand.brought {s1 : Store} {r : ExpressionRow} {steps : Float → List String}
    (h : InHand base work s) (hworked : Worked k value s s1)
    (hvalue : k.operator.apply k.operand1 k.operand2 = .ok value) (hw : w ∈ work)
    (hid : k.expressionId = r.id) (hrid : r.id = w.1) (hparses : r.Parses w.2)
    (hover : PassedOver (.newer base) r.id s1 s')
    (hbrought : Brought r (w.2.refill (s1.tasksOf r.id)) steps s1 s') : InHand base work s' := by
  have hresting := h.allTasks_worked (hworked.sound h.sound).wellFormed hworked hvalue
  have hmem : r.id ∈ work.map Prod.fst := hrid ▸ List.mem_map_of_mem hw
  have hown : base < r.id := hrid ▸ h.newer w hw
  refine ⟨hover.sound, h.unique, h.newer, h.value, ?_, fun w' hw' => ?_⟩
  · refine hbrought.allTasks hover hresting fun k x hx hk => ?_
    refine ⟨by rw [hx.status]; decide, fun _ => ?_, fun hnot => absurd (hk ▸ hmem) hnot⟩
    exact ⟨Task.exact_of_unfinished hx.unfinished, Task.answered_of_unfinished hx.unfinished⟩
  · by_cases heq : w'.1 = w.1
    · -- the expression of the pass
      have hsame : w' = w := List.inj_on_of_nodup_map h.unique hw' hw heq
      rw [hsame, ← hrid]
      exact hbrought.exists_settled hresting hmem hown hparses hover
    · obtain ⟨r', hr', hid', hparses', hsettled⟩ := h.settled w' hw'
      have huntouched : Untouched r'.id s s' :=
        hworked.untouched_after hid hover (by rw [hid', hrid]; exact heq)
      exact ⟨r', (huntouched.rows r' rfl).2 hr', hid', hparses', hsettled.untouched huntouched⟩

/-- One operation less is left after the pass. -/
theorem InHand.left_brought {s1 : Store} {r : ExpressionRow} {steps : Float → List String}
    (h : InHand base work s) (hworked : Worked k value s s1)
    (hvalue : k.operator.apply k.operand1 k.operand2 = .ok value) (hw : w ∈ work)
    (hid : k.expressionId = r.id) (hrid : r.id = w.1)
    (hover : PassedOver (.newer base) r.id s1 s')
    (hbrought : Brought r (w.2.refill (s1.tasksOf r.id)) steps s1 s') :
    s'.left work + 1 = s.left work := by
  have hnumber := Number.isNaN_of_isFinite (Number.isFinite_of_apply hvalue)
  have htracked : Tracked w.2 (s.tasksOf k.expressionId) := by
    rw [hid, hrid]
    exact h.tracked hw
  obtain ⟨x, hx, v, hput⟩ := hworked.refill h.sound.wellFormed hnumber htracked
  refine sum_map_add_one h.unique hw ?_ fun w' hw' hne => ?_
  · rw [← hrid, hbrought.remaining_eq, Store.remaining_eq, Store.remaining_eq, ← hid, hput]
    exact Tree.operationCount_put v hx
  · have huntouched : Untouched w'.1 s s' :=
      hworked.untouched_after hid hover (by rw [hrid]; exact hne)
    rw [huntouched.remaining_eq]

/-- One task is worked off and the pass after it is made. -/
theorem InHand.worked {site : Site} (h : InHand base work s) (hworked : Worked k value s site.store)
    (hvalue : k.operator.apply k.operand1 k.operand2 = .ok value) (hquiet : site.outages.Quiet) :
    (∃ st, (site.perform (passAfter k.id)).1 = .ok st) ∧
      (site.perform (passAfter k.id)).2.outages.Quiet ∧
      InHand base work (site.perform (passAfter k.id)).2.store ∧
      (site.perform (passAfter k.id)).2.store.left work + 1 = s.left work := by
  obtain ⟨hk, hpending⟩ := hworked.mem
  obtain ⟨w, hw, hid⟩ := h.exists_work hk hpending
  rw [← hid] at hk
  obtain ⟨r, hr, hrid, hparses, hunfinished⟩ := h.unfinished hw hk hpending
  have hat : At (.newer base) r site.store :=
    ⟨hworked.sound h.sound, hworked.expressions ▸ hr, hrid ▸ h.newer w hw⟩
  obtain ⟨k2, hk2, hid2⟩ := hworked.exists_new
  rw [← hid, ← hrid] at hk2
  obtain ⟨hresult, hover, hquiet', hbrought⟩ := passAfter_alone hat hquiet hunfinished hparses hk2
  rw [hid2] at hresult hover hquiet' hbrought
  have hparent : k.expressionId = r.id := hid.symm.trans hrid.symm
  exact ⟨hresult, hquiet', h.brought hworked hvalue hw hparent hrid hparses hover hbrought,
    h.left_brought hworked hvalue hw hparent hrid hover hbrought⟩

end InHand

end Piecework
