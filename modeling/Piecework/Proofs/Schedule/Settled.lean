import Piecework.Proofs.Schedule.Alone

/-!
# Settled expressions

An expression is settled when it shows its value, or when each of its ready operations has
a task that some worker has or will get.  A pass that starts from what its expression has
come down to settles it (`Brought.settled`), and what is done about other expressions
leaves it settled (`Settled.untouched`).
-/

namespace Piecework

open Schedule

/-- What the tree of an expression has come down to. -/
def Store.remaining (s : Store) (e : Int) (t : Tree) : Tree := t.refill (doneTasks (s.tasksOf e))

theorem Store.remaining_eq (s : Store) (e : Int) (t : Tree) :
    s.remaining e t = t.refill (s.tasksOf e) := t.refill_doneTasks _

/-- An operation is being taken care of: a task for it waits for a worker or is with one. -/
def Store.Awaits (s : Store) (e : Int) (x : Ready) : Prop :=
  ∃ k ∈ s.tasksOf e, k.covers x = true ∧ k.status ≠ .done

/-- An expression shows its value if it has one, and else each of its ready operations is being
taken care of. -/
structure Settled (r : ExpressionRow) (t : Tree) (s : Store) : Prop where
  done : ∀ v, s.remaining r.id t = .leaf v → ∃ r' ∈ s.expressions, r'.id = r.id ∧
    r'.status = ExpressionStatus.done.name ∧ r'.result = columnFloat v
  inProgress : (s.remaining r.id t).isLeaf = false →
    (∃ r' ∈ s.expressions, r'.id = r.id ∧ r'.status = ExpressionStatus.inProgress.name) ∧
      ∀ x ∈ (s.remaining r.id t).frontier, s.Awaits r.id x

section Settled

variable {σ : Scope} {r : ExpressionRow} {t tree : Tree} {steps : Float → List String}
  {s s' : Store}
  {x : Ready}

/-- Of the row only the identifier matters. -/
theorem Settled.congr {r' : ExpressionRow} (h : Settled r t s) (hid : r'.id = r.id) :
    Settled r' t s := by
  constructor <;> rw [hid]
  · exact h.done
  · exact h.inProgress

theorem Settled.shows_done (h : Settled r t s) (hs : s.WellFormed) (hr : r ∈ s.expressions)
    {v : Float} (hv : s.remaining r.id t = .leaf v) :
    r.status = ExpressionStatus.done.name ∧ r.result = columnFloat v := by
  obtain ⟨r', hr', hid, hstatus, hresult⟩ := h.done v hv
  cases hs.eq_of_id hr' hr hid
  exact ⟨hstatus, hresult⟩

theorem Settled.shows_inProgress (h : Settled r t s) (hs : s.WellFormed) (hr : r ∈ s.expressions)
    (hnode : (s.remaining r.id t).isLeaf = false) :
    r.status = ExpressionStatus.inProgress.name := by
  obtain ⟨⟨r', hr', hid, hstatus⟩, -⟩ := h.inProgress hnode
  cases hs.eq_of_id hr' hr hid
  exact hstatus

theorem Untouched.remaining_eq {e : Int} (h : Untouched e s s') (t : Tree) :
    s'.remaining e t = s.remaining e t := by
  rw [Store.remaining, Store.remaining, h.tasks]

theorem Settled.untouched (h : Settled r t s) (hu : Untouched r.id s s') : Settled r t s' := by
  have hremaining := hu.remaining_eq t
  refine ⟨fun v hv => hu.exists_row.2 (h.done v (hremaining.symm.trans hv)), fun hnode => ?_⟩
  rw [hremaining] at hnode ⊢
  obtain ⟨hrow, hawaits⟩ := h.inProgress hnode
  refine ⟨hu.exists_row.2 hrow, fun x hx => ?_⟩
  rw [Store.Awaits, hu.tasks]
  exact hawaits x hx

/-! ## What the row shows after a pass -/

theorem Sound.tracked_of_concluded {stamp : String} (hs : Sound σ s)
    (hrow : r.concluded tree steps stamp ∈ s.expressions) (hown : σ.own r.id) (ht : r.Parses t) :
    Tracked t (s.tasksOf r.id) := by
  have hid : (r.concluded tree steps stamp).id = r.id := ExpressionRow.concluded_id stamp
  have hsched := hs.scheduled _ hrow (hid.symm ▸ hown)
  rw [hid] at hsched
  refine hsched.tracked t ?_
  rw [ExpressionRow.Parses, ExpressionRow.concluded_source]
  exact ht

/-- The expression is settled if its row says what its tree has come down to and every ready
operation is being taken care of. -/
theorem settled_of_concluded {stamp : String} (hrow : r.concluded tree steps stamp ∈ s.expressions)
    (hvalue : tree.value? = (s.remaining r.id t).value?)
    (hawaits : ∀ x ∈ (s.remaining r.id t).frontier, s.Awaits r.id x) : Settled r t s := by
  rw [ExpressionRow.concluded, hvalue] at hrow
  refine ⟨fun v hv => ?_, fun hnode => ⟨?_, hawaits⟩⟩
  · rw [hv] at hrow
    exact ⟨_, hrow, rfl, rfl, rfl⟩
  · rw [Tree.isLeaf_eq_false_iff] at hnode
    obtain ⟨op, a, b, hnode⟩ := hnode
    rw [hnode] at hrow
    exact ⟨_, hrow, rfl, rfl⟩

/-! ## What a pass has brought an expression to -/

theorem Brought.remaining_eq (h : Brought r tree steps s s') :
    s'.remaining r.id t = s.remaining r.id t := by
  obtain ⟨new, htasks, hnew⟩ := h.tasks
  rw [Store.remaining_eq, Store.remaining_eq, htasks]
  refine refill_append_unfinished fun k hk => ?_
  obtain ⟨x, -, hissued⟩ := hnew k hk
  exact hissued.unfinished

theorem Brought.answered (h : Brought r tree steps s s')
    (hanswered : ∀ k ∈ s.tasksOf r.id, k.Answered) : ∀ k ∈ s'.tasksOf r.id, k.Answered := by
  obtain ⟨new, htasks, hnew⟩ := h.tasks
  intro k hk
  rw [htasks, List.mem_append] at hk
  rcases hk with hk | hk
  · exact hanswered k hk
  · obtain ⟨x, -, hissued⟩ := hnew k hk
    exact fun hdone => absurd hdone hissued.unfinished

theorem Brought.tracked (h : Brought r tree steps s s') (hs' : Sound σ s') (hown : σ.own r.id)
    (ht : r.Parses t) : Tracked t (s'.tasksOf r.id) := by
  obtain ⟨stamp, hrow⟩ := h.row
  exact hs'.tracked_of_concluded hrow hown ht

/-- A task that was being taken care of still is. -/
theorem Brought.awaits (h : Brought r tree steps s s') (hx : s.Awaits r.id x) :
    s'.Awaits r.id x := by
  obtain ⟨new, htasks, -⟩ := h.tasks
  obtain ⟨k, hk, hcovers, hstatus⟩ := hx
  exact ⟨k, by rw [htasks]; exact List.mem_append_left _ hk, hcovers, hstatus⟩

/-- The expression is settled if the tree of the pass shows what the results have brought the
source to. -/
theorem Brought.settled (h : Brought r tree steps s s') (htracked : Tracked t (s'.tasksOf r.id))
    (hanswered : ∀ k ∈ s.tasksOf r.id, k.Answered)
    (hvalue : tree.value? = (s.remaining r.id t).value?)
    (hfound : ∀ x ∈ (s.remaining r.id t).frontier, x ∈ tree.frontier ∨ s.Awaits r.id x) :
    Settled r t s' := by
  obtain ⟨stamp, hrow⟩ := h.row
  refine settled_of_concluded hrow (h.remaining_eq.symm ▸ hvalue) fun x hx => ?_
  rcases hfound x (by rwa [← h.remaining_eq]) with hmem | hawaits
  · obtain ⟨k, hk, hcovers⟩ := h.covered x hmem
    rw [Store.remaining_eq] at hx
    exact ⟨k, hk, hcovers,
      htracked.unfinished_of_covers hk (h.answered hanswered k hk) hx hcovers⟩
  · exact h.awaits hawaits

end Settled

end Piecework
