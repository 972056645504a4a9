import Mathlib.Data.List.Basic
import Mathlib.Data.List.TakeWhile
import Mathlib.Tactic.Common
import Piecework.Proofs.Expr.Agreement
import Piecework.Proofs.Expr.Frontier
import Piecework.Store.Row

/-!
# Rows as the store writes them

A row of the table of tasks can hold any texts.  The rows that the store itself writes
are `Valid`: the operator and the state are names, and only a finished task has a
result.  Such a row reads as a task whose state is the one that the store compares.

An update changes one row and leaves the others where they are.  `Replaces` says so for
lists in general, and `map_eq_of_unique` finds the row by an identifier.
-/

namespace Piecework

/-! ## Texts without NUL -/

@[simp]
theorem columnText_symbol (op : Operator) : columnText op.symbol = op.symbol := by
  cases op <;> decide

@[simp]
theorem columnText_taskStatus (st : TaskStatus) : columnText st.name = st.name := by
  cases st <;> decide

@[simp]
theorem columnText_expressionStatus (st : ExpressionStatus) : columnText st.name = st.name := by
  cases st <;> decide

/-- A column gives back the whole of a text without NUL. -/
theorem columnText_of_not_mem {s : String} (h : '\x00' ∉ s.toList) : columnText s = s := by
  have htake : s.toList.takeWhile (· != '\x00') = s.toList := by
    rw [List.takeWhile_eq_self_iff]
    intro c hc
    rw [bne_iff_ne]
    rintro rfl
    exact h hc
  rw [columnText, htake, String.ofList_toList]

/-- A path is written in letters. -/
@[simp]
theorem columnText_path (p : Path) : columnText p.text = p.text := by
  refine columnText_of_not_mem fun hmem => ?_
  rw [Path.text, String.toList_ofList] at hmem
  obtain ⟨side, -, hletter⟩ := List.mem_map.1 hmem
  cases side <;> cases hletter

theorem TaskStatus.name_injective : Function.Injective TaskStatus.name := by
  intro a b h
  rw [← ofStored_name a, h, ofStored_name]

theorem Operator.ofSymbol_symbol (op : Operator) : ofSymbol op.symbol = .ok op := by
  rw [ofSymbol, ofSymbol?_symbol]

/-! ## One element of a list -/

section Replaces

variable {α β : Type} {a b : α} {l l' : List α}

/-- One element of a list makes room for another one. -/
def Replaces (a b : α) (l l' : List α) : Prop :=
  ∃ front back, l = front ++ a :: back ∧ l' = front ++ b :: back

theorem Replaces.mem (h : Replaces a b l l') : a ∈ l := by
  obtain ⟨front, back, rfl, -⟩ := h
  simp

theorem Replaces.mem_new (h : Replaces a b l l') : b ∈ l' := by
  obtain ⟨front, back, -, rfl⟩ := h
  simp

theorem Replaces.map_eq {f : α → β} (h : Replaces a b l l') (hf : f a = f b) :
    l.map f = l'.map f := by
  obtain ⟨front, back, rfl, rfl⟩ := h
  simp [hf]

theorem Replaces.forall_mem {P : α → Prop} (h : Replaces a b l l') (hl : ∀ x ∈ l, P x) (hb : P b) :
    ∀ x ∈ l', P x := by
  obtain ⟨front, back, rfl, rfl⟩ := h
  simp only [List.mem_append, List.mem_cons] at hl ⊢
  rintro x (hx | rfl | hx)
  · exact hl x (.inl hx)
  · exact hb
  · exact hl x (.inr (.inr hx))

/-- What stood in the list before, apart from the element itself, still does. -/
theorem Replaces.mem_of_ne (h : Replaces a b l l') {x : α} (hx : x ∈ l) (hne : x ≠ a) : x ∈ l' := by
  obtain ⟨front, back, rfl, rfl⟩ := h
  simp only [List.mem_append, List.mem_cons] at hx ⊢
  rcases hx with hx | rfl | hx
  · exact .inl hx
  · exact absurd rfl hne
  · exact .inr (.inr hx)

/-- Anything else in the list stood there before. -/
theorem Replaces.mem_old (h : Replaces a b l l') {x : α} (hx : x ∈ l') : x ∈ l ∨ x = b := by
  obtain ⟨front, back, rfl, rfl⟩ := h
  simp only [List.mem_append, List.mem_cons] at hx ⊢
  tauto

theorem Replaces.filterMap {f : α → Option β} {x y : β} (h : Replaces a b l l')
    (ha : f a = some x) (hb : f b = some y) : Replaces x y (l.filterMap f) (l'.filterMap f) := by
  obtain ⟨front, back, rfl, rfl⟩ := h
  refine ⟨front.filterMap f, back.filterMap f, ?_, ?_⟩
  · rw [List.filterMap_append, List.filterMap_cons_some ha]
  · rw [List.filterMap_append, List.filterMap_cons_some hb]

theorem Replaces.filterMap_eq {f : α → Option β} (h : Replaces a b l l') (ha : f a = none)
    (hb : f b = none) : l.filterMap f = l'.filterMap f := by
  obtain ⟨front, back, rfl, rfl⟩ := h
  rw [List.filterMap_append, List.filterMap_append, List.filterMap_cons_none ha,
    List.filterMap_cons_none hb]

/-- Where identifiers are unique, changing the selected rows changes one row at most. -/
theorem map_eq_of_unique {key : α → Int} (selected : α → Bool) (change : α → α) {i : Int}
    (hselected : ∀ x, selected x = true → key x = i) (hkeys : (l.map key).Pairwise (· < ·)) :
    (l.any selected = false ∧ (l.map fun x => if selected x then change x else x) = l) ∨
      ∃ x, selected x = true ∧ l.any selected = true ∧
        Replaces x (change x) l (l.map fun x => if selected x then change x else x) := by
  induction l with
  | nil => exact .inl ⟨rfl, rfl⟩
  | cons x rest ih =>
    rw [List.map_cons, List.pairwise_cons] at hkeys
    by_cases hx : selected x = true
    · -- no other row has this identifier
      have hrest : (rest.map fun y => if selected y then change y else y) = rest := by
        conv_rhs => rw [← List.map_id rest]
        refine List.map_congr_left fun y hy => ?_
        rw [if_neg, id]
        intro hsel
        have hlt := hkeys.1 (key y) (List.mem_map_of_mem hy)
        rw [hselected y hsel, hselected x hx] at hlt
        exact absurd hlt (Int.lt_irrefl _)
      refine .inr ⟨x, hx, by simp [hx], [], rest, rfl, ?_⟩
      rw [List.map_cons, if_pos hx, hrest, List.nil_append]
    · rcases ih hkeys.2 with ⟨hnone, hsame⟩ | ⟨y, hy, hany, front, back, hl, hl'⟩
      · refine .inl ⟨by simp [hx, hnone], ?_⟩
        rw [List.map_cons, if_neg hx, hsame]
      · refine .inr ⟨y, hy, by simp [hany], x :: front, back, by rw [hl, List.cons_append], ?_⟩
        rw [List.map_cons, if_neg hx, hl', List.cons_append]

end Replaces

/-! ## Rows of tasks -/

namespace TaskRow

/-- The row is as the store writes it. -/
structure Valid (r : TaskRow) : Prop where
  operator : ∃ op : Operator, r.operator = op.symbol
  status : ∃ st : TaskStatus, r.status = st.name
  operands : r.operand1.isNaN = false ∧ r.operand2.isNaN = false
  number : ∀ v, r.result = some v → v.isNaN = false
  finished : ∀ v, r.result = some v → r.status = TaskStatus.done.name

/-- The row after its task has changed hands. -/
def move (st : TaskStatus) (result : Option Float) (retries : Int) (stamp : String) (r : TaskRow) :
    TaskRow :=
  { r with status := st.name, result, retries, updatedAt := stamp }

theorem read_eq_ok {r : TaskRow} {k : Task} (h : r.read = .ok k) :
    ∃ op, Operator.ofSymbol (columnText r.operator) = .ok op ∧
      k = ⟨r.id, r.expressionId, op, r.operand1, r.operand2, columnText r.path, r.result,
        .ofStored (columnText r.status), retriesOf r.retries,
        Time.ofStamp (columnText r.createdAt), Time.ofStamp (columnText r.updatedAt)⟩ := by
  unfold read at h
  split at h
  · cases h
  · rename_i op hop
    cases h
    exact ⟨op, hop, rfl⟩

theorem Valid.exists_read {r : TaskRow} (h : r.Valid) : ∃ k, r.read = .ok k := by
  obtain ⟨op, hop⟩ := h.operator
  unfold read
  rw [hop, columnText_symbol, Operator.ofSymbol_symbol]
  exact ⟨_, rfl⟩

theorem id_of_read {r : TaskRow} {k : Task} (h : r.read = .ok k) : k.id = r.id := by
  obtain ⟨op, -, rfl⟩ := read_eq_ok h
  rfl

theorem createdAt_of_read {r : TaskRow} {k : Task} (h : r.read = .ok k) :
    k.createdAt = Time.ofStamp (columnText r.createdAt) := by
  obtain ⟨op, -, rfl⟩ := read_eq_ok h
  rfl

theorem expressionId_of_read {r : TaskRow} {k : Task} (h : r.read = .ok k) :
    k.expressionId = r.expressionId := by
  obtain ⟨op, -, rfl⟩ := read_eq_ok h
  rfl

/-- The state that the store compares is the state that the row reads as. -/
theorem Valid.status_eq_iff {r : TaskRow} {k : Task} (h : r.Valid) (hk : r.read = .ok k)
    (st : TaskStatus) : r.status = st.name ↔ k.status = st := by
  obtain ⟨st', hst⟩ := h.status
  obtain ⟨op, -, rfl⟩ := read_eq_ok hk
  rw [hst, columnText_taskStatus, TaskStatus.ofStored_name, TaskStatus.name_injective.eq_iff]

theorem Valid.isIn_iff {r : TaskRow} {k : Task} (h : r.Valid) (hk : r.read = .ok k)
    (st : TaskStatus) : r.isIn st = true ↔ k.status = st := by
  rw [isIn, beq_iff_eq, h.status_eq_iff hk]

theorem read_move {r : TaskRow} {k : Task} (h : r.read = .ok k) (st : TaskStatus)
    (result : Option Float) (retries : Int) (stamp : String) :
    (r.move st result retries stamp).read =
      .ok { k with
        status := st
        result
        retries := retriesOf retries
        updatedAt := Time.ofStamp (columnText stamp) } := by
  obtain ⟨op, hop, rfl⟩ := read_eq_ok h
  unfold read
  simp only [move, hop, columnText_taskStatus, TaskStatus.ofStored_name]

/-- A row stays valid when a result comes with the final state only. -/
theorem Valid.move {r : TaskRow} (h : r.Valid) {st : TaskStatus} {result : Option Float}
    (hnumber : ∀ v, result = some v → v.isNaN = false)
    (hfinished : ∀ v, result = some v → st = .done) (retries : Int) (stamp : String) :
    (r.move st result retries stamp).Valid :=
  ⟨h.operator, ⟨st, rfl⟩, h.operands, hnumber,
    fun v hv => congrArg TaskStatus.name (hfinished v hv)⟩

end TaskRow

/-! ## Tasks as they are read -/

/-- A task whose row the store has written. -/
structure Task.Valid (k : Task) : Prop where
  operands : k.operand1.isNaN = false ∧ k.operand2.isNaN = false
  number : ∀ v, k.result = some v → v.isNaN = false
  finished : ∀ v, k.result = some v → k.status = .done

/-- Only a finished task has a result. -/
theorem Task.Valid.result_eq_none {k : Task} (h : k.Valid) (hunfinished : k.status ≠ .done) :
    k.result = none := by
  rw [Option.eq_none_iff_forall_ne_some]
  exact fun v hv => hunfinished (h.finished v hv)

theorem TaskRow.Valid.task {r : TaskRow} {k : Task} (h : r.Valid) (hk : r.read = .ok k) :
    k.Valid := by
  have hstatus := h.status_eq_iff hk
  obtain ⟨op, -, rfl⟩ := read_eq_ok hk
  exact ⟨h.operands, h.number, fun v hv => (hstatus .done).1 (h.finished v hv)⟩

/-! ## Rows of expressions -/

namespace ExpressionRow

theorem read_eq_ok {r : ExpressionRow} {e : Expression} (h : r.read = .ok e) :
    e.id = r.id ∧ e.source = columnText r.source ∧ e.status = .ofStored (columnText r.status) := by
  unfold read at h
  split at h
  · cases h
  · cases h
    exact ⟨rfl, rfl, rfl⟩

/-- Only steps can make a row unreadable. -/
theorem exists_read {r : ExpressionRow} (h : r.steps = none) : ∃ e, r.read = .ok e := by
  unfold read
  rw [h]
  exact ⟨_, rfl⟩

theorem status_of_read {r : ExpressionRow} {e : Expression} (h : r.read = .ok e)
    {st : ExpressionStatus} (hst : r.status = st.name) : e.status = st := by
  rw [(read_eq_ok h).2.2, hst, columnText_expressionStatus, ExpressionStatus.ofStored_name]

theorem isUnfinished_iff {r : ExpressionRow} : r.isUnfinished = true ↔
    r.status = ExpressionStatus.pending.name ∨ r.status = ExpressionStatus.inProgress.name := by
  simp [isUnfinished]

end ExpressionRow

end Piecework
