import Piecework.Proofs.Schedule.Sequence
import Piecework.Proofs.System.Value

/-!
# One task for each operation, in order

Whatever is interleaved, refused, cut off or started again, no operation is handed out twice
and none is handed out before the operations below it were computed.

Each event keeps the tasks of every expression in order (`inOrder_step`), and the tasks of a
sound system are tracked, which keeps their paths apart.  `tasks_once_in_order` reads both off
at the end of a run.
-/

namespace Piecework.System

variable {faults : Prop} {y y' : System}

theorem inOrder_step {event : Event} (h : InOrder y.store) (hsound : y.Sound faults)
    (hstep : Step faults y event y') : InOrder y'.store := by
  have hchanged := hsound.changed hstep
  generalize y'.store = s at hchanged ⊢
  cases hchanged with
  | kept => exact h
  | elsewhere he => exact h.elsewhere hsound.store.wellFormed he
  | effect _ he => exact h.effect hsound.store.wellFormed he
  | lost => exact inOrder_empty

theorem inOrder_run {admits : System → Event → Prop} (h : Run faults admits start y) :
    y.Sound faults ∧ InOrder y.store :=
  (sound_start faults).closed (P := fun y => InOrder y.store) inOrder_empty h
    fun hsound horder _ hstep => inOrder_step horder hsound hstep

/-- In every run, whatever fails and whatever is cut off, an expression with a task has a
source that parses.  Its tasks have different paths.  Each one stands for the operation at its
path, and every operation strictly below has an older task, which is finished and has a
result.  So there are at most as many tasks as operations, and no row of a task is left out. -/
theorem tasks_once_in_order (h : Run True (fun _ _ => True) start y) {r : ExpressionRow}
    (hr : r ∈ y.store.expressions) :
    ((y.store.tasks.filter (·.expressionId == r.id)) ≠ [] →
        ∃ t, Expr.parse (columnText r.source) = .ok t) ∧
      ∀ t, Expr.parse (columnText r.source) = .ok t →
        (y.store.tasks.filter (·.expressionId == r.id)).length =
            (y.store.tasksOf r.id).length ∧
          (y.store.tasksOf r.id).length ≤ t.operationCount ∧
          ((y.store.tasksOf r.id).map Task.path).Nodup ∧
          ∀ k ∈ y.store.tasksOf r.id, ∃ p : Path, k.path = p.text ∧
            (∃ left right, t.at? p = some (.node k.operator left right)) ∧
            ∀ (q : Path) op left right, q ≠ [] → t.at? (p ++ q) = some (.node op left right) →
              ∃ k' ∈ y.store.tasksOf r.id, k'.path = Path.text (p ++ q) ∧ k'.id < k.id ∧
                k'.status = .done ∧ ∃ v, k'.result = some v := by
  obtain ⟨hsound, horder⟩ := inOrder_run h
  have hwell := hsound.store.wellFormed
  have hsched := hsound.store.scheduled r hr trivial
  have hlength := hwell.length_tasksOf r.id
  refine ⟨fun htasks => hsched.parsed ?_, fun t ht => ?_⟩
  · rwa [← List.length_pos_iff, hlength, List.length_pos_iff]
  · have htracked := hsched.tracked t ht
    refine ⟨hlength.symm, htracked.length_le, htracked.nodup, fun k hk => ?_⟩
    obtain ⟨p, left, right, hpath, hat⟩ := htracked.place k hk
    exact ⟨p, hpath, ⟨left, right, hat⟩, fun q op left right =>
      horder r hr t ht k hk p q op left right hpath⟩

/-! ## A product of a sum and a difference -/

/-- The store after a completion and the pass that follows it. -/
def finished (id : Int) (value : Float) (s : Store) : Store :=
  (Site.perform (Schedule.passAfter id) ⟨next (.completeTask id value) s, Site.dawn, []⟩).2.store

/-- The sum and the difference were handed out. -/
def productIssued : Store :=
  (Site.perform (Schedule.firstPass 1 "(1+2)*(3-4)")
    ⟨next (.createExpression "alice" "(1+2)*(3-4)") .empty, Site.dawn, []⟩).2.store

/-- The difference was completed before the sum, and the product was handed out. -/
def productHalf : Store :=
  finished 1 3 (finished 2 (-1) (next .lease (next .lease productIssued)))

/-- The product was completed, too. -/
def productDone : Store := finished 3 (-3) (next .lease productHalf)

/-- The tree of the product. -/
def product : Tree :=
  .node .mul (.node .add (.leaf 1) (.leaf 2)) (.node .sub (.leaf 3) (.leaf 4))

theorem leased_run (s : Store) :
    Run True (fun _ _ => True) ⟨s, [], none⟩ ⟨next .lease s, [], none⟩ :=
  serve_next (y := ⟨s, [], none⟩) rfl trivial

theorem finished_run (id : Int) (value : Float) (s : Store) :
    Run True (fun _ _ => True) ⟨s, [], none⟩ ⟨finished id value s, [], none⟩ := by
  have hcomplete : Run True (fun _ _ => True) ⟨s, [], none⟩
      ⟨next (.completeTask id value) s, [], none⟩ :=
    serve_next (y := ⟨s, [], none⟩) rfl trivial
  exact hcomplete.trans (perform_run (y := ⟨next (.completeTask id value) s, [], none⟩)
    (fun _ _ _ => trivial) (.after id) ⟨_, Site.dawn, []⟩ (.inl trivial) rfl rfl trivial)

theorem productHalf_run : Run True (fun _ _ => True) start ⟨productHalf, [], none⟩ := by
  have hsubmit : Run True (fun _ _ => True) start
      ⟨next (.createExpression "alice" "(1+2)*(3-4)") .empty, [], none⟩ :=
    serve_next (y := start) rfl trivial
  have hrow : ∃ r ∈ (next (.createExpression "alice" "(1+2)*(3-4)") .empty).expressions,
      r.id = 1 ∧ "(1+2)*(3-4)" = columnText r.source := by
    decide
  obtain ⟨r, hr, hid, hsource⟩ := hrow
  have hissue : Run True (fun _ _ => True) _ ⟨productIssued, [], none⟩ :=
    perform_run (y := ⟨next (.createExpression "alice" "(1+2)*(3-4)") .empty, [], none⟩)
      (fun _ _ _ => trivial) (.first 1 "(1+2)*(3-4)") ⟨_, Site.dawn, []⟩ (.inl trivial) rfl rfl
      ⟨r, hr, hid, .inl hsource⟩
  have hleased := (leased_run productIssued).trans (leased_run _)
  have hfinished := (finished_run 2 (-1) (next .lease (next .lease productIssued))).trans
    (finished_run 1 3 _)
  exact ((hsubmit.trans hissue).trans hleased).trans hfinished

theorem productDone_run : Run True (fun _ _ => True) start ⟨productDone, [], none⟩ :=
  productHalf_run.trans ((leased_run productHalf).trans (finished_run 3 (-3) _))

/-- The three tasks of the product.  The one of the difference was finished before the one of the
product was handed out. -/
theorem product_tasks_once_in_order :
    Run True (fun _ _ => True) start ⟨productHalf, [], none⟩ ∧
      ∃ r ∈ productHalf.expressions, Expr.parse (columnText r.source) = .ok product ∧
        ((productHalf.tasksOf r.id).map Task.path).Nodup ∧
        ∃ k ∈ productHalf.tasksOf r.id, k.path = Path.text [] ∧ k.operator = .mul ∧
          ∃ k' ∈ productHalf.tasksOf r.id, k'.path = Path.text [.right] ∧ k'.id < k.id ∧
            k'.status = .done ∧ ∃ v, k'.result = some v := by
  have hrow : ∃ r ∈ productHalf.expressions, Expr.parse (columnText r.source) = .ok product ∧
      ∃ k ∈ productHalf.tasksOf r.id, k.path = Path.text [] ∧ k.operator = .mul := by
    decide +kernel
  obtain ⟨r, hr, hparse, k, hk, hpath, hop⟩ := hrow
  obtain ⟨-, htree⟩ := tasks_once_in_order productHalf_run hr
  obtain ⟨-, -, hnodup, hplaces⟩ := htree product hparse
  obtain ⟨p, hp, -, hbelow⟩ := hplaces k hk
  obtain rfl : p = [] := Path.text_injective (hp.symm.trans hpath)
  exact ⟨productHalf_run, r, hr, hparse, hnodup, k, hk, hpath, hop,
    hbelow [.right] .sub (.leaf 3) (.leaf 4) (by decide) rfl⟩

end Piecework.System
