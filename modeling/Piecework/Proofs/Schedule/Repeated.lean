import Piecework.Proofs.Expr.Display
import Piecework.Proofs.Schedule.Undisturbed

/-!
# Passes that are made again

The pass after a task may be made any number of times: after each notification that the task
is finished, however often that comes, and once more when a call of it has failed.

* `failed_pass_repaired`: wherever a pass was cut off, the next pass over the expression brings
  it to where a single pass would have brought it.
* `notified_any_order`: after any number of passes it only matters which expressions they
  were made over, not for which of their tasks, in which order or how often.

Both compare what the store holds on an expression apart from identifiers and stamps.
-/

namespace Piecework

open Schedule

/-! ## The expression of a task -/

section TaskOf

variable {s s' : Store} {rows : List TaskRow} {i e : Int}

theorem Store.TaskOf.append (h : s.TaskOf i e) (htasks : s'.tasks = s.tasks ++ rows) :
    s'.TaskOf i e := by
  obtain ⟨k, hk, hid⟩ := h
  refine ⟨k, ?_, hid⟩
  rw [Store.task?] at hk ⊢
  rw [htasks, List.find?_append]
  cases hfind : s.tasks.find? (·.id == i) with
  | none =>
    rw [hfind] at hk
    cases hk
  | some r => rwa [hfind] at hk

/-- A task that was not known before is among the new ones. -/
theorem Store.TaskOf.of_append (h : s'.TaskOf i e) (htasks : s'.tasks = s.tasks ++ rows) :
    s.TaskOf i e ∨ ∃ r ∈ rows, r.expressionId = e := by
  obtain ⟨k, hk, hid⟩ := h
  rw [Store.task?, htasks, List.find?_append] at hk
  cases hfind : s.tasks.find? (·.id == i) with
  | some r =>
    rw [hfind] at hk
    exact .inl ⟨k, by rw [Store.task?, hfind]; exact hk, hid⟩
  | none =>
    rw [hfind, Option.none_or] at hk
    cases hnew : rows.find? (·.id == i) with
    | none =>
      rw [hnew] at hk
      cases hk
    | some r =>
      rw [hnew, Store.readFound] at hk
      have hread : r.read = .ok k := by
        cases hread : r.read with
        | error err =>
          rw [hread] at hk
          cases hk
        | ok k' =>
          rw [hread] at hk
          cases hk
          rfl
      have hexpr : r.expressionId = e := (TaskRow.expressionId_of_read hread).symm.trans hid
      exact .inr ⟨r, List.mem_of_find?_eq_some hnew, hexpr⟩

theorem Store.TaskOf.iff_eq {e' : Int} (h : s.TaskOf i e) : s.TaskOf i e' ↔ e' = e :=
  ⟨fun h' => h'.unique h, fun heq => heq ▸ h⟩

theorem Store.not_taskOf (h : s.task? i = .ok none) : ¬s.TaskOf i e := by
  rintro ⟨k, hk, -⟩
  cases h.symm.trans hk

end TaskOf

/-! ## A pass that was cut off -/

/-- A pass that no failure is planned for takes its expression as far as it goes. -/
theorem view_passAfter {site : Site} (hquiet : site.outages.Quiet) {i e : Int}
    (h : site.store.TaskOf i e) :
    (site.perform (passAfter i)).2.store.view e = (site.store.view e).advance := by
  obtain ⟨⟨hran, -⟩, -⟩ := (passAfter_undisturbed False i site.store).perform site hquiet
  exact (hran e h).view.resolve_right fun hcut => hcut.1

/-- Whatever failures are planned, a pass changes nothing about where its expression will be
taken. -/
theorem advance_passAfter (site : Site) {i e : Int} (h : site.store.TaskOf i e) :
    ((site.perform (passAfter i)).2.store.view e).advance = (site.store.view e).advance := by
  obtain ⟨hran, -⟩ := (passAfter_undisturbed True i site.store).perform_failing site trivial
  rcases (hran e h).view with hview | ⟨-, hcut⟩
  · rw [hview, View.advance_advance]
  · exact hcut.advance_eq

/-- A task that was known stays known. -/
theorem Store.TaskOf.passAfter {site : Site} {i j e : Int} (h : site.store.TaskOf j e) :
    (site.perform (passAfter i)).2.store.TaskOf j e := by
  obtain ⟨hran, hidle⟩ := (passAfter_undisturbed True i site.store).perform_failing site trivial
  by_cases hof : ∃ e', site.store.TaskOf i e'
  · obtain ⟨e', he'⟩ := hof
    obtain ⟨rows, htasks, -⟩ := (hran e' he').tasks
    exact h.append htasks
  · push Not at hof
    rwa [hidle hof]

/-- A pass that was cut off wherever a call may fail is made up for by the next pass over the
expression: its tasks and its row are then the ones that a single pass makes of it. -/
theorem failed_pass_repaired {site again clean : Site} {e i j k : Int} (hi : site.store.TaskOf i e)
    (hagain : again.store = (site.perform (passAfter i)).2.store) (hquiet : again.outages.Quiet)
    (hj : again.store.TaskOf j e) (hclean : clean.store = site.store)
    (hquiet' : clean.outages.Quiet) (hk : site.store.TaskOf k e) :
    (again.perform (passAfter j)).2.store.view e =
      (clean.perform (passAfter k)).2.store.view e := by
  have hk' : clean.store.TaskOf k e := by rwa [hclean]
  calc (again.perform (passAfter j)).2.store.view e
      = (again.store.view e).advance := view_passAfter hquiet hj
    _ = (site.store.view e).advance := by rw [hagain, advance_passAfter site hi]
    _ = (clean.perform (passAfter k)).2.store.view e := by
        rw [view_passAfter hquiet' hk', hclean]

/-- The tree of `(((1+2)*3)+((4+5)*6))`. -/
def products : Tree :=
  .node .add (.node .mul (.node .add (.leaf 1) (.leaf 2)) (.leaf 3))
    (.node .mul (.node .add (.leaf 4) (.leaf 5)) (.leaf 6))

/-- The row of the expression when a pass is due over it. -/
def productsRow : ExpressionRow :=
  ⟨1, "alice", "(((1+2)*3)+((4+5)*6))", "in_progress", none, none, "", ""⟩

/-- Both sums have their results, and no product has its task. -/
def sumsDone : Store :=
  ⟨[⟨1, 1, "+", 1, 2, "LL", some 3, "done", 0, "", ""⟩,
      ⟨2, 1, "+", 4, 5, "RL", some 9, "done", 1, "", ""⟩], [productsRow], 2, 1⟩

/-- The second of the two new tasks cannot be created. -/
def sumsFailing : Site := ⟨sumsDone, Site.dawn, [(.createTask, ⟨1, 1, .query "disk I/O error"⟩)]⟩

theorem parse_products : Expr.parse "(((1+2)*3)+((4+5)*6))" = .ok products := by
  have htext : "(((1+2)*3)+((4+5)*6))".toList = products.chars := by decide +kernel
  have hfinite : products.Finite := by
    simp only [products, Tree.Finite, Tree.Every]
    decide +kernel
  exact Expr.parse_of_chars htext hfinite

/-- Both products are due. -/
theorem products_advance :
    (sumsDone.view 1).advance.tasks.map TaskRow.path = ["LL", "RL", "L", "R"] := by
  have htext : columnText productsRow.source = "(((1+2)*3)+((4+5)*6))" := by decide +kernel
  have hplan : productsRow.bare.plan (sumsDone.view 1).tasks =
      .toward (sumsDone.tasksOf 1) (products.refill (doneTasks (sumsDone.tasksOf 1))) := by
    rw [plan_view, htext, Plan.ofText, parse_products]
  rw [View.advance_of_due (r := productsRow.bare) rfl rfl, View.carryOut, hplan]
  decide +kernel

/-- Whatever the first pass came to, both products have a task in the end. -/
theorem products_repaired : sumsDone.TaskOf 1 1 ∧ sumsDone.TaskOf 2 1 ∧
    (Site.perform (passAfter 2)
        ⟨(sumsFailing.perform (passAfter 1)).2.store, Site.dawn, []⟩).2.store.view 1 =
      (Site.perform (passAfter 1) ⟨sumsDone, Site.dawn, []⟩).2.store.view 1 ∧
    ((Site.perform (passAfter 1) ⟨sumsDone, Site.dawn, []⟩).2.store.view 1).tasks.map
      TaskRow.path = ["LL", "RL", "L", "R"] := by
  have hone : sumsFailing.store.TaskOf 1 1 := ⟨_, rfl, rfl⟩
  have htwo : sumsFailing.store.TaskOf 2 1 := ⟨_, rfl, rfl⟩
  have hagain : (sumsFailing.perform (passAfter 1)).2.store.TaskOf 2 1 := htwo.passAfter
  refine ⟨hone, htwo, ?_, ?_⟩
  · exact failed_pass_repaired hone rfl Outages.quiet_nil hagain rfl Outages.quiet_nil hone
  · have hview : (Site.perform (passAfter 1) ⟨sumsDone, Site.dawn, []⟩).2.store.view 1 =
        (sumsDone.view 1).advance := view_passAfter Outages.quiet_nil hone
    rw [hview, products_advance]

/-! ## Any number of passes -/

/-- Makes the pass after each of the tasks, one after the other. -/
def Site.notified (ids : List Int) (site : Site) : Site :=
  ids.foldl (fun site i => (site.perform (passAfter i)).2) site

/-- Passes were made over certain expressions, and over no others. -/
structure Visited (these : Int → Prop) (s s' : Store) : Prop where
  advanced : ∀ e, these e → s'.view e = (s.view e).advance
  others : ∀ e, ¬these e → s'.rowsOf e = s.rowsOf e
  tasks : ∃ rows, s'.tasks = s.tasks ++ rows ∧ ∀ k ∈ rows, these k.expressionId

theorem Visited.congr {these those : Int → Prop} {s s' : Store} (h : Visited these s s')
    (hsame : ∀ e, these e ↔ those e) : Visited those s s' := by
  rwa [← funext fun e => propext (hsame e)]

/-- One more pass. -/
theorem Visited.pass {these : Int → Prop} {s : Store} {site : Site}
    (h : Visited these s site.store) (hquiet : site.outages.Quiet) (i : Int) :
    Visited (fun e => these e ∨ s.TaskOf i e) s (site.perform (passAfter i)).2.store := by
  obtain ⟨⟨hran, hidle⟩, -⟩ :=
    (passAfter_undisturbed False i site.store).perform site hquiet
  obtain ⟨rows, htasks, hrows⟩ := h.tasks
  by_cases hof : ∃ e, site.store.TaskOf i e
  · obtain ⟨e, he⟩ := hof
    obtain ⟨hview, hothers, rows', htasks', hrows'⟩ := hran e he
    -- the expression is one of them, or is so from now on
    have hthese : these e ∨ s.TaskOf i e := by
      rcases he.of_append htasks with hknown | ⟨r, hr, rfl⟩
      · exact .inr hknown
      · exact .inl (hrows r hr)
    have honly : ∀ e', s.TaskOf i e' → e' = e := fun e' he' => (he'.append htasks).unique he
    refine ⟨fun e' he' => ?_, fun e' hnot => ?_, rows ++ rows', ?_, ?_⟩
    · by_cases heq : e' = e
      · rw [heq, hview.resolve_right fun hcut => hcut.1]
        by_cases hseen : these e
        · rw [h.advanced e hseen, View.advance_advance]
        · rw [Store.view_congr (h.others e hseen)]
      · rw [Store.view_congr (hothers e' heq)]
        exact h.advanced e' (he'.resolve_right fun hi => heq (honly e' hi))
    · have hne : e' ≠ e := by
        rintro rfl
        exact hnot hthese
      rw [hothers e' hne]
      exact h.others e' fun hseen => hnot (.inl hseen)
    · rw [htasks', htasks, List.append_assoc]
    · intro k hk
      rcases List.mem_append.1 hk with hk | hk
      · exact .inl (hrows k hk)
      · rw [hrows' k hk]
        exact hthese
  · push Not at hof
    rw [hidle hof]
    refine h.congr fun e => (or_iff_left fun he => ?_).symm
    exact hof e (he.append htasks)

/-- Any number of passes. -/
theorem Visited.notified {these : Int → Prop} {s : Store} {site : Site}
    (h : Visited these s site.store) (hquiet : site.outages.Quiet) (ids : List Int) :
    Visited (fun e => these e ∨ ∃ i ∈ ids, s.TaskOf i e) s (site.notified ids).store := by
  induction ids generalizing these site with
  | nil => exact h.congr fun e => by simp
  | cons i rest ih =>
    refine (ih (h.pass hquiet i) (Site.perform_quiet _ hquiet)).congr fun e => ?_
    rw [List.exists_mem_cons_iff, or_assoc]

theorem Site.visited_notified {site : Site} (hquiet : site.outages.Quiet) (ids : List Int) :
    Visited (fun e => ∃ i ∈ ids, site.store.TaskOf i e) site.store (site.notified ids).store := by
  have hnone : Visited (fun _ => False) site.store site.store :=
    ⟨fun _ h => h.elim, fun _ _ => rfl, [], (List.append_nil _).symm, by simp⟩
  exact (hnone.notified hquiet ids).congr fun e => or_iff_right id

/-- Two sequences of passes, over tasks of the same expressions in any order and any number,
leave every expression with the same tasks and the same state, result and steps.  Tasks that
nobody knows may be among them.  Other expressions stay as they are, with all their tasks. -/
theorem notified_any_order {site site' : Site} (hstore : site'.store = site.store)
    (hquiet : site.outages.Quiet) (hquiet' : site'.outages.Quiet) {ids ids' : List Int}
    (hsame : ∀ e, (∃ i ∈ ids, site.store.TaskOf i e) ↔ ∃ i ∈ ids', site.store.TaskOf i e) :
    (∀ e, (site.notified ids).store.view e = (site'.notified ids').store.view e) ∧
      ∀ e, (¬∃ i ∈ ids, site.store.TaskOf i e) →
        (site.notified ids).store.rowsOf e = site.store.rowsOf e ∧
          (site'.notified ids').store.rowsOf e = site.store.rowsOf e := by
  have hleft := Site.visited_notified hquiet ids
  have hright : Visited (fun e => ∃ i ∈ ids, site.store.TaskOf i e) site.store
      (site'.notified ids').store := by
    have h := Site.visited_notified hquiet' ids'
    rw [hstore] at h
    exact h.congr fun e => (hsame e).symm
  refine ⟨fun e => ?_, fun e hnot => ⟨hleft.others e hnot, hright.others e hnot⟩⟩
  by_cases hvisited : ∃ i ∈ ids, site.store.TaskOf i e
  · rw [hleft.advanced e hvisited, hright.advanced e hvisited]
  · rw [Store.view_congr (hleft.others e hvisited), Store.view_congr (hright.others e hvisited)]

/-- Beside the sums, an expression that has come down to a number, and one that waits. -/
def threeRunning : Store :=
  ⟨sumsDone.tasks ++ [⟨3, 2, "+", 1, 2, "", some 3, "done", 0, "", ""⟩,
      ⟨4, 3, "-", 2, 1, "", none, "pending", 0, "", ""⟩],
    [productsRow, ⟨2, "bob", "1+2", "in_progress", none, none, "", ""⟩,
      ⟨3, "carol", "2-1", "in_progress", none, none, "", ""⟩], 4, 3⟩

theorem threeRunning_any_order :
    (∀ e, (∃ i ∈ [1, 9, 3], threeRunning.TaskOf i e) ↔
        ∃ i ∈ [3, 2, 3, 1], threeRunning.TaskOf i e) ∧
      (∀ e, (Site.notified [1, 9, 3] ⟨threeRunning, Site.dawn, []⟩).store.view e =
        (Site.notified [3, 2, 3, 1] ⟨threeRunning, Site.dawn, []⟩).store.view e) ∧
      ∀ e, (¬∃ i ∈ [1, 9, 3], threeRunning.TaskOf i e) →
        (Site.notified [1, 9, 3] ⟨threeRunning, Site.dawn, []⟩).store.rowsOf e =
            threeRunning.rowsOf e ∧
          (Site.notified [3, 2, 3, 1] ⟨threeRunning, Site.dawn, []⟩).store.rowsOf e =
            threeRunning.rowsOf e := by
  have hone : threeRunning.TaskOf 1 1 := ⟨_, rfl, rfl⟩
  have htwo : threeRunning.TaskOf 2 1 := ⟨_, rfl, rfl⟩
  have hthree : threeRunning.TaskOf 3 2 := ⟨_, rfl, rfl⟩
  have hnine : ∀ e, ¬threeRunning.TaskOf 9 e := fun e => Store.not_taskOf rfl
  have hsame : ∀ e, (∃ i ∈ [1, 9, 3], threeRunning.TaskOf i e) ↔
      ∃ i ∈ [3, 2, 3, 1], threeRunning.TaskOf i e := by
    intro e
    simp only [List.exists_mem_cons_iff, hone.iff_eq, htwo.iff_eq, hthree.iff_eq, hnine e]
    simp
    tauto
  exact ⟨hsame, notified_any_order rfl Outages.quiet_nil Outages.quiet_nil hsame⟩

end Piecework
