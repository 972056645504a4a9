import Piecework.Proofs.Schedule.Passes

/-!
# Passes that are made at once

Nobody comes between two calls of such a pass, and no failure is planned for it.  Then it
reaches its end, and what it has done can be read off the store.

* `PassedOver` is what every pass over an expression leaves as it is: the store is sound,
  texts stay, and nothing has happened to any other expression.
* `Brought` is what the pass has brought its own expression to: each ready operation of
  the tree has a task, and the row says what the tree has come down to.
* `firstPass_alone` and `laterPass_alone` say both about the two kinds of passes.
-/

namespace Piecework

open Schedule

/-- The rules for a pass that is made at once. -/
def alone (σ : Scope) (first : Int → Prop) : Rules where
  others := Eq
  refl := Eq.refl
  trans := Eq.trans
  fails := False
  may := Allowed σ first

theorem alone_suits (σ : Scope) (first : Int → Prop) : (alone σ first).Suits σ first := by
  refine ⟨fun h hs => ?_, id, False.elim⟩
  cases h
  exact ⟨.refl _, hs⟩

/-- A single expression is followed. -/
def Scope.only (σ : Scope) (e : Int) : Scope := ⟨fun i => i = e, σ.faults⟩

theorem Sound.only {σ : Scope} {s : Store} {e : Int} (h : Sound σ s) (hown : σ.own e) :
    Sound (σ.only e) s :=
  ⟨h.wellFormed, fun r hr hid => h.scheduled r hr (by rw [show r.id = e from hid]; exact hown)⟩

/-! ## Other expressions -/

/-- Nothing has happened to an expression. -/
structure Untouched (e : Int) (s s' : Store) : Prop where
  tasks : s'.tasksOf e = s.tasksOf e
  rows : ∀ r : ExpressionRow, r.id = e → (r ∈ s'.expressions ↔ r ∈ s.expressions)

theorem Untouched.refl (e : Int) (s : Store) : Untouched e s s := ⟨rfl, fun _ _ => Iff.rfl⟩

theorem Untouched.trans {e : Int} {s s' s'' : Store} (h : Untouched e s s')
    (h' : Untouched e s' s'') : Untouched e s s'' :=
  ⟨h'.tasks.trans h.tasks, fun r hr => (h'.rows r hr).trans (h.rows r hr)⟩

/-- The row of the expression shows what it has shown before. -/
theorem Untouched.exists_row {e : Int} {s s' : Store} {P : ExpressionRow → Prop}
    (h : Untouched e s s') :
    (∃ r ∈ s'.expressions, r.id = e ∧ P r) ↔ ∃ r ∈ s.expressions, r.id = e ∧ P r := by
  constructor
  · rintro ⟨r, hr, hid, hshows⟩
    exact ⟨r, (h.rows r hid).1 hr, hid, hshows⟩
  · rintro ⟨r, hr, hid, hshows⟩
    exact ⟨r, (h.rows r hid).2 hr, hid, hshows⟩

theorem Store.Moved.untouched {k k' : Task} {s s' : Store} (h : Store.Moved k k' s s') {e : Int}
    (he : e ≠ k.expressionId) : Untouched e s s' :=
  ⟨h.tasksOf_of_ne he, fun r _ => by rw [h.expressions]⟩

/-- A submission leaves other expressions alone. -/
theorem Store.Submitted.untouched {source : String} {s s' : Store} (h : Submitted source s s')
    {e : Int} (he : e ≠ s.lastExpression + 1) : Untouched e s s' := by
  refine ⟨tasksOf_congr h.tasks e, fun r hr => ?_⟩
  obtain ⟨new, hrows, hid, -⟩ := h.rows
  rw [hrows, List.mem_append, List.mem_singleton]
  refine ⟨fun h => h.resolve_right ?_, .inl⟩
  rintro rfl
  exact he (hr.symm.trans hid)

/-- What a pass over an expression leaves as it is. -/
structure PassedOver (σ : Scope) (e : Int) (s s' : Store) : Prop where
  sound : Sound σ s'
  texts : SameTexts s s'
  lastExpression : s'.lastExpression = s.lastExpression
  others : ∀ e', e' ≠ e → Untouched e' s s'

section PassedOver

variable {σ : Scope} {first : Int → Prop} {e : Int} {c : Call} {s s' s'' : Store}

theorem PassedOver.refl (h : Sound σ s) : PassedOver σ e s s :=
  ⟨h, .refl s, rfl, fun e' _ => .refl e' s⟩

theorem PassedOver.trans (h : PassedOver σ e s s') (h' : PassedOver σ e s' s'') :
    PassedOver σ e s s'' :=
  ⟨h'.sound, h.texts.trans h'.texts, h'.lastExpression.trans h.lastExpression,
    fun e' hne => (h.others e' hne).trans (h'.others e' hne)⟩

/-- A call about one of the expressions that are followed. -/
theorem Effect.widen (h : Effect (σ.only e) first c s s') (hown : σ.own e) :
    Effect σ first c s s' := by
  cases h with
  | read => exact .read
  | issued hr hid ht hx hk he hissued =>
    exact .issued hr (by rw [show _ = e from hid]; exact hown) ht hx hk he hissued
  | marked hid hverdict hmarked =>
    exact .marked (by rw [show _ = e from hid]; exact hown) hverdict hmarked

/-- A call about one expression leaves the others alone. -/
theorem Effect.untouched (h : Effect (σ.only e) first c s s') {e' : Int} (hne : e' ≠ e) :
    Untouched e' s s' := by
  cases h with
  | read => exact .refl e' s
  | issued _ hid _ _ _ he hissued =>
    have hk := he.trans hid
    exact ⟨hissued.tasksOf_of_ne (hk ▸ hne), fun r _ => by rw [hissued.expressions]⟩
  | @marked _ _ r0 status result steps stamp hid _ hmarked =>
    refine ⟨Store.tasksOf_congr hmarked.tasks e', fun r hr => ⟨fun h => ?_, fun h => ?_⟩⟩
    · rcases hmarked.rows.mem_old h with h | rfl
      · exact h
      · exact absurd (hr.symm.trans (hmarked.id.trans hid)) hne
    · refine hmarked.rows.mem_of_ne h ?_
      rintro rfl
      exact hne (hr.symm.trans hid)

theorem Effect.lastExpression (h : Effect σ first c s s') :
    s'.lastExpression = s.lastExpression := by
  cases h with
  | read => rfl
  | issued _ _ _ _ _ _ hissued => exact hissued.lastExpression
  | marked _ _ hmarked => exact hmarked.lastExpression

theorem PassedOver.effect (hs : Sound σ s) (hown : σ.own e) (h : Effect (σ.only e) first c s s') :
    PassedOver σ e s s' :=
  ⟨(h.widen hown).sound hs, h.sameTexts, h.lastExpression, fun _ hne => h.untouched hne⟩

/-- A program that is about one expression reaches its end, and leaves the others alone. -/
theorem passedOver_perform {ε α : Type} {post : Except ε α → Store → Prop} {p : Program ε α}
    {site : Site} (h : p.Meets (alone (σ.only e) first) post site.store) (hs : Sound σ site.store)
    (hown : σ.own e) (hquiet : site.outages.Quiet) :
    PassedOver σ e site.store (site.perform p).2.store ∧
      post (site.perform p).1 (site.perform p).2.store ∧ (site.perform p).2.outages.Quiet := by
  refine ⟨?_, h.perform site hquiet⟩
  refine h.perform_closed hquiet (P := PassedOver σ e site.store) (.refl hs) ?_
  intro s s' c now reply hover hallowed heq
  exact hover.trans (.effect hover.sound hown (hallowed.effect hover.sound.wellFormed heq))

end PassedOver

/-! ## The expression of the pass -/

/-- What a pass has brought an expression to. -/
structure Brought (r : ExpressionRow) (tree : Tree) (steps : Float → List String)
    (s s' : Store) : Prop where
  tasks : ∃ new, s'.tasksOf r.id = s.tasksOf r.id ++ new ∧
    ∀ k ∈ new, ∃ x ∈ tree.frontier, k.IssuedFor x
  covered : ∀ x ∈ tree.frontier, ∃ k ∈ s'.tasksOf r.id, k.covers x = true
  row : ∃ stamp, r.concluded tree steps stamp ∈ s'.expressions

section Brought

variable {σ : Scope} {first : Int → Prop} {r : ExpressionRow} {s s' : Store} {t tree : Tree}
  {steps : Float → List String} {site : Site} {result : Except Error ExpressionStatus}

/-- The tasks that a pass has added are for ready operations. -/
theorem Along.exists_new {e : Int} {xs : List Ready} (h : Along (alone σ first) e xs s s') :
    ∃ new, s'.tasksOf e = s.tasksOf e ++ new ∧ ∀ k ∈ new, ∃ x ∈ xs, k.IssuedFor x := by
  induction h with
  | here => exact ⟨[], by simp⟩
  | others ho _ _ ih =>
    cases ho
    exact ih
  | @issued s s1 s2 k x hx hk hissued hid _ ih =>
    obtain ⟨new, htasks, hnew⟩ := ih
    refine ⟨k :: new, ?_, ?_⟩
    · rw [htasks, ← hid, hissued.tasksOf, List.append_assoc, List.singleton_append]
    · rintro k' (_ | ⟨_, hk'⟩)
      · exact ⟨x, hx, hk⟩
      · exact hnew k' hk'

/-- Marking an expression leaves its tasks as they are. -/
theorem Store.conclude_tasks (now : Time.Instant) (e : Int) :
    (s.conclude now e tree steps).tasks = s.tasks := by
  unfold Store.conclude
  cases tree.value? <;> rfl

theorem Advanced.brought (h : Advanced (alone σ first) σ r tree steps s s') :
    Brought r tree steps s s' := by
  obtain ⟨s1, hal, hcovered, hconcluded⟩ := h.marked
  obtain ⟨now, hsame, -⟩ := hconcluded.after
  have htasks : s'.tasksOf r.id = s1.tasksOf r.id := by
    rw [← show s1.conclude now r.id tree steps = s' from hsame]
    exact Store.tasksOf_congr (Store.conclude_tasks now r.id) r.id
  refine ⟨?_, ?_, hconcluded.row⟩ <;> rw [htasks]
  · exact hal.exists_new
  · exact hcovered

theorem Passed.brought (h : Passed (alone σ first) σ r tree steps s result s') :
    (∃ st, result = .ok st) ∧ Brought r tree steps s s' := by
  obtain ⟨st, hst, hadvanced⟩ := h.resolve_right fun hfails => hfails.1
  exact ⟨⟨st, hst⟩, hadvanced.brought⟩

/-- A first pass over the text of an expression. -/
theorem firstPass_alone (hat : At σ r site.store) (hquiet : site.outages.Quiet) {text : String}
    (htext : text = columnText r.source) :
    PassedOver σ r.id site.store (site.perform (firstPass r.id text)).2.store ∧
      (site.perform (firstPass r.id text)).2.outages.Quiet ∧
      ∀ t, r.Parses t →
        Brought r t literalSteps site.store (site.perform (firstPass r.id text)).2.store := by
  have hat' : At (σ.only r.id) r site.store := ⟨hat.sound.only hat.own, hat.mem, rfl⟩
  have hmeets := firstPass_meets (alone_suits (σ.only r.id) fun _ => True) trivial hat' (.inl htext)
  obtain ⟨hover, hpassed, hquiet'⟩ := passedOver_perform hmeets hat.sound hat.own hquiet
  refine ⟨hover, hquiet', fun t ht => ?_⟩
  rw [ExpressionRow.Parses, ← htext] at ht
  exact (hpassed t ht).brought.2

/-- What holds of every task and of the ones that a pass may add goes on to hold of every
task. -/
theorem Brought.allTasks {P : Task → Prop} (h : Brought r tree steps s s')
    (hover : PassedOver σ r.id s s') (hall : s.AllTasks P)
    (hnew : ∀ k x, k.IssuedFor x → k.expressionId = r.id → P k) : s'.AllTasks P := by
  intro e k hk
  by_cases heq : e = r.id
  · obtain ⟨new, htasks, hissued⟩ := h.tasks
    rw [heq] at hk
    have hid := Store.expressionId_of_mem hk
    rw [htasks, List.mem_append] at hk
    rcases hk with hk | hk
    · exact hall r.id k hk
    · obtain ⟨x, -, hx⟩ := hissued k hk
      exact hnew k x hx hid
  · rw [(hover.others e heq).tasks] at hk
    exact hall e k hk

theorem LaterPassed.brought (h : LaterPassed (alone σ first) σ r t s result s') :
    Brought r (t.refill (s.tasksOf r.id)) (fun _ => trace (doneTasks (s.tasksOf r.id))) s s' := by
  obtain ⟨s0, rfl, hpassed⟩ := h
  exact hpassed.brought.2

/-- A later pass over an expression with an operation. -/
theorem laterPass_alone (hat : At σ r site.store) (hquiet : site.outages.Quiet) {e : Expression}
    (hid : e.id = r.id) (hsource : e.source = columnText r.source) (ht : r.Parses t)
    (hnode : t.isLeaf = false) :
    PassedOver σ r.id site.store (site.perform (laterPass e)).2.store ∧
      (site.perform (laterPass e)).2.outages.Quiet ∧
      Brought r (t.refill (site.store.tasksOf r.id))
        (fun _ => trace (doneTasks (site.store.tasksOf r.id))) site.store
        (site.perform (laterPass e)).2.store := by
  have hat' : At (σ.only r.id) r site.store := ⟨hat.sound.only hat.own, hat.mem, rfl⟩
  have hmeets :=
    laterPass_meets (alone_suits (σ.only r.id) fun _ => False) hat' hid hsource ht hnode
  obtain ⟨hover, hpassed, hquiet'⟩ := passedOver_perform hmeets hat.sound hat.own hquiet
  exact ⟨hover, hquiet', LaterPassed.brought hpassed⟩

/-- The pass after a task of an expression that is not finished. -/
theorem passAfter_alone (hat : At σ r site.store) (hquiet : site.outages.Quiet)
    (hunfinished : r.isUnfinished = true) (ht : r.Parses t) {k : Task}
    (hk : k ∈ site.store.tasksOf r.id) :
    (∃ st, (site.perform (passAfter k.id)).1 = .ok st) ∧
      PassedOver σ r.id site.store (site.perform (passAfter k.id)).2.store ∧
      (site.perform (passAfter k.id)).2.outages.Quiet ∧
      Brought r (t.refill (site.store.tasksOf r.id))
        (fun _ => trace (doneTasks (site.store.tasksOf r.id))) site.store
        (site.perform (passAfter k.id)).2.store := by
  have hown : ∀ s', site.store = s' → ∀ e, ∀ k' ∈ s'.tasksOf e, k'.id = k.id →
      (σ.only r.id).own e := by
    rintro s' rfl e k' hk' hid
    have hsame := hat.sound.wellFormed.eq_of_task_id hk' hk hid
    rw [← Store.expressionId_of_mem hk', hsame]
    exact Store.expressionId_of_mem hk
  have hmeets := passAfter_meets (alone_suits (σ.only r.id) fun _ => False)
    (hat.sound.only hat.own) k.id hown
  obtain ⟨hover, hpost, hquiet'⟩ := passedOver_perform hmeets hat.sound hat.own hquiet
  obtain ⟨s0, rfl, hpassed⟩ := (hpost r hat.mem ⟨k, hk, rfl⟩ t ht).unfinished hunfinished
  exact ⟨hpassed.brought.1, hover, hquiet', hpassed.brought.2⟩

end Brought

end Piecework
