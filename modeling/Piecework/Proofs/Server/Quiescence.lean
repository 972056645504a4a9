import Piecework.Proofs.Schedule.Kept
import Piecework.Proofs.Server.Completion
import Piecework.Proofs.Server.Traffic

/-!
# Nothing is lost

A pass may mark its expression by what is out of date, because a task was finished while it was
being made.  The submission of that task leaves a job behind, and the job leads to a pass that
begins later.  So whenever no pass is being made over an expression, the expression is settled or
such a pass is still to come (`Rests`); and when nothing is under way, it is settled.

* `Lossless` is the invariant of the store, given what is still to come: first passes over new
  expressions (`coming`) and passes after completions (`owed`).
* `Making` is the invariant of the pass that has the lock.
* `Minded.moved`, `Minded.submitted`, `Minded.first`, `Minded.after`, `Minded.proceed` and
  `Minded.finish` carry both through the steps, and `Orderly.run` through a run.
* `settled_of_quiescent` reads off what every expression shows when nothing is under way.
-/

open Relation (ReflTransGen)

namespace Piecework

open Schedule
open Store (Moves Moved Submitted)

/-- The store has the expression with its text. -/
def Store.HasText (e : Int) (text : String) (s : Store) : Prop :=
  ∃ r ∈ s.expressions, r.id = e ∧ r.source = text

section HasText

variable {s s' : Store} {e : Int} {text : String}

theorem Store.HasText.sameTexts (h : s.HasText e text) (hrows : SameTexts s s') :
    s'.HasText e text := by
  obtain ⟨r, hr, hid, htext⟩ := h
  obtain ⟨r', hr', hid', hsource⟩ := hrows r hr
  exact ⟨r', hr', hid'.trans hid, hsource.trans htext⟩

theorem Store.HasText.untouched (h : s.HasText e text) (hu : Untouched e s s') :
    s'.HasText e text :=
  hu.exists_row.2 h

theorem Store.HasText.source_eq {r : ExpressionRow} (h : s.HasText r.id text) (hs : s.WellFormed)
    (hr : r ∈ s.expressions) : r.source = text := by
  obtain ⟨r', hr', hid, htext⟩ := h
  cases hs.eq_of_id hr' hr hid
  exact htext

theorem Store.HasText.le (h : s.HasText e text) (hs : s.WellFormed) : e ≤ s.lastExpression := by
  obtain ⟨r, hr, rfl, -⟩ := h
  exact hs.lastExpression r hr

end HasText

namespace Traffic

/-- First passes that are still to come. -/
def coming (v : Traffic) : List (Int × String) :=
  v.jobs.filterMap Job.arrival? ++ v.server.arrivals

/-- Completions that are still to be followed up. -/
def owed (v : Traffic) : List Int :=
  v.jobs.filterMap Job.taskId? ++ v.server.dispatcher.queue ++ v.hands.map Prod.fst

theorem Quiescent.coming {v : Traffic} (h : v.Quiescent) : v.coming = [] := by
  rw [Traffic.coming, h.jobs, h.arrivals]
  rfl

theorem Quiescent.owed {v : Traffic} (h : v.Quiescent) : v.owed = [] := by
  rw [Traffic.owed, h.jobs, h.queue, h.hands]
  rfl

theorem mem_owed {v : Traffic} {id : Int} : id ∈ v.owed ↔
    .reschedule id ∈ v.jobs ∨ id ∈ v.server.dispatcher.queue ∨ id ∈ v.hands.map Prod.fst := by
  simp [owed]

/-! ## The invariant -/

/-- No completion is lost: every expression that is newer than the base waits for its first
pass, has a pass made over it, or rests. -/
structure Lossless (base : Int) (coming : List (Int × String)) (owed : List Int)
    (busy : Option Int) (s : Store) : Prop where
  sound : Sound (System.scope True) s
  last : base ≤ s.lastExpression
  answered : ∀ e, base < e → ∀ k ∈ s.tasksOf e, k.Answered
  waiting : ∀ a ∈ coming, base < a.1 ∧ s.tasksOf a.1 = [] ∧ s.HasText a.1 a.2
  distinct : (coming.map Prod.fst).Nodup
  known : ∀ id ∈ owed, ∃ e, ∃ k ∈ s.tasksOf e, k.id = id
  rests : ∀ r ∈ s.expressions, base < r.id → busy ≠ some r.id → r.id ∉ coming.map Prod.fst →
    Rests owed r s

/-- The rules for a pass over one expression. -/
abbrev rulesFor (r : ExpressionRow) : Rules := besides ((System.scope True).only r.id)

/-- A pass that has begun in the first store is on its way. -/
structure Making (base : Int) (coming : List (Int × String)) (owed : List Int)
    (r : ExpressionRow) (s0 : Store) (errand : Errand) (s : Store) : Prop where
  taken : r.id ∉ coming.map Prod.fst
  text : s.HasText r.id r.source
  subject : ∀ id, errand.pass = .after id → ∃ k ∈ s.tasksOf r.id, k.id = id
  promise : errand.rest.Meets (rulesFor r) (fun _ s' => base < r.id → Kept r s0 s') s
  news : ∀ k ∈ s.tasksOf r.id, k.status = .done → k ∈ s0.tasksOf r.id ∨ k.id ∈ owed

/-- The store is lossless, and the pass that has the lock is on its way. -/
inductive Minded (base : Int) (coming : List (Int × String)) (owed : List Int) (s : Store) :
    Option Errand → Prop
  | idle : Lossless base coming owed none s → Minded base coming owed s none
  | making {r : ExpressionRow} {s0 : Store} {errand : Errand} :
      Lossless base coming owed (some r.id) s → Making base coming owed r s0 errand s →
      Minded base coming owed s (some errand)

section Lossless

variable {base : Int} {coming coming' : List (Int × String)} {owed owed' : List Int}
  {busy busy' : Option Int} {s s' : Store} {e : Int} {c : Call} {k k' : Task}

/-- An expression that has a task does not wait for its first pass. -/
theorem Lossless.not_coming (h : Lossless base coming owed busy s) (hk : k ∈ s.tasksOf e) :
    e ∉ coming.map Prod.fst := by
  intro hmem
  obtain ⟨a, ha, rfl⟩ := List.mem_map.1 hmem
  rw [(h.waiting a ha).2.1] at hk
  cases hk

/-- Only one expression is concerned. -/
theorem Lossless.change (h : Lossless base coming owed busy s)
    (hsound : Sound (System.scope True) s') (hlast : s'.lastExpression = s.lastExpression)
    (hothers : ∀ e', e' ≠ e → Untouched e' s s') (htaken : e ∉ coming.map Prod.fst)
    (hanswered : base < e → ∀ k ∈ s'.tasksOf e, k.Answered)
    (howed : ∀ e', e' ≠ e → ∀ k ∈ s.tasksOf e', k.id ∈ owed → k.id ∈ owed')
    (hknown : ∀ id ∈ owed', ∃ e, ∃ k ∈ s'.tasksOf e, k.id = id)
    (hbusy : ∀ e', e' ≠ e → busy = some e' → busy' = some e')
    (hrests : busy' ≠ some e → ∀ r ∈ s'.expressions, r.id = e → base < e → Rests owed' r s') :
    Lossless base coming owed' busy' s' := by
  refine ⟨hsound, hlast ▸ h.last, fun e' hnew k hk => ?_, fun a ha => ?_, h.distinct, hknown,
    fun r hr hnew hidle hcoming => ?_⟩
  · by_cases heq : e' = e
    · subst heq
      exact hanswered hnew k hk
    · rw [(hothers e' heq).tasks] at hk
      exact h.answered e' hnew k hk
  · have hu : Untouched a.1 s s' :=
      hothers a.1 fun heq => htaken (heq ▸ List.mem_map_of_mem ha)
    obtain ⟨hnew, hnone, htext⟩ := h.waiting a ha
    exact ⟨hnew, hu.tasks.trans hnone, htext.untouched hu⟩
  · by_cases heq : r.id = e
    · exact hrests (heq ▸ hidle) r hr heq (heq ▸ hnew)
    · have hu := hothers r.id heq
      have hidle' : busy ≠ some r.id := fun hb => hidle (hbusy r.id heq hb)
      exact (h.rests r ((hu.rows r rfl).1 hr) hnew hidle' hcoming).untouched hu (howed r.id heq)

/-- A task changes hands; if it is finished then it is owed a pass. -/
theorem Lossless.moved (h : Lossless base coming owed busy s) (hmoves : Moves c k k')
    (hmoved : Moved k k' s s')
    (hnumber : ∀ value, c = .completeTask k.id value → value.isNaN = false)
    (howed : owed ⊆ owed') (hknown : ∀ id ∈ owed', id ∈ owed ∨ id = k.id)
    (hdone : k'.status = .done → k'.id ∈ owed') : Lossless base coming owed' busy s' := by
  have htaken := h.not_coming hmoved.mem
  refine h.change (h.sound.elsewhere (.moved hmoves hmoved)) hmoved.lastExpression
    (fun _ hne => hmoved.untouched hne) htaken (fun hnew k0 hk0 => ?_)
    (fun _ _ _ _ hid => howed hid) (fun id hid => ?_) (fun _ _ => id) ?_
  · rcases hmoved.mem_old hk0 with hold | rfl
    · exact h.answered _ hnew k0 hold
    · exact hmoves.answered hnumber
  · rcases hknown id hid with hold | rfl
    · obtain ⟨e0, k0, hk0, rfl⟩ := h.known id hold
      by_cases heq : k0 = k
      · exact ⟨_, k', hmoved.mem_new, heq ▸ hmoves.later.id⟩
      · exact ⟨e0, k0, hmoved.mem_of_ne hk0 heq, rfl⟩
    · exact ⟨_, k', hmoved.mem_new, hmoves.later.id⟩
  · intro hidle r hr hid hnew
    rw [hmoved.expressions] at hr
    rw [← hid] at hidle hnew htaken
    exact (h.rests r hr hnew hidle htaken).moved ⟨h.sound, hr, trivial⟩ hmoves hmoved hid.symm
      howed hdone

/-- An expression is submitted, and waits for its first pass. -/
theorem Lossless.submitted {text : String} (h : Lossless base coming owed busy s)
    (hsubmitted : Submitted text s s') :
    Lossless base (coming ++ [(s.lastExpression + 1, text)]) owed busy s' := by
  have hbase := h.last
  have htasks : ∀ e, s'.tasksOf e = s.tasksOf e := Store.tasksOf_congr hsubmitted.tasks
  obtain ⟨new, hrows, hnewId, hnewText, -⟩ := hsubmitted.rows
  have hlt : ∀ a ∈ coming, a.1 < s.lastExpression + 1 := fun a ha =>
    Int.lt_add_one_of_le ((h.waiting a ha).2.2.le h.sound.wellFormed)
  refine ⟨h.sound.elsewhere (.submitted "" text hsubmitted), ?_, fun e hnew k hk => ?_,
    fun a ha => ?_, ?_, fun id hid => ?_, fun r hr hnew hidle hcoming => ?_⟩
  · rw [hsubmitted.lastExpression]
    omega
  · rw [htasks] at hk
    exact h.answered e hnew k hk
  · rcases List.mem_append.1 ha with ha | ha
    · obtain ⟨hnew, hnone, htext⟩ := h.waiting a ha
      exact ⟨hnew, (htasks _).trans hnone,
        htext.untouched (hsubmitted.untouched (Int.ne_of_lt (hlt a ha)))⟩
    · rw [List.mem_singleton.1 ha]
      exact ⟨Int.lt_add_one_of_le hbase, hsubmitted.tasksOf_new h.sound.wellFormed, new,
        by simp [hrows], hnewId, hnewText⟩
  · rw [List.map_append, List.nodup_append]
    refine ⟨h.distinct, List.nodup_singleton _, ?_⟩
    rintro i hi j hj rfl
    obtain ⟨a, ha, rfl⟩ := List.mem_map.1 hi
    exact absurd (List.mem_singleton.1 hj) (Int.ne_of_lt (hlt a ha))
  · obtain ⟨e, k, hk, hid⟩ := h.known id hid
    exact ⟨e, k, htasks e ▸ hk, hid⟩
  · -- the new expression waits for its first pass, so this is another one
    rw [List.map_append, List.mem_append, not_or] at hcoming
    have hu : Untouched r.id s s' := hsubmitted.untouched fun heq => hcoming.2 (by simp [heq])
    exact (h.rests r ((hu.rows r rfl).1 hr) hnew hidle hcoming.1).untouched hu fun _ _ => id

/-- What is still to come is counted in any order. -/
theorem Lossless.congr (h : Lossless base coming owed busy s) (hcoming : coming'.Perm coming)
    (howed : ∀ id, id ∈ owed' ↔ id ∈ owed) : Lossless base coming' owed' busy s := by
  have hids := hcoming.map Prod.fst
  refine ⟨h.sound, h.last, h.answered, fun a ha => h.waiting a (hcoming.mem_iff.1 ha),
    hids.nodup_iff.2 h.distinct, fun id hid => h.known id ((howed id).1 hid), ?_⟩
  intro r hr hnew hidle hnot
  rw [hids.mem_iff] at hnot
  exact (h.rests r hr hnew hidle hnot).untouched (.refl r.id s) fun k _ => (howed k.id).2

/-- The pass that has the lock makes a call. -/
theorem Lossless.effect {first : Int → Prop} (h : Lossless base coming owed (some e) s)
    (heffect : Effect ((System.scope True).only e) first c s s')
    (htaken : e ∉ coming.map Prod.fst) : Lossless base coming owed (some e) s' := by
  refine h.change ((heffect.widen trivial).sound h.sound) heffect.lastExpression
    (fun _ hne => heffect.untouched hne) htaken (fun hnew k hk => ?_) (fun _ _ _ _ => id)
    (fun id hid => ?_) (fun _ _ => id) fun hnot => absurd rfl hnot
  · rcases heffect.mem_old hk with hold | hpending
    · exact h.answered e hnew k hold
    · exact Task.answered_of_unfinished (by simp [hpending])
  · obtain ⟨e', k, hk, hid⟩ := h.known id hid
    exact ⟨e', k, heffect.mem hk, hid⟩

end Lossless

/-! ## The steps -/

section Minded

variable {base : Int} {coming coming' : List (Int × String)} {owed owed' : List Int}
  {s s' s0 : Store} {running : Option Errand} {errand : Errand} {r : ExpressionRow} {e : Int}
  {c : Call} {k k' : Task}

/-- The pass that has the lock goes on its way, whatever others do. -/
theorem Making.elsewhere (h : Making base coming owed r s0 errand s)
    (he : Store.Elsewhere c s s') (htaken : r.id ∉ coming'.map Prod.fst)
    (hnews : ∀ k ∈ s'.tasksOf r.id, k.status = .done → k ∈ s0.tasksOf r.id ∨ k.id ∈ owed') :
    Making base coming' owed' r s0 errand s' := by
  refine ⟨htaken, h.text.sameTexts he.meanwhile.sameTexts, fun id hpass => ?_,
    h.promise.interfere fun hs => ⟨he.meanwhile, hs.elsewhere he⟩, hnews⟩
  obtain ⟨k, hk, hid⟩ := h.subject id hpass
  obtain ⟨k', hk', hlater⟩ := (he.meanwhile.tasks r.id).exists_new hk
  exact ⟨k', hk', hlater.id.trans hid⟩

theorem Minded.moved (h : Minded base coming owed s running) (hmoves : Moves c k k')
    (hmoved : Moved k k' s s')
    (hnumber : ∀ value, c = .completeTask k.id value → value.isNaN = false) (howed : owed ⊆ owed')
    (hknown : ∀ id ∈ owed', id ∈ owed ∨ id = k.id) (hdone : k'.status = .done → k'.id ∈ owed') :
    Minded base coming owed' s' running := by
  cases h with
  | idle hloss => exact .idle (hloss.moved hmoves hmoved hnumber howed hknown hdone)
  | making hloss hmaking =>
    refine .making (hloss.moved hmoves hmoved hnumber howed hknown hdone)
      (hmaking.elsewhere (.moved hmoves hmoved) hmaking.taken fun k0 hk0 hdone0 => ?_)
    rcases hmoved.mem_old hk0 with hold | rfl
    · exact (hmaking.news k0 hold hdone0).imp_right fun hid => howed hid
    · exact .inr (hdone hdone0)

theorem Minded.submitted {text : String} (h : Minded base coming owed s running)
    (hsubmitted : Submitted text s s') :
    Minded base (coming ++ [(s.lastExpression + 1, text)]) owed s' running := by
  cases h with
  | idle hloss => exact .idle (hloss.submitted hsubmitted)
  | making hloss hmaking =>
    refine .making (hloss.submitted hsubmitted)
      (hmaking.elsewhere (.submitted "" text hsubmitted) ?_ ?_)
    · rw [List.map_append, List.mem_append, not_or]
      refine ⟨hmaking.taken, fun hmem => ?_⟩
      have hle := hmaking.text.le hloss.sound.wellFormed
      have heq := List.mem_singleton.1 hmem
      omega
    · rw [Store.tasksOf_congr hsubmitted.tasks]
      exact hmaking.news

theorem Minded.congr (h : Minded base coming owed s running) (hcoming : coming'.Perm coming)
    (howed : ∀ id, id ∈ owed' ↔ id ∈ owed) : Minded base coming' owed' s running := by
  cases h with
  | idle hloss => exact .idle (hloss.congr hcoming howed)
  | making hloss hmaking =>
    refine .making (hloss.congr hcoming howed) ⟨?_, hmaking.text, hmaking.subject,
      hmaking.promise, fun k hk hdone => ?_⟩
    · rw [(hcoming.map Prod.fst).mem_iff]
      exact hmaking.taken
    · exact (hmaking.news k hk hdone).imp_right (howed k.id).2

/-- The first pass over a new expression begins. -/
theorem Minded.first {text : String} (h : Minded base coming owed s none)
    (hcoming : coming.Perm ((e, text) :: coming')) :
    Minded base coming' owed s (some ⟨.first e text, 0, (Pass.first e text).program⟩) := by
  cases h with
  | idle hloss =>
    have hids : (coming.map Prod.fst).Perm (e :: coming'.map Prod.fst) := hcoming.map Prod.fst
    have hdistinct := hids.nodup_iff.1 hloss.distinct
    rw [List.nodup_cons] at hdistinct
    obtain ⟨hnew, hnone, r, hr, rfl, rfl⟩ :=
      hloss.waiting (e, text) (hcoming.mem_iff.2 List.mem_cons_self)
    have hat : At ((System.scope True).only r.id) r s := ⟨hloss.sound.only trivial, hr, rfl⟩
    have hlossless : Lossless base coming' owed (some r.id) s := by
      refine ⟨hloss.sound, hloss.last, hloss.answered, fun a ha => ?_, hdistinct.2, hloss.known,
        fun r' hr' hnew' hidle hnot => ?_⟩
      · exact hloss.waiting a (hcoming.mem_iff.2 (List.mem_cons_of_mem _ ha))
      · refine hloss.rests r' hr' hnew' nofun ?_
        rw [hids.mem_iff, List.mem_cons, not_or]
        exact ⟨fun heq => hidle (congrArg some heq.symm), hnot⟩
    have hpromise : (Pass.first r.id r.source).program.Meets (rulesFor r)
        (fun _ s' => base < r.id → Kept r s s') s :=
      (firstPass_keeps hat trivial hnone).mono fun _ _ hkept _ => hkept
    exact .making hlossless
      ⟨hdistinct.1, ⟨r, hr, rfl, rfl⟩, nofun, hpromise, fun k hk _ => .inl hk⟩

/-- The pass after a completion begins. -/
theorem Minded.after {id : Int} (left : Nat) (h : Minded base coming owed s none)
    (howed : ∀ i, i ∈ owed ↔ i = id ∨ i ∈ owed') :
    Minded base coming owed' s (some ⟨.after id, left, (Pass.after id).program⟩) := by
  cases h with
  | idle hloss =>
    obtain ⟨e, k, hk, rfl⟩ := hloss.known id ((howed id).2 (.inl rfl))
    obtain ⟨r, hr, rfl⟩ := hloss.sound.wellFormed.exists_parent hk
    have htaken := hloss.not_coming hk
    have hat : At (System.scope True) r s := ⟨hloss.sound, hr, trivial⟩
    have hlossless : Lossless base coming owed' (some r.id) s := by
      refine hloss.change hloss.sound rfl (fun e' _ => .refl e' s) htaken (hloss.answered r.id)
        (fun e' hne k' hk' hid => ?_) (fun i hi => hloss.known i ((howed i).2 (.inr hi))) nofun
        fun hnot => absurd rfl hnot
      -- the task is one of another expression
      refine ((howed k'.id).1 hid).resolve_left fun heq => hne ?_
      rw [← Store.expressionId_of_mem hk', hloss.sound.wellFormed.eq_of_task_id hk' hk heq]
      exact Store.expressionId_of_mem hk
    have hpromise : (Pass.after k.id).program.Meets (rulesFor r)
        (fun _ s' => base < r.id → Kept r s s') s := by
      refine (passAfter_keeps hat hk).mono fun _ s' hkept hnew => ?_
      have hrests := hloss.rests r hr hnew nofun htaken
      cases hparse : Expr.parse r.source with
      | error e =>
        rw [(hrests.rejected e hparse).1] at hk
        cases hk
      | ok t => exact hkept (hrests.parsed t hparse).1 ⟨t, hparse⟩
    exact .making hlossless ⟨htaken, ⟨r, hr, rfl, rfl⟩,
      fun id hpass => ⟨k, hk, Pass.after.inj hpass⟩, hpromise, fun k hk _ => .inl hk⟩

/-- The pass that has the lock makes a call. -/
theorem Minded.proceed {pass : Pass} {left : Nat}
    {next : Except StoreError c.Reply → Program Error ExpressionStatus}
    {reply : Except StoreError c.Reply}
    (h : Minded base coming owed s (some ⟨pass, left, .ask c next⟩))
    (hserved : Served False s c reply s') :
    Minded base coming owed s' (some ⟨pass, left, next reply⟩) := by
  cases h with
  | making hloss hmaking =>
    obtain ⟨hallowed, hnext⟩ := hmaking.promise.ask
    have hpromise := hnext reply s' hserved
    cases hserved with
    | failed _ hfails => exact hfails.elim
    | refused =>
      exact .making hloss ⟨hmaking.taken, hmaking.text, hmaking.subject, hpromise, hmaking.news⟩
    | answered now heq =>
      have heffect := Allowed.effect hallowed hloss.sound.wellFormed heq
      refine .making (hloss.effect heffect hmaking.taken) ⟨hmaking.taken,
        hmaking.text.sameTexts heffect.sameTexts, fun id hpass => ?_, hpromise,
        fun k hk hdone => ?_⟩
      · obtain ⟨k, hk, hid⟩ := hmaking.subject id hpass
        exact ⟨k, heffect.mem hk, hid⟩
      · refine hmaking.news k ((heffect.mem_old hk).resolve_right fun hpending => ?_) hdone
        cases hdone.symm.trans hpending

/-- The pass has come to its end. -/
theorem Minded.finish {pass : Pass} {left : Nat} {result : Except Error ExpressionStatus}
    (h : Minded base coming owed s (some ⟨pass, left, .done result⟩)) (howed : owed ⊆ owed')
    (hknown : ∀ id ∈ owed', id ∈ owed ∨ pass = .after id) : Minded base coming owed' s none := by
  cases h with
  | @making r s0 _ hloss hmaking =>
    have hkept : base < r.id → Kept r s0 s := hmaking.promise s ((rulesFor r).refl s)
    refine .idle (hloss.change hloss.sound rfl (fun e' _ => .refl e' s) hmaking.taken
      (hloss.answered r.id) (fun _ _ _ _ hid => howed hid) (fun id hid => ?_)
      (fun e' hne heq => absurd (Option.some.inj heq).symm hne) fun _ r' hr' hid hnew => ?_)
    · rcases hknown id hid with hold | hpass
      · exact hloss.known id hold
      · exact ⟨r.id, hmaking.subject id hpass⟩
    · have hsource : r'.source = r.source :=
        Store.HasText.source_eq (hid.symm ▸ hmaking.text) hloss.sound.wellFormed hr'
      refine ((hkept hnew).rests (hloss.answered r.id hnew) fun k hk hdone => ?_).congr hid hsource
      exact (hmaking.news k hk hdone).imp_right fun hk' => howed hk'

end Minded

/-! ## Runs -/

/-- The invariant of the traffic: no failure is planned, completions are accepted, and nothing is
lost. -/
structure Orderly (base : Int) (v : Traffic) : Prop where
  quiet : v.server.site.outages.Quiet
  accepting : v.server.dispatcher.closed = false
  minded : Minded base v.coming v.owed v.store v.running

section Orderly

variable {base : Int} {v v' : Traffic}

theorem Orderly.sound (h : Orderly base v) : Sound (System.scope True) v.store := by
  have hminded := h.minded
  generalize v.running = running at hminded
  cases hminded with
  | idle hloss | making hloss => exact hloss.sound

theorem Orderly.lease (h : Orderly base v) (request : TaskRequest) :
    Orderly base { v with server := (v.server.getTask request).2 } := by
  have hhanded := Server.getTask_handed h.sound.wellFormed request
  obtain ⟨-, hquiet⟩ := Site.answer_quiet h.quiet .lease False
  rw [Server.getTask_eq] at hhanded ⊢
  refine ⟨hquiet, h.accepting, ?_⟩
  show Minded base v.coming v.owed (v.server.site.answer .lease).2.store v.running
  dsimp only at hhanded
  generalize (v.server.site.answer .lease).2.store = s at hhanded ⊢
  generalize Server.handing _ _ = answer at hhanded
  cases hhanded with
  | nothing => exact h.minded
  | task hmoves hmoved =>
    refine h.minded.moved hmoves hmoved nofun (List.Subset.refl _) (fun _ => .inl) fun hdone => ?_
    cases hmoves.inProgress.symm.trans hdone

/-- What a recorded outcome leaves behind is owed a pass. -/
theorem mem_owed_reschedule (v : Traffic) (site : Site) (taskId id : Int) :
    id ∈ owed { v.onSite site with jobs := v.jobs ++ [.reschedule taskId] } ↔
      id ∈ taskId :: v.owed := by
  simp only [mem_owed, onSite, List.mem_append, List.mem_cons, List.not_mem_nil, or_false,
    Job.reschedule.injEq]
  tauto

theorem coming_reschedule (v : Traffic) (site : Site) (taskId : Int) :
    coming { v.onSite site with jobs := v.jobs ++ [.reschedule taskId] } = v.coming := by
  simp [coming, onSite]

theorem Orderly.record (h : Orderly base v) {submission : Submission}
    (hnumber : ∀ value, submission.outcome = some (.result value) → value.isNaN = false) :
    Orderly base (v.record submission) := by
  have hrecorded := record_recorded h.sound.wellFormed submission
  have hquiet := Site.perform_quiet (Workers.takeResult submission) h.quiet
  generalize (v.server.site.perform (Workers.takeResult submission)).2 = site at hrecorded hquiet
  generalize v.record submission = v' at hrecorded ⊢
  cases hrecorded with
  | kept hstore =>
    refine ⟨hquiet, h.accepting, ?_⟩
    show Minded base v.coming v.owed site.store v.running
    rw [hstore]
    exact h.minded
  | @moved outcome k k' hout hid hmoves hmoved =>
    have hvalue : ∀ value, outcome.call submission.taskId = .completeTask k.id value →
        value.isNaN = false := by
      intro value hcall
      cases outcome with
      | result value' =>
        obtain ⟨-, rfl⟩ := Call.completeTask.inj hcall
        exact hnumber value' hout
      | error => cases hcall
    have hknown : ∀ id ∈ submission.taskId :: v.owed, id ∈ v.owed ∨ id = k.id := by
      intro id hmem
      rw [hid]
      exact (List.mem_cons.1 hmem).symm
    have hdone : k'.status = .done → k'.id ∈ submission.taskId :: v.owed := by
      intro _
      rw [hmoves.later.id, hid]
      exact List.mem_cons_self
    have hminded := h.minded.moved hmoves hmoved hvalue (List.subset_cons_self _ _) hknown hdone
    exact ⟨hquiet, h.accepting, hminded.congr (.of_eq (coming_reschedule v site submission.taskId))
      (mem_owed_reschedule v site submission.taskId)⟩

theorem Orderly.accept (h : Orderly base v) (owner text : String) :
    Orderly base (v.accept owner text) := by
  obtain ⟨site, hquiet, hsubmitted, haccept⟩ := accept_submitted h.quiet owner text
  rw [haccept]
  refine ⟨hquiet, h.accepting, (h.minded.submitted hsubmitted).congr ?_ fun id => ?_⟩
  · simp only [coming, onSite, List.filterMap_append, List.filterMap_cons, List.filterMap_nil,
      Job.arrival?_schedule, List.append_assoc]
    exact List.perm_append_comm.append_left _
  · simp [mem_owed, onSite]

/-- A job that is taken on waits somewhere else. -/
theorem Orderly.answer {front back : List Job} {job : Job} (h : Orderly base v)
    (hjobs : v.jobs = front ++ job :: back) :
    Orderly base { v with server := v.server.takeOn job, jobs := front ++ back } := by
  cases job with
  | schedule id text =>
    refine ⟨h.quiet, h.accepting, h.minded.congr ?_ fun i => ?_⟩
    · simp only [coming, hjobs, Server.takeOn, List.filterMap_append, List.filterMap_cons,
        Job.arrival?_schedule, ← List.append_assoc]
      exact (List.perm_append_singleton _ _).trans (List.perm_middle.append_right _).symm
    · simp [mem_owed, hjobs, Server.takeOn]
  | reschedule id =>
    have hnotify : (v.server.dispatcher.notify id).2 = { v.server.dispatcher with
        queue := v.server.dispatcher.queue ++ [id]
        counts := (v.server.dispatcher.notify id).2.counts } := by
      simp [Dispatcher.notify, h.accepting]
    rw [Server.takeOn, hnotify]
    refine ⟨h.quiet, h.accepting, h.minded.congr (.of_eq ?_) fun i => ?_⟩
    · simp [coming, hjobs, List.filterMap_cons]
    · simp only [mem_owed, hjobs, List.mem_append, List.mem_cons, List.not_mem_nil, or_false,
        Job.reschedule.injEq]
      tauto

/-- A hand takes a completion from the queue. -/
theorem Orderly.take {id : Int} {queue : List Int} (h : Orderly base v)
    (hqueue : v.server.dispatcher.queue = id :: queue) :
    Orderly base { v with
      server := { v.server with dispatcher := { v.server.dispatcher with queue } }
      hands := v.hands ++ [(id, v.server.dispatcher.attempts - 1)] } := by
  refine ⟨h.quiet, h.accepting, h.minded.congr (.refl _) fun i => ?_⟩
  simp only [mem_owed, hqueue, List.mem_cons, List.map_append, List.map_cons, List.map_nil,
    List.mem_append, List.not_mem_nil, or_false]
  tauto

theorem Orderly.first {front back : List (Int × String)} {id : Int} {text : String}
    (h : Orderly base v) (hidle : v.running = none)
    (harrivals : v.server.arrivals = front ++ (id, text) :: back) :
    Orderly base { v with
      server := { v.server with arrivals := front ++ back }
      running := some ⟨.first id text, 0, (Pass.first id text).program⟩ } := by
  have hminded := h.minded
  rw [hidle] at hminded
  refine ⟨h.quiet, h.accepting, hminded.first ?_⟩
  simp only [coming, harrivals, ← List.append_assoc]
  exact List.perm_middle

theorem Orderly.after {front back : List (Int × Nat)} {id : Int} {left : Nat}
    (h : Orderly base v) (hidle : v.running = none)
    (hhands : v.hands = front ++ (id, left) :: back) :
    Orderly base { v with
      hands := front ++ back
      running := some ⟨.after id, left, (Pass.after id).program⟩ } := by
  have hminded := h.minded
  rw [hidle] at hminded
  refine ⟨h.quiet, h.accepting, hminded.after left fun i => ?_⟩
  simp only [mem_owed, hhands, List.map_append, List.map_cons, List.mem_append, List.mem_cons]
  tauto

theorem Orderly.proceed {pass : Pass} {left : Nat} {c : Call}
    {next : Except StoreError c.Reply → Program Error ExpressionStatus} (h : Orderly base v)
    (hrunning : v.running = some ⟨pass, left, .ask c next⟩) :
    Orderly base { v.onSite (v.server.site.answer c).2 with
      running := some ⟨pass, left, next (v.server.site.answer c).1⟩ } := by
  have hminded := h.minded
  rw [hrunning] at hminded
  obtain ⟨hserved, hquiet⟩ := Site.answer_quiet h.quiet c False
  exact ⟨hquiet, h.accepting, hminded.proceed hserved⟩

theorem Orderly.finish {pass : Pass} {left : Nat} {result : Except Error ExpressionStatus}
    (h : Orderly base v) (hrunning : v.running = some ⟨pass, left, .done result⟩) :
    Orderly base (v.finish pass left result) := by
  have hminded := h.minded
  rw [hrunning] at hminded
  cases pass with
  | first | resumed =>
    exact ⟨h.quiet, h.accepting, hminded.finish (List.Subset.refl _) fun _ => .inl⟩
  | after taskId =>
    have howed : ∀ id, id ∈ (v.finish (.after taskId) left result).owed ↔
        id ∈ v.owed ∨ Verdict.of left result = .retried ∧ id = taskId := by
      intro id
      by_cases hretried : Verdict.of left result = .retried <;>
        simp [mem_owed, Traffic.finish, hretried, or_assoc]
    refine ⟨h.quiet, h.accepting, hminded.finish (fun id hid => (howed id).2 (.inl hid)) ?_⟩
    intro id hid
    refine ((howed id).1 hid).imp_right ?_
    rintro ⟨-, rfl⟩
    rfl

theorem Orderly.step (h : Orderly base v) (hstep : Step v v') : Orderly base v' := by
  cases hstep with
  | wait => exact ⟨h.quiet, h.accepting, h.minded⟩
  | lease request => exact h.lease request
  | record _ hnumber => exact h.record hnumber
  | accept owner text => exact h.accept owner text
  | answer hjobs => exact h.answer hjobs
  | take hqueue => exact h.take hqueue
  | first hidle harrivals => exact h.first hidle harrivals
  | after hidle hhands => exact h.after hidle hhands
  | proceed hrunning => exact h.proceed hrunning
  | finish hrunning => exact h.finish hrunning

theorem Orderly.run (h : Orderly base v) (hrun : ReflTransGen Step v v') : Orderly base v' := by
  induction hrun with
  | refl => exact h
  | tail _ hstep ih => exact ih.step hstep

/-- At the beginning no expression is newer than the base. -/
theorem orderly_start (hs : Sound (System.scope True) v.store)
    (hquiet : v.server.site.outages.Quiet) (hopen : v.server.dispatcher.closed = false)
    (hidle : v.Quiescent) :
    Orderly v.store.lastExpression v := by
  have hold : ∀ r ∈ v.store.expressions, ¬v.store.lastExpression < r.id := fun r hr =>
    Int.not_lt.2 (hs.wellFormed.lastExpression r hr)
  refine ⟨hquiet, hopen, ?_⟩
  rw [hidle.coming, hidle.owed, hidle.running]
  refine .idle ⟨hs, Int.le_refl _, fun e hnew k hk => ?_, List.forall_mem_nil _, List.nodup_nil,
    List.forall_mem_nil _, fun r hr hnew => absurd hnew (hold r hr)⟩
  obtain ⟨r, hr, rfl⟩ := hs.wellFormed.exists_parent hk
  exact absurd hnew (hold r hr)

/-- When nothing is under way, every expression rests and nothing is owed to it. -/
theorem Orderly.quiescent (h : Orderly base v) (hidle : v.Quiescent) {r : ExpressionRow}
    (hr : r ∈ v.store.expressions) (hnew : base < r.id) :
    Sound (System.scope True) v.store ∧ (∀ k ∈ v.store.tasksOf r.id, k.Answered) ∧
      Rests [] r v.store := by
  have hminded := h.minded
  rw [hidle.coming, hidle.owed, hidle.running] at hminded
  cases hminded with
  | idle hloss =>
    exact ⟨hloss.sound, hloss.answered r.id hnew, hloss.rests r hr hnew nofun List.not_mem_nil⟩

end Orderly

/-- However requests and passes have been interleaved, if no call on the store has failed, and
nothing is under way any more, then every expression that was submitted meanwhile is settled.  A
text that does not parse is marked as such, and has no tasks.  Any other one shows the number
that its tree has come down to, or it is under way and each of its ready operations has exactly
one task, which waits for a worker or is with one. -/
theorem settled_of_quiescent {y : System} {v v' : Traffic}
    (hstart : System.Run True (fun _ _ => True) .start y) (hstore : v.store = y.store)
    (hquiet : v.server.site.outages.Quiet) (hopen : v.server.dispatcher.closed = false)
    (hidle : v.Quiescent) (hrun : ReflTransGen Step v v') (hidle' : v'.Quiescent)
    {r : ExpressionRow} (hr : r ∈ v'.store.expressions) (hnew : y.store.lastExpression < r.id) :
    (∀ e, Expr.parse r.source = .error e → r.status = ExpressionStatus.error.name ∧
        v'.store.tasks.filter (·.expressionId == r.id) = []) ∧
      ∀ t, Expr.parse r.source = .ok t →
        (∀ x, v'.store.remaining r.id t = .leaf x →
          r.status = ExpressionStatus.done.name ∧ ∃ z, r.result = some z ∧ (z == x) = true) ∧
        ((v'.store.remaining r.id t).isLeaf = false →
          r.status = ExpressionStatus.inProgress.name ∧
            ∀ x ∈ (v'.store.remaining r.id t).frontier,
              ∃ k, (v'.store.tasksOf r.id).filter (·.covers x) = [k] ∧
                (k.status = .pending ∨ k.status = .inProgress)) := by
  have hsound := ((System.sound_start True).run hstart).store
  rw [← hstore] at hsound hnew
  have horderly := (orderly_start hsound hquiet hopen hidle).run hrun
  obtain ⟨hs, hanswered, hrests⟩ := horderly.quiescent hidle' hr hnew
  have hwell := hs.wellFormed
  refine ⟨fun e he => ?_, fun t ht => ?_⟩
  · obtain ⟨hnone, herror⟩ := hrests.rejected e he
    refine ⟨herror.status_eq hwell hr, List.length_eq_zero_iff.1 ?_⟩
    rw [← hwell.length_tasksOf, hnone, List.length_nil]
  · have hsettled := hrests.settled ht
    have hat : At (System.scope True) r v'.store := ⟨hs, hr, trivial⟩
    have hparses := ExpressionRow.parses_of_source ht
    have htracked := hat.tracked hparses
    refine ⟨fun x hx => ?_, fun hnode => ⟨hsettled.shows_inProgress hwell hr hnode, ?_⟩⟩
    · obtain ⟨hdone, hresult⟩ := hsettled.shows_done hwell hr hx
      have hnumber := htracked.every_number (Expr.finite_of_parse hparses)
      rw [← Store.remaining_eq, hx] at hnumber
      obtain ⟨z, hz⟩ := Number.exists_columnFloat hnumber
      exact ⟨hdone, z, hresult.trans hz, Number.beq_symm (Number.columnFloat_agrees hz)⟩
    · intro x hx
      obtain ⟨k, hk, hcovers, hunfinished⟩ := (hsettled.inProgress hnode).2 x hx
      refine ⟨k, htracked.filter_covers hk hcovers, ?_⟩
      cases hstatus : k.status with
      | pending => exact .inl rfl
      | inProgress => exact .inr rfl
      | done => exact absurd hstatus hunfinished

/-! ## The sum -/

/-- A server that was just started. -/
def sumStart : Server := .start ⟨8, 3, 0⟩ ⟨.instant, 1⟩ false

/-- The sum was submitted, and its first pass was made. -/
def sumScheduled : Server :=
  let server := (sumStart.submit "alice" "1+2").2
  { server with
    site := (server.site.perform (firstPassOver 1 (.node .add (.leaf 1) (.leaf 2)))).2
    arrivals := [] }

/-- Its only task was leased and completed. -/
def sumReported : Server :=
  ((sumScheduled.getTask ⟨"bob"⟩).2.submitResult ⟨1, "bob", some (.result 3)⟩).2

theorem settle_sum : (sumStart.submit "alice" "1+2").2.settle = sumScheduled := by
  have harrivals : (sumStart.submit "alice" "1+2").2.arrivals = [(1, "1+2")] := rfl
  unfold Server.settle
  rw [harrivals, Server.scheduleAll, firstPass_eq Expr.parse_sum]
  rfl

theorem sumReported_run :
    ReflTransGen Step ⟨sumStart, [], [], none⟩ ⟨sumReported, [], [], none⟩ := by
  have hsubmit := submit_run ⟨sumStart, [], [], none⟩ "alice" "1+2"
  have hsettle := settle_run [] (sumStart.submit "alice" "1+2").2
  rw [settle_sum] at hsettle
  have hlease := getTask_run ⟨sumScheduled, [], [], none⟩ ⟨"bob"⟩
  have hnumber : ∀ value, some (Outcome.result 3) = some (.result value) → value.isNaN = false := by
    rintro value ⟨⟩
    decide
  have hreport := submitResult_run ⟨(sumScheduled.getTask ⟨"bob"⟩).2, [], [], none⟩
    ⟨1, "bob", some (.result 3)⟩ hnumber
  exact ((hsubmit.trans hsettle).trans hlease).trans hreport

/-- The row of the sum before its last pass is made. -/
theorem sumReported_row : ∃ r ∈ sumReported.site.store.expressions, r.id = 1 ∧ r.source = "1+2" ∧
    r.isUnfinished = true := by
  decide

/-- The last pass leaves the text and the result as they are. -/
theorem settle_sumReported : ∃ r ∈ sumReported.settle.site.store.expressions, r.id = 1 ∧
    r.source = "1+2" ∧
    sumReported.settle.site.store.remaining 1 (.node .add (.leaf 1) (.leaf 2)) = .leaf 3 := by
  have hidle : Quiescent ⟨sumStart, [], [], none⟩ := ⟨rfl, rfl, rfl, rfl, rfl⟩
  have horderly := (orderly_start (System.sound_start True).store Outages.quiet_nil rfl hidle).run
    sumReported_run
  obtain ⟨r, hr, hid, hsource, hunfinished⟩ := sumReported_row
  have hat : At (System.scope True) r sumReported.site.store := ⟨horderly.sound, hr, trivial⟩
  have hparse : Expr.parse r.source = .ok (.node .add (.leaf 1) (.leaf 2)) := by
    rw [hsource]
    exact Expr.parse_sum
  have htask : ∃ k ∈ sumReported.site.store.tasksOf 1, k.id = 1 := by decide
  obtain ⟨k, hk, hkid⟩ := htask
  rw [← hid] at hk
  obtain ⟨⟨st, hresult⟩, hover, -, hbrought⟩ :=
    passAfter_alone hat horderly.quiet hunfinished (ExpressionRow.parses_of_source hparse) hk
  rw [hkid] at hresult hover hbrought
  obtain ⟨counts, hsettle⟩ := Server.settle_one (s := sumReported) rfl (by decide) hresult
  have hsite : sumReported.settle.site = (sumReported.site.perform (passAfter 1)).2 := by
    rw [hsettle]
  rw [← hsite] at hover hbrought
  obtain ⟨r', hr', hid', hsource'⟩ := hover.texts r hr
  refine ⟨r', hr', hid'.trans hid, hsource'.trans hsource, ?_⟩
  rw [← hid, hbrought.remaining_eq, hid]
  decide

theorem sum_settled_of_quiescent :
    ReflTransGen Step ⟨sumStart, [], [], none⟩ ⟨sumReported.settle, [], [], none⟩ ∧
      ∃ r ∈ sumReported.settle.site.store.expressions, r.id = 1 ∧
        r.status = ExpressionStatus.done.name ∧ ∃ z, r.result = some z ∧ (z == 3) = true := by
  have hrun := sumReported_run.trans (settle_run [] sumReported)
  obtain ⟨r, hr, hid, hsource, hvalue⟩ := settle_sumReported
  have hnew : System.start.store.lastExpression < r.id := by
    rw [hid]
    decide
  have hparse : Expr.parse r.source = .ok (.node .add (.leaf 1) (.leaf 2)) := by
    rw [hsource]
    exact Expr.parse_sum
  obtain ⟨-, hsettled⟩ := settled_of_quiescent (.refl .start) rfl Outages.quiet_nil rfl
    ⟨rfl, rfl, rfl, rfl, rfl⟩ hrun (quiescent_settle sumReported) hr hnew
  rw [← hid] at hvalue
  obtain ⟨hdone, z, hz, heq⟩ := (hsettled _ hparse).1 3 hvalue
  exact ⟨hrun, r, hr, hid, hdone, z, hz, heq⟩

end Traffic

end Piecework
