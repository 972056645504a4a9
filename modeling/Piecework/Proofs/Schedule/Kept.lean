import Piecework.Proofs.Schedule.Settled

/-!
# What a pass promises when others go on

A pass lists the tasks of its expression first and marks the expression last.  A task that is
finished in between is not known to it, so it may mark the expression by what is out of date.
All that it can promise is `Kept`: a text that does not parse is marked as such, and an
expression is settled as long as no task was finished after the pass had begun.

The promise is enough if every finished task is followed by a pass that begins later.
`Rests` says so of an expression over which no pass is being made: it is settled, or one of its
finished tasks is still owed a pass.

* `firstPass_keeps` and `passAfter_keeps`: the passes keep the promise, whatever others do.
* `Kept.rests`: at the end of a pass the expression rests.
* `Rests.moved`: it goes on to rest when a task changes hands.
-/

namespace Piecework

open Schedule
open Store (Moves Moved)

/-- The rules for a pass among others, none of whose calls fails. -/
def besides (σ : Scope) : Rules where
  others s s' := Sound σ s → Meanwhile s s' ∧ Sound σ s'
  refl s hs := ⟨.refl s, hs⟩
  trans h h' hs := ⟨(h hs).1.trans (h' (h hs).2).1, (h' (h hs).2).2⟩
  fails := False
  may := Allowed σ fun _ => True

theorem besides_suits (σ : Scope) : (besides σ).Suits σ fun _ => True :=
  ⟨fun h hs => h hs, id, False.elim⟩

/-- The row of the expression shows the state. -/
def Store.ExpressionIs (e : Int) (st : ExpressionStatus) (s : Store) : Prop :=
  ∃ r ∈ s.expressions, r.id = e ∧ r.status = st.name

theorem Store.ExpressionIs.status_eq {s : Store} {r : ExpressionRow} {st : ExpressionStatus}
    (h : s.ExpressionIs r.id st) (hs : s.WellFormed) (hr : r ∈ s.expressions) :
    r.status = st.name := by
  obtain ⟨r', hr', hid, hst⟩ := h
  cases hs.eq_of_id hr' hr hid
  exact hst

/-- What parses has no NUL in it, so the store gives it back as it is. -/
theorem ExpressionRow.parses_of_source {r : ExpressionRow} {t : Tree}
    (h : Expr.parse r.source = .ok t) : r.Parses t := by
  rw [ExpressionRow.Parses, Expr.columnText_of_parse h]
  exact h

/-! ## What stays when others go on -/

section Advanced

variable {ρ : Rules} {σ : Scope} {r : ExpressionRow} {t tree : Tree} {steps : Float → List String}
  {s s' : Store} {e : Int} {k : Task}

theorem Meanwhile.tasksOf_eq_nil (h : Meanwhile s s') (hnone : s.tasksOf e = []) :
    s'.tasksOf e = [] :=
  ((h.tasks e).eq_of_done (by simp [hnone])).trans hnone

theorem Along.mem_of_done {xs : List Ready} (h : Along ρ e xs s s') (hk : k ∈ s.tasksOf e)
    (hdone : k.status = .done) : k ∈ s'.tasksOf e := by
  induction h with
  | here => exact hk
  | others _ hm _ ih => exact ih ((hm.tasks e).mem_of_done hk hdone)
  | issued _ _ hissued _ _ ih => exact ih (hissued.mem hk)

theorem Concluded.tasks (h : Concluded ρ σ r tree steps s s') (e : Int) :
    AllLater (s.tasksOf e) (s'.tasksOf e) := by
  obtain ⟨now, -, hm, -⟩ := h.after
  have htasks := hm.tasks e
  rwa [Store.tasksOf_congr (Store.conclude_tasks now r.id) e] at htasks

/-- An expression over which a pass was made does not show an error. -/
theorem Advanced.not_error (h : Advanced ρ σ r tree steps s s') :
    ¬s'.ExpressionIs r.id .error := by
  obtain ⟨s1, -, -, hconcluded⟩ := h.marked
  obtain ⟨stamp, hrow⟩ := hconcluded.row
  obtain ⟨now, -, -, hs'⟩ := hconcluded.after
  intro herror
  have hid : (r.concluded tree steps stamp).id = r.id := ExpressionRow.concluded_id stamp
  rw [← hid] at herror
  have hstatus := herror.status_eq hs'.wellFormed hrow
  cases tree with
  | leaf v =>
    change ExpressionStatus.done.name = ExpressionStatus.error.name at hstatus
    exact absurd hstatus (by decide)
  | node op a b =>
    change ExpressionStatus.inProgress.name = ExpressionStatus.error.name at hstatus
    exact absurd hstatus (by decide)

/-- A pass that starts from what its expression has come down to settles it, if no task is
finished meanwhile. -/
theorem Advanced.settled (hat : At σ r s) (ht : r.Parses t)
    (h : Advanced ρ σ r (t.refill (s.tasksOf r.id)) steps s s')
    (hanswered : ∀ k ∈ s'.tasksOf r.id, k.Answered)
    (hdone : ∀ k ∈ s'.tasksOf r.id, k.status = .done → k ∈ s.tasksOf r.id) : Settled r t s' := by
  obtain ⟨s1, hal, hcovered, hconcluded⟩ := h.marked
  obtain ⟨stamp, hrow⟩ := hconcluded.row
  obtain ⟨now, -, -, hs'⟩ := hconcluded.after
  have hlater := hconcluded.tasks r.id
  have htracked := hs'.tracked_of_concluded hrow hat.own ht
  have hsame : t.refill (s'.tasksOf r.id) = t.refill (s.tasksOf r.id) := by
    refine Tree.refill_eq_of_le (Tree.knowsMore_of_done (hat.tracked ht).nodup hdone) ?_ t
    exact Tree.knowsMore_of_done htracked.nodup fun k hk hd =>
      hlater.mem_of_done (hal.mem_of_done hk hd) hd
  refine settled_of_concluded hrow ?_ fun x hx => ?_
  · rw [Store.remaining_eq, hsame]
  · rw [Store.remaining_eq] at hx
    obtain ⟨k, hk, hcovers⟩ := hcovered x (hsame ▸ hx)
    obtain ⟨k', hk', hk0⟩ := hlater.exists_new hk
    have hcovers' : k'.covers x = true := hk0.covers_eq x ▸ hcovers
    exact ⟨k', hk', hcovers', htracked.unfinished_of_covers hk' (hanswered k' hk') hx hcovers'⟩

/-- A finished expression is settled. -/
theorem At.settled_of_done (hat : At σ r s) (ht : r.Parses t)
    (hdone : r.status = ExpressionStatus.done.name) : Settled r t s := by
  obtain ⟨t', v, ht', hleaf, hresult, -⟩ := hat.scheduled.of_done hdone
  cases ht.unique ht'
  rw [← Store.remaining_eq] at hleaf
  constructor <;> rw [hleaf]
  · rintro w ⟨⟩
    exact ⟨r, hat.mem, rfl, hdone, hresult⟩
  · exact nofun

end Advanced

/-! ## The promise of a pass -/

/-- What a pass leaves behind of an expression: the texts that do not parse are marked, and the
others are settled, unless a task was finished since the pass has begun. -/
structure Kept (r : ExpressionRow) (s s' : Store) : Prop where
  rejected : ∀ e, Expr.parse r.source = .error e →
    s'.tasksOf r.id = [] ∧ s'.ExpressionIs r.id .error
  parsed : ∀ t, Expr.parse r.source = .ok t → ¬s'.ExpressionIs r.id .error ∧
    ((∀ k ∈ s'.tasksOf r.id, k.Answered) →
      (∀ k ∈ s'.tasksOf r.id, k.status = .done → k ∈ s.tasksOf r.id) → Settled r t s')

section Kept

variable {σ : Scope} {r : ExpressionRow} {t : Tree} {s s' : Store} {k : Task}

theorem kept_of_parse (hparse : Expr.parse r.source = .ok t) (hgoing : ¬s'.ExpressionIs r.id .error)
    (hsettled : (∀ k ∈ s'.tasksOf r.id, k.Answered) →
      (∀ k ∈ s'.tasksOf r.id, k.status = .done → k ∈ s.tasksOf r.id) → Settled r t s') :
    Kept r s s' := by
  refine ⟨fun e he => ?_, fun t' ht' => ?_⟩
  · cases hparse.symm.trans he
  · cases hparse.symm.trans ht'
    exact ⟨hgoing, hsettled⟩

/-- A text that does not parse is marked. -/
theorem reject_keeps {e : ParseError} (hat : At σ r s) (hfaults : σ.faults)
    (hnone : s.tasksOf r.id = []) (hparse : Expr.parse r.source = .error e) :
    (reject r.id e).Meets (besides σ) (fun _ s' => Kept r s s') s := by
  have hρ := besides_suits σ
  have hverdict : ∀ s' : Store, Verdicts σ.faults True (s'.tasksOf r.id) r .error none
      (some (rejection e)) := fun _ => .gaveUp _ hfaults trivial
  refine giveUp_meets hρ hat (fun s' _ => hverdict s') ?_
  intro s1 reply s2 ho hserved s3 ho3
  obtain ⟨hat1, hm1⟩ := hat.others hρ ho
  cases hserved with
  | refused _ heq => cases heq
  | failed _ hfails => exact hfails.elim
  | answered now heq =>
    cases heq
    have hmarked := Store.setStatus_marked hat1.sound.wellFormed hat1.mem now .error none
      (some (rejection e))
    have heffect : Effect σ (fun _ => True) _ s1 _ := .marked hat1.own (hverdict s1) hmarked
    obtain ⟨hm3, -⟩ := ho3 (heffect.sound hat1.sound)
    have hnone2 := (Store.tasksOf_congr hmarked.tasks r.id).trans (hm1.tasksOf_eq_nil hnone)
    refine ⟨fun _ _ => ⟨hm3.tasksOf_eq_nil hnone2, ?_⟩, fun t ht => ?_⟩
    · exact ⟨_, hm3.mem hmarked.rows.mem_new, hmarked.id, rfl⟩
    · cases hparse.symm.trans ht

/-- A first pass is made when there are no tasks yet. -/
theorem firstPass_keeps (hat : At σ r s) (hfaults : σ.faults) (hnone : s.tasksOf r.id = []) :
    (firstPass r.id r.source).Meets (besides σ) (fun _ s' => Kept r s s') s := by
  cases hparse : Expr.parse r.source with
  | error e =>
    unfold firstPass
    rw [hparse]
    exact reject_keeps hat hfaults hnone hparse
  | ok t =>
    refine (firstPass_meets (besides_suits σ) trivial hat (.inr ⟨hfaults, rfl⟩)).mono ?_
    intro result s' hpassed
    obtain ⟨st, -, hadvanced⟩ := (hpassed t hparse).resolve_right fun h => h.1
    have htree : t.refill (s.tasksOf r.id) = t := by rw [hnone, Tree.refill_nil]
    rw [← htree] at hadvanced
    exact kept_of_parse hparse hadvanced.not_error
      (hadvanced.settled hat (ExpressionRow.parses_of_source hparse))

/-- Only one expression has the task. -/
theorem own_of_task (hat : At σ r s) (hk : k ∈ s.tasksOf r.id)
    (ho : (besides (σ.only r.id)).others s s') {e : Int} {k' : Task} (hk' : k' ∈ s'.tasksOf e)
    (hid : k'.id = k.id) : (σ.only r.id).own e := by
  obtain ⟨hm, hs'⟩ := ho (hat.sound.only hat.own)
  obtain ⟨k1, hk1, hlater⟩ := (hm.tasks r.id).exists_new hk
  have hsame := hs'.wellFormed.eq_of_task_id hk' hk1 (hid.trans hlater.id.symm)
  show e = r.id
  rw [← Store.expressionId_of_mem hk', hsame]
  exact Store.expressionId_of_mem hk1

/-- The pass after a task of an expression whose text parses. -/
theorem passAfter_keeps (hat : At σ r s) (hk : k ∈ s.tasksOf r.id) :
    (passAfter k.id).Meets (besides (σ.only r.id))
      (fun _ s' => ¬s.ExpressionIs r.id .error → (∃ t, Expr.parse r.source = .ok t) → Kept r s s')
      s := by
  have hρ := besides_suits (σ.only r.id)
  have hat' : At (σ.only r.id) r s := ⟨hat.sound.only hat.own, hat.mem, rfl⟩
  refine (passAfter_meets hρ hat'.sound k.id fun s' ho e k' hk' hid =>
    own_of_task hat hk ho hk' hid).mono ?_
  rintro result s' hfollowed hgoing ⟨t, hparse⟩
  have ht := ExpressionRow.parses_of_source hparse
  have hfollowed := hfollowed r hat.mem ⟨k, hk, rfl⟩ t ht
  cases hr : r.isUnfinished with
  | true =>
    obtain ⟨s0, ho, hpassed⟩ := hfollowed.unfinished hr
    obtain ⟨hat0, hm⟩ := hat'.others hρ ho
    obtain ⟨st, -, hadvanced⟩ := hpassed.resolve_right fun h => h.1
    refine kept_of_parse hparse hadvanced.not_error fun hanswered hdone => ?_
    exact hadvanced.settled hat0 ht hanswered fun k0 hk0 hd =>
      (hm.tasks r.id).mem_of_done (hdone k0 hk0 hd) hd
  | false =>
    have hat1 := hfollowed.finished hr
    have hdone : r.status = ExpressionStatus.done.name :=
      (hat.finished_cases hr).resolve_right fun herror => hgoing ⟨r, hat.mem, rfl, herror⟩
    refine kept_of_parse hparse (fun herror => ?_) fun _ _ => hat1.settled_of_done ht hdone
    have hstatus := herror.status_eq hat1.sound.wellFormed hat1.mem
    exact absurd (hdone.symm.trans hstatus) (by decide)

end Kept

/-! ## Between two passes -/

/-- What holds of an expression over which no pass is being made: one of its finished tasks may
still be owed a pass. -/
structure Rests (owed : List Int) (r : ExpressionRow) (s : Store) : Prop where
  rejected : ∀ e, Expr.parse r.source = .error e →
    s.tasksOf r.id = [] ∧ s.ExpressionIs r.id .error
  parsed : ∀ t, Expr.parse r.source = .ok t → ¬s.ExpressionIs r.id .error ∧
    (Settled r t s ∨ ∃ k ∈ s.tasksOf r.id, k.status = .done ∧ k.id ∈ owed)

section Rests

variable {σ : Scope} {r : ExpressionRow} {t : Tree} {s s' s0 : Store} {k k' : Task} {c : Call}
  {owed owed' : List Int}

/-- The pass has ended, and what was finished meanwhile is still owed a pass. -/
theorem Kept.rests (h : Kept r s0 s) (hanswered : ∀ k ∈ s.tasksOf r.id, k.Answered)
    (hnews : ∀ k ∈ s.tasksOf r.id, k.status = .done → k ∈ s0.tasksOf r.id ∨ k.id ∈ owed) :
    Rests owed r s := by
  refine ⟨h.rejected, fun t ht => ?_⟩
  obtain ⟨hgoing, hsettled⟩ := h.parsed t ht
  refine ⟨hgoing, ?_⟩
  by_cases hnone : ∃ k ∈ s.tasksOf r.id, k.status = .done ∧ k.id ∈ owed
  · exact .inr hnone
  · refine .inl (hsettled hanswered fun k hk hdone => ?_)
    exact (hnews k hk hdone).resolve_right fun howed => hnone ⟨k, hk, hdone, howed⟩

theorem Untouched.expressionIs {e : Int} {st : ExpressionStatus} (hu : Untouched e s s') :
    s'.ExpressionIs e st ↔ s.ExpressionIs e st :=
  hu.exists_row

theorem Rests.congr {r' : ExpressionRow} (h : Rests owed r s) (hid : r'.id = r.id)
    (hsource : r'.source = r.source) : Rests owed r' s := by
  constructor <;> rw [hid, hsource]
  · exact h.rejected
  · intro t ht
    obtain ⟨hgoing, hcase⟩ := h.parsed t ht
    exact ⟨hgoing, hcase.imp_left (·.congr hid)⟩

theorem Rests.untouched (h : Rests owed r s) (hu : Untouched r.id s s')
    (howed : ∀ k ∈ s.tasksOf r.id, k.id ∈ owed → k.id ∈ owed') : Rests owed' r s' := by
  constructor <;> rw [hu.expressionIs, hu.tasks]
  · exact h.rejected
  · intro t ht
    obtain ⟨hgoing, hcase⟩ := h.parsed t ht
    refine ⟨hgoing, hcase.imp (·.untouched hu) ?_⟩
    rintro ⟨k, hk, hdone, hk'⟩
    exact ⟨k, hk, hdone, howed k hk hk'⟩

/-- Nothing is owed to the expression, so it is settled. -/
theorem Rests.settled (h : Rests [] r s) (ht : Expr.parse r.source = .ok t) : Settled r t s := by
  refine (h.parsed t ht).2.resolve_right ?_
  rintro ⟨k, -, -, howed⟩
  exact absurd howed List.not_mem_nil

/-- A task that changes hands without being finished is still taken care of. -/
theorem Settled.moved (h : Settled r t s) (htracked : Tracked t (s.tasksOf r.id))
    (hmoves : Moves c k k') (hmoved : Moved k k' s s') (hid : k.expressionId = r.id)
    (hunfinished : k'.status ≠ .done) : Settled r t s' := by
  have hreplaces : Replaces k k' (s.tasksOf r.id) (s'.tasksOf r.id) := hid ▸ hmoved.tasksOf
  have hvalid := htracked.valid k hreplaces.mem
  have hsame : s'.remaining r.id t = s.remaining r.id t := by
    rw [Store.remaining_eq, Store.remaining_eq]
    exact refill_replaces_of_none htracked.nodup hreplaces hmoves.later.path
      (hvalid.result_eq_none hmoves.unfinished)
      ((hmoves.valid hvalid).result_eq_none hunfinished) t
  constructor <;> rw [hsame, hmoved.expressions]
  · exact h.done
  · intro hnode
    obtain ⟨hrow, hawaits⟩ := h.inProgress hnode
    refine ⟨hrow, fun x hx => ?_⟩
    obtain ⟨k0, hk0, hcovers, hstatus⟩ := hawaits x hx
    by_cases heq : k0 = k
    · subst heq
      exact ⟨k', hreplaces.mem_new, hmoves.later.covers_eq x ▸ hcovers, hunfinished⟩
    · exact ⟨k0, hreplaces.mem_of_ne hk0 heq, hcovers, hstatus⟩

/-- A task changes hands; if it is finished then it is owed a pass. -/
theorem Rests.moved (h : Rests owed r s) (hat : At σ r s) (hmoves : Moves c k k')
    (hmoved : Moved k k' s s') (hid : k.expressionId = r.id) (howed : owed ⊆ owed')
    (hdone : k'.status = .done → k'.id ∈ owed') : Rests owed' r s' := by
  have hmem : k ∈ s.tasksOf r.id := hid ▸ hmoved.mem
  have hmem' : k' ∈ s'.tasksOf r.id := hid ▸ hmoved.mem_new
  refine ⟨fun e he => ?_, fun t ht => ?_⟩
  · rw [(h.rejected e he).1] at hmem
    cases hmem
  · obtain ⟨hgoing, hcase⟩ := h.parsed t ht
    refine ⟨by rwa [Store.ExpressionIs, hmoved.expressions], ?_⟩
    by_cases hfinished : k'.status = .done
    · exact .inr ⟨k', hmem', hfinished, hdone hfinished⟩
    · refine hcase.imp (fun hsettled => ?_) ?_
      · have htracked := hat.tracked (ExpressionRow.parses_of_source ht)
        exact hsettled.moved htracked hmoves hmoved hid hfinished
      · rintro ⟨k0, hk0, hdone0, hk0'⟩
        refine ⟨k0, hmoved.mem_of_ne hk0 ?_, hdone0, howed hk0'⟩
        rintro rfl
        exact hmoves.unfinished hdone0

end Rests

end Piecework
