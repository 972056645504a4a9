import Piecework.Proofs.Schedule.Settled
import Piecework.Server.Basic

/-!
# Taking expressions

A submission stores its expression and leaves a first pass behind.  The passes are made in
the background, so in any order, and other submissions may come in between: `Intake`.

`Taken` is the invariant.  The expressions that were submitted are the ones that are newer
than the store at the beginning, they have no finished tasks yet, and each of them is
settled as soon as its first pass was made.
-/

namespace Piecework

open Schedule

/-- The expressions that are newer than an identifier are followed, and no call fails. -/
def Scope.newer (base : Int) : Scope := ⟨fun i => base < i, False⟩

theorem Store.remaining_of_unfinished {s : Store} {e : Int}
    (h : ∀ k ∈ s.tasksOf e, k.status ≠ .done)
    (t : Tree) : s.remaining e t = t := by
  rw [Store.remaining_eq]
  have hnil : t.refill ([] ++ s.tasksOf e) = t.refill [] := refill_append_unfinished h
  exact hnil.trans t.refill_nil

namespace Server

/-- Expressions are submitted, and first passes are made, in any order.  The list says what
was submitted, with the identifiers that were given. -/
inductive Intake (s : Server) : List (Int × String) → Server → Prop
  | start : Intake s [] s
  | submit {jobs : List (Int × String)} {s' s'' : Server} {owner text : String} {id : Int} :
      Intake s jobs s' → s'.submit owner text = (.ok id, s'') →
      Intake s (jobs ++ [(id, text)]) s''
  | schedule {jobs front back : List (Int × String)} {s' : Server} {id : Int} {text : String} :
      Intake s jobs s' → s'.arrivals = front ++ (id, text) :: back →
      Intake s jobs { s' with
        site := (s'.site.perform (firstPass id text)).2
        arrivals := front ++ back }

/-- What the store knows of submitted expressions. -/
structure Known (base : Int) (jobs : List (Int × String)) (s : Store) : Prop where
  row : ∀ job ∈ jobs, ∃ r ∈ s.expressions, r.id = job.1 ∧ r.source = job.2
  newer : ∀ job ∈ jobs, base < job.1
  unique : (jobs.map Prod.fst).Nodup
  only : ∀ r ∈ s.expressions, base < r.id → r.id ∈ jobs.map Prod.fst
  last : base ≤ s.lastExpression

/-- A task of an expression that was not submitted is finished, and the others wait. -/
def Fresh (base : Int) (k : Task) : Prop :=
  k.status = .done ∧ k.expressionId ≤ base ∨ k.status = .pending ∧ base < k.expressionId

/-- What holds while expressions are being taken. -/
structure Taken (base : Int) (jobs arrivals : List (Int × String)) (s : Store) : Prop where
  sound : Sound (.newer base) s
  known : Known base jobs s
  waiting : ∀ job ∈ arrivals, job ∈ jobs
  tasks : s.AllTasks (Fresh base)
  settled : ∀ job ∈ jobs, job ∉ arrivals → ∀ r ∈ s.expressions, r.id = job.1 → ∀ t, r.Parses t →
    Settled r t s

section Taken

variable {base : Int} {jobs arrivals front back : List (Int × String)} {job : Int × String}
  {s s' : Store} {e : Int} {r : ExpressionRow} {t : Tree}

/-- At the beginning there is nothing to do, and everything else is finished. -/
theorem taken_nil (hs : s.WellFormed) (hrest : s.AllTasks fun k => k.status = .done) :
    Taken s.lastExpression [] [] s := by
  have hnone : ∀ r ∈ s.expressions, ¬s.lastExpression < r.id := fun r hr =>
    Int.not_lt.2 (hs.lastExpression r hr)
  refine ⟨⟨hs, fun r hr hown => absurd hown (hnone r hr)⟩,
    ⟨by simp, by simp, List.nodup_nil, fun r hr hown => absurd hown (hnone r hr), Int.le_refl _⟩,
    by simp, fun e k hk => .inl ⟨hrest e k hk, ?_⟩, by simp⟩
  obtain ⟨r, hr, hid⟩ := hs.exists_parent hk
  rw [Store.expressionId_of_mem hk, ← hid]
  exact hs.lastExpression r hr

/-- No task of a submitted expression is finished. -/
theorem Taken.unfinished (h : Taken base jobs arrivals s) (he : base < e) :
    ∀ k ∈ s.tasksOf e, k.status ≠ .done := by
  intro k hk hdone
  rcases h.tasks e k hk with ⟨-, hle⟩ | ⟨hpending, -⟩
  · rw [Store.expressionId_of_mem hk] at hle
    omega
  · rw [hdone] at hpending
    cases hpending

/-! ### A submission -/

theorem Known.submitted {text : String} (h : Known base jobs s) (hs : s.WellFormed)
    (hsubmitted : Store.Submitted text s s') :
    Known base (jobs ++ [(s.lastExpression + 1, text)]) s' := by
  obtain ⟨new, hrows, hid, hsource, -⟩ := hsubmitted.rows
  have hlast := h.last
  refine ⟨fun job hjob => ?_, fun job hjob => ?_, ?_, fun r hr hnewer => ?_, ?_⟩
  · rw [hrows]
    rcases List.mem_append.1 hjob with hjob | hjob
    · obtain ⟨r, hr, hshows⟩ := h.row job hjob
      exact ⟨r, List.mem_append_left _ hr, hshows⟩
    · rw [List.mem_singleton.1 hjob]
      exact ⟨new, by simp, hid, hsource⟩
  · rcases List.mem_append.1 hjob with hjob | hjob
    · exact h.newer job hjob
    · rw [List.mem_singleton.1 hjob]
      exact Int.lt_add_one_of_le hlast
  · rw [List.map_append, List.nodup_append]
    refine ⟨h.unique, List.nodup_singleton _, ?_⟩
    rintro i hi j hj rfl
    obtain ⟨job, hjob, rfl⟩ := List.mem_map.1 hi
    obtain ⟨r, hr, hid', -⟩ := h.row job hjob
    have hle := hs.lastExpression r hr
    have heq : job.1 = s.lastExpression + 1 := List.mem_singleton.1 hj
    omega
  · rw [hrows, List.mem_append, List.mem_singleton] at hr
    rw [List.map_append, List.mem_append]
    rcases hr with hr | rfl
    · exact .inl (h.only r hr hnewer)
    · exact .inr (by simp [hid])
  · rw [hsubmitted.lastExpression]
    omega

theorem Taken.submitted {text : String} (h : Taken base jobs arrivals s)
    (hsubmitted : Store.Submitted text s s') :
    Taken base (jobs ++ [(s.lastExpression + 1, text)])
      (arrivals ++ [(s.lastExpression + 1, text)]) s' := by
  refine ⟨h.sound.elsewhere (.submitted "" text hsubmitted),
    h.known.submitted h.sound.wellFormed hsubmitted, fun job hjob => ?_,
    h.tasks.congr hsubmitted.tasks, fun job hjob hnot r hr hid t ht => ?_⟩
  · rcases List.mem_append.1 hjob with hjob | hjob
    · exact List.mem_append_left _ (h.waiting job hjob)
    · exact List.mem_append_right _ hjob
  · -- the new expression waits for its first pass, so this is another one
    rw [List.mem_append, not_or] at hnot
    have hjob' : job ∈ jobs := (List.mem_append.1 hjob).resolve_right hnot.2
    obtain ⟨r', hr', hid', -⟩ := h.known.row job hjob'
    have hle := h.sound.wellFormed.lastExpression r' hr'
    have huntouched : Untouched r.id s s' := hsubmitted.untouched (by omega)
    have hr'' := (huntouched.rows r rfl).1 hr
    exact (h.settled job hjob' hnot.1 r hr'' hid t ht).untouched huntouched

/-! ### A first pass -/

theorem Known.passedOver (h : Known base jobs s) {σ : Scope} {job : Int × String}
    (hjob : job ∈ jobs)
    (hover : PassedOver σ job.1 s s') : Known base jobs s' := by
  refine ⟨fun job' hjob' => ?_, h.newer, h.unique, fun r hr hnewer => ?_, ?_⟩
  · obtain ⟨r, hr, hid, hsource⟩ := h.row job' hjob'
    obtain ⟨r', hr', hid', hsource'⟩ := hover.texts r hr
    exact ⟨r', hr', hid'.trans hid, hsource'.trans hsource⟩
  · by_cases heq : r.id = job.1
    · rw [heq]
      exact List.mem_map_of_mem hjob
    · exact h.only r (((hover.others _ heq).rows r rfl).1 hr) hnewer
  · rw [hover.lastExpression]
    exact h.last

/-- Without finished tasks, a first pass settles its expression. -/
theorem Taken.settled_of_brought (h : Taken base jobs arrivals s) (hs' : Sound (.newer base) s')
    (hnewer : base < r.id) (ht : r.Parses t) (hbrought : Brought r t literalSteps s s') :
    Settled r t s' := by
  have hremaining := Store.remaining_of_unfinished (h.unfinished hnewer) t
  refine hbrought.settled (hbrought.tracked hs' hnewer ht)
    (fun k hk => Task.answered_of_unfinished (h.unfinished hnewer k hk)) ?_ ?_ <;> rw [hremaining]
  exact fun x hx => .inl hx

/-- A first pass settles its expression and leaves the others alone. -/
theorem Taken.scheduled (h : Taken base jobs (front ++ job :: back) s) (hid : r.id = job.1)
    (hover : PassedOver (.newer base) r.id s s') (ht : r.Parses t)
    (hbrought : Brought r t literalSteps s s') : Taken base jobs (front ++ back) s' := by
  have hjob : job ∈ jobs := h.waiting job (by simp)
  have hnewer : base < r.id := hid ▸ h.known.newer job hjob
  refine ⟨hover.sound, h.known.passedOver hjob (hid ▸ hover), fun job' hjob' => ?_,
    hbrought.allTasks hover h.tasks fun k x hx hk => .inr ⟨hx.status, hk ▸ hnewer⟩,
    fun job' hjob' hnot r' hr' hid' t' ht' => ?_⟩
  · refine h.waiting job' ?_
    rw [List.mem_append, List.mem_cons]
    exact (List.mem_append.1 hjob').imp_right .inr
  · by_cases heq : r'.id = r.id
    · obtain ⟨stamp, hrow⟩ := hbrought.row
      have hrow' : r' = r.concluded t literalSteps stamp :=
        hover.sound.wellFormed.eq_of_id hr' hrow (heq.trans (ExpressionRow.concluded_id stamp).symm)
      have hsame : t' = t := by
        rw [ExpressionRow.Parses, hrow', ExpressionRow.concluded_source] at ht'
        exact ExpressionRow.Parses.unique ht' ht
      rw [hsame]
      exact (h.settled_of_brought hover.sound hnewer ht hbrought).congr heq
    · have huntouched := hover.others r'.id heq
      have hr'' := (huntouched.rows r' rfl).1 hr'
      refine (h.settled job' hjob' ?_ r' hr'' hid' t' ht').untouched huntouched
      rw [List.mem_append, List.mem_cons, not_or, not_or]
      rw [List.mem_append, not_or] at hnot
      refine ⟨hnot.1, ?_, hnot.2⟩
      rintro rfl
      exact heq (hid'.trans hid.symm)

end Taken

/-! ## What the server does -/

/-- A site without failures ahead stores every submission. -/
theorem submit_performed {site : Site} (hquiet : site.outages.Quiet) (owner text : String) :
    ∃ site' : Site, site'.outages.Quiet ∧ Store.Submitted text site.store site'.store ∧
      site.perform (Clients.submit owner text) =
        (.ok (site.store.lastExpression + 1, .schedule (site.store.lastExpression + 1) text),
          site') := by
  obtain ⟨now, id, site', hquiet', heq, hperform⟩ := Site.perform_answered
    (c := .createExpression owner text) (fun id => pure (id, Job.schedule id text)) hquiet
    fun now => ⟨_, _, rfl⟩
  have hid : site.store.lastExpression + 1 = id := congrArg Prod.fst (Except.ok.inj heq)
  refine ⟨site', hquiet', ?_, hid.symm ▸ hperform⟩
  rw [← show (site.store.createExpression now owner text).2 = site'.store from
    congrArg Prod.snd (Except.ok.inj heq)]
  exact Store.createExpression_submitted ..

/-- A server without failures ahead takes every submission. -/
theorem submit_quiet {s : Server} (hquiet : s.site.outages.Quiet) (owner text : String) :
    ∃ site : Site, site.outages.Quiet ∧ Store.Submitted text s.site.store site.store ∧
      s.submit owner text = (.ok (s.site.store.lastExpression + 1), { s with
        site
        arrivals := s.arrivals ++ [(s.site.store.lastExpression + 1, text)] }) := by
  obtain ⟨site, hquiet', hsubmitted, hperform⟩ := submit_performed hquiet owner text
  refine ⟨site, hquiet', hsubmitted, ?_⟩
  unfold submit perform
  rw [hperform]
  rfl

/-- What the server is apart from its store stays, while expressions are being taken. -/
structure Waiting (s s' : Server) : Prop where
  quiet : s'.site.outages.Quiet
  dispatcher : s'.dispatcher = s.dispatcher
  terms : s'.terms = s.terms

/-- While expressions that parse are being taken, those whose first pass was made are settled. -/
theorem Intake.taken {s s' : Server} {jobs : List (Int × String)} (h : Intake s jobs s')
    (hs : s.site.store.WellFormed) (hrest : s.site.store.AllTasks fun k => k.status = .done)
    (hidle : s.arrivals = []) (hquiet : s.site.outages.Quiet)
    (hparses : ∀ job ∈ jobs, ∃ t, Expr.parse job.2 = .ok t) :
    Taken s.site.store.lastExpression jobs s'.arrivals s'.site.store ∧ Waiting s s' := by
  induction h with
  | start => exact ⟨hidle ▸ taken_nil hs hrest, hquiet, rfl, rfl⟩
  | @submit jobs s' s'' owner text id _ hsubmit ih =>
    obtain ⟨htaken, hwaiting⟩ := ih fun job hjob => hparses job (List.mem_append_left _ hjob)
    obtain ⟨site, hquiet', hsubmitted, hsubmit'⟩ := submit_quiet hwaiting.quiet owner text
    cases hsubmit.symm.trans hsubmit'
    exact ⟨htaken.submitted hsubmitted, hquiet', hwaiting.dispatcher, hwaiting.terms⟩
  | @schedule jobs front back s' id text _ harrivals ih =>
    obtain ⟨htaken, hwaiting⟩ := ih hparses
    rw [harrivals] at htaken
    have hjob : (id, text) ∈ jobs := htaken.waiting _ (by simp)
    obtain ⟨r, hr, hid, hsource⟩ := htaken.known.row _ hjob
    obtain ⟨t, ht⟩ := hparses _ hjob
    -- the store gives the text back as it was submitted
    have htext : text = columnText r.source := by
      rw [hsource]
      exact (Expr.columnText_of_parse ht).symm
    have hat : At (.newer s.site.store.lastExpression) r s'.site.store :=
      ⟨htaken.sound, hr, hid ▸ htaken.known.newer _ hjob⟩
    obtain ⟨hover, hquiet', hbrought⟩ := firstPass_alone hat hwaiting.quiet htext
    have hparses' : r.Parses t := by
      rw [ExpressionRow.Parses, ← htext]
      exact ht
    replace hbrought := hbrought t hparses'
    rw [hid] at hover hquiet' hbrought
    exact ⟨htaken.scheduled hid (hid ▸ hover) hparses' hbrought, hquiet', hwaiting.dispatcher,
      hwaiting.terms⟩

end Server

end Piecework
