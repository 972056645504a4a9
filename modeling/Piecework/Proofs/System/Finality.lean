import Piecework.Proofs.System.Value

/-!
# Finished expressions

Of the three ways to a pass only one looks whether the expression is finished.  The others
do no harm when they make a later pass: it finds what was found before and writes down the
same (`Verdicts.same`).  A first pass does: it takes the expression for a new one, and if
there is an operation in it the expression is under way again, without its result and its
steps.

`finished_until_first_pass` says both: what a finished expression shows stays as long as no
first pass over it makes a call, and when such a pass has come to its end it is gone.
-/

namespace Piecework

/-- There is something to compute in the source of the expression. -/
def ExpressionRow.HasOperation (r : ExpressionRow) : Prop := ∃ t, r.Parses t ∧ t.isLeaf = false

/-- Nothing more is to be done for the expression. -/
def ExpressionRow.IsFinished (r : ExpressionRow) : Prop :=
  r.status = ExpressionStatus.done.name ∨ r.status = ExpressionStatus.error.name

/-- The store still shows of an expression what its row shows. -/
def Shows (r : ExpressionRow) (s : Store) : Prop :=
  ∃ r' ∈ s.expressions, r'.id = r.id ∧ r'.source = r.source ∧ r'.status = r.status ∧
    r'.result = r.result ∧ r'.steps = r.steps

theorem ExpressionRow.HasOperation.congr {r r' : ExpressionRow} (h : r.HasOperation)
    (hsource : r'.source = r.source) : r'.HasOperation := by
  obtain ⟨t, ht, hnode⟩ := h
  exact ⟨t, by rw [ExpressionRow.Parses, hsource]; exact ht, hnode⟩

/-- A text that does not parse is all that makes an expression end in error. -/
theorem Scheduled.of_error {tasks : List Task} {r : ExpressionRow} (h : Scheduled False tasks r)
    (herror : r.status = ExpressionStatus.error.name) :
    r.result = none ∧ ∃ e, Expr.parse (columnText r.source) = .error e ∧
      r.steps = some (stepsFormat.encode (rejection e)) := by
  cases h.standing with
  | pending hstatus | inProgress _ hstatus | done _ _ hstatus =>
    exact absurd (hstatus.symm.trans herror) (by decide)
  | error _ hresult hcause => exact ⟨hresult, hcause.resolve_left id⟩

/-- A finished expression is marked as what it is, except by a first pass over an operation. -/
theorem Verdicts.same {first : Prop} {tasks : List Task} {r : ExpressionRow}
    {status : ExpressionStatus} {result : Option Float} {steps : Option (List String)}
    (h : Verdicts False first tasks r status result steps) (hsched : Scheduled False tasks r)
    (hfinished : r.IsFinished) (hfirst : r.HasOperation → ¬first) :
    status.name = r.status ∧ result.bind columnFloat = r.result ∧
      steps.map stepsFormat.encode = r.steps := by
  -- an expression that parses is done
  have hparses : ∀ {t}, r.Parses t → r.status = ExpressionStatus.done.name := by
    intro t ht
    refine hfinished.resolve_right fun herror => ?_
    obtain ⟨-, e, he, -⟩ := hsched.of_error herror
    cases ht.symm.trans he
  cases h with
  | @done t v ht hleaf =>
    obtain ⟨t', v', ht', hleaf', hresult, hsteps⟩ := hsched.of_done (hparses ht)
    cases ht.unique ht'
    cases hleaf.symm.trans hleaf'
    exact ⟨(hparses ht).symm, hresult.symm, hsteps.symm⟩
  | @inProgress t ht hnode hmay =>
    rcases hmay with hmay | hnot
    · exact absurd hmay (hfirst ⟨t, ht, hnode⟩)
    · exact absurd (hparses ht) hnot
  | @rejected e he =>
    rcases hfinished with hdone | herror
    · obtain ⟨t, v, ht, -⟩ := hsched.of_done hdone
      cases ht.symm.trans he
    · obtain ⟨hresult, e', he', hsteps⟩ := hsched.of_error herror
      cases he.symm.trans he'
      exact ⟨herror.symm, hresult.symm, hsteps.symm⟩
  | gaveUp _ hfaults => exact hfaults.elim

namespace System

variable {y y' : System} {r : ExpressionRow}

/-- No first pass makes a call over an expression in which there is an operation, and the
store is not lost. -/
def Leaves (r : ExpressionRow) (y : System) (event : Event) : Prop :=
  event ≠ .lose ∧ (event = .proceed → r.HasOperation →
    ∀ pass p, y.running = some (pass, p) → ¬pass.IsFirst r.id)

theorem Shows.of_rows {s s' : Store} (h : Shows r s)
    (hrows : ∀ r' ∈ s.expressions, r' ∈ s'.expressions) :
    Shows r s' := by
  obtain ⟨r', hr', hshows⟩ := h
  exact ⟨r', hrows r' hr', hshows⟩

/-- One event changes nothing of what a finished expression shows, unless it is a call of a
first pass. -/
theorem Shows.step {event : Event} (h : Shows r y.store) (hfinished : r.IsFinished)
    (hsound : y.Sound False) (hleaves : Leaves r y event) (hstep : Step False y event y') :
    Shows r y'.store := by
  have hchanged := hsound.changed hstep
  generalize y'.store = s at hchanged ⊢
  cases hchanged with
  | kept => exact h
  | elsewhere he => exact Shows.of_rows h fun r' hr' => he.meanwhile.mem hr'
  | lost => exact absurd rfl hleaves.1
  | @effect pass c next _ hrunning he =>
    cases he with
    | read => exact h
    | issued _ _ _ _ _ _ hissued =>
      exact Shows.of_rows h fun r' hr' => by rw [hissued.expressions]; exact hr'
    | @marked _ _ r0 status result steps stamp _ hverdict hmarked =>
      obtain ⟨r', hr', hid, hsource, hstatus, hresult, hsteps⟩ := h
      by_cases heq : r' = r0
      · subst heq
        have hsched := hsound.store.scheduled r' hr' trivial
        have hfinished' : r'.IsFinished := by
          rw [ExpressionRow.IsFinished, hstatus]
          exact hfinished
        have hfirst : r'.HasOperation → ¬pass.IsFirst r'.id := by
          intro hop
          rw [hid]
          exact hleaves.2 rfl (hop.congr hsource.symm) pass _ hrunning
        obtain ⟨hs, hr, ht⟩ := hverdict.same hsched hfinished' hfirst
        exact ⟨_, hmarked.rows.mem_new, hid, hsource, hs.trans hstatus, hr.trans hresult,
          ht.trans hsteps⟩
      · exact ⟨r', hmarked.rows.mem_of_ne hr' heq, hid, hsource, hstatus, hresult, hsteps⟩

/-- Identifiers and texts stay as long as the store is there. -/
theorem sameTexts_of_step {faults : Prop} {event : Event} (hsound : y.Sound faults)
    (hlose : event ≠ .lose) (hstep : Step faults y event y') : SameTexts y.store y'.store := by
  have hchanged := hsound.changed hstep
  generalize y'.store = s at hchanged ⊢
  cases hchanged with
  | kept => exact .refl _
  | elsewhere he => exact he.meanwhile.sameTexts
  | effect _ he => exact he.sameTexts
  | lost => exact absurd rfl hlose

/-- A first pass that has come to its end has left the expression under way. -/
theorem Sound.underWay {pass : Pass} {result : Except Error ExpressionStatus} {r' : ExpressionRow}
    (hsound : y.Sound False) (hr' : r' ∈ y.store.expressions) (hop : r'.HasOperation)
    (hrunning : y.running = some (pass, .done result)) (hfirst : pass.IsFirst r'.id) :
    UnderWay r'.id y.store := by
  obtain ⟨text, htext⟩ := hfirst
  obtain ⟨t, ht, hnode⟩ := hop
  have hended : Ended False pass result y.store :=
    hsound.running pass _ hrunning y.store fun hs => ⟨.refl _, hs⟩
  have hsame : text = columnText r'.source :=
    (hsound.text_of_first hrunning hr' htext).resolve_right fun h => h.1
  exact (hended r'.id text t htext (hsame ▸ ht) hnode).resolve_left id

/-- Identifiers and texts stay in runs that do not lose the store. -/
theorem Sound.run_sameTexts {faults : Prop} (hsound : y.Sound faults)
    (hrun : Run faults (fun _ event => event ≠ .lose) y y') :
    y'.Sound faults ∧ SameTexts y.store y'.store :=
  hsound.closed (P := fun y' => SameTexts y.store y'.store) (.refl _) hrun
    fun hsound hsame hlose hstep => hsame.trans (sameTexts_of_step hsound hlose hstep)

theorem Sound.underWay_of_run {pass : Pass} {result : Except Error ExpressionStatus}
    (hsound : y.Sound False) (hr : r ∈ y.store.expressions) (hop : r.HasOperation)
    (hrun : Run False (fun _ event => event ≠ .lose) y y')
    (hrunning : y'.running = some (pass, .done result)) (hfirst : pass.IsFirst r.id) :
    UnderWay r.id y'.store := by
  obtain ⟨hsound', htexts⟩ := hsound.run_sameTexts hrun
  obtain ⟨r', hr', hid, hsource⟩ := htexts r hr
  rw [← hid] at hfirst ⊢
  exact hsound'.underWay hr' (hop.congr hsource) hrunning hfirst

/-! ## A finished sum that is scheduled again -/

/-- The first pass over the sum, made once more when the sum is done. -/
def sumAgain : System :=
  let after := Site.perform (Schedule.firstPass 1 "1+2") ⟨sumDone, Site.dawn, []⟩
  ⟨after.2.store, [], some (.first 1 "1+2", .done after.1)⟩

theorem sumAgain_run : Run False (fun _ event => OfPass event) ⟨sumDone, [], none⟩ sumAgain := by
  obtain ⟨r, hr, hid, hsource, -⟩ := sumDone_row
  have hready : Ready False ⟨sumDone, [], none⟩ (.first 1 "1+2") :=
    ⟨r, hr, hid, .inl (by rw [hsource]; decide)⟩
  have hbegin : Run False (fun _ event => OfPass event) ⟨sumDone, [], none⟩
      ⟨sumDone, [], some (.first 1 "1+2", Schedule.firstPass 1 "1+2")⟩ :=
    .one (.inl ⟨_, rfl⟩) (.begin rfl hready)
  exact hbegin.trans (proceed_run (y := ⟨sumDone, [], some (.first 1 "1+2", _)⟩) (fun _ _ h => h)
    ⟨sumDone, Site.dawn, []⟩ (.inr Outages.quiet_nil) rfl rfl)

theorem OfPass.ne_lose {event : Event} (h : OfPass event) : event ≠ .lose := by
  rintro rfl
  rcases h with ⟨pass, h⟩ | h | h <;> cases h

/-- A row of an expression under way shows nothing of a finished one. -/
theorem UnderWay.not_shows {s : Store} (h : UnderWay r.id s) (hs : s.WellFormed)
    (hfinished : r.IsFinished) : ¬Shows r s := by
  rintro ⟨r', hr', hid', -, hstatus', -⟩
  obtain ⟨r'', hr'', hid'', hstatus'', -⟩ := h
  cases hs.eq_of_id hr' hr'' (hid'.trans hid''.symm)
  rw [hstatus'] at hstatus''
  rcases hfinished with hdone | herror
  · exact absurd (hdone.symm.trans hstatus'') (by decide)
  · exact absurd (herror.symm.trans hstatus'') (by decide)

/-! ## What is final -/

/-- In runs without failures, a finished expression shows what it shows as long as no first
pass over it makes a call, or there is no operation in it.  A first pass over an operation
that has come to its end has left the expression under way, whatever it had shown. -/
theorem finished_until_first_pass (h : Run False (fun _ _ => True) start y)
    (hr : r ∈ y.store.expressions) (hfinished : r.IsFinished) :
    (∀ y', Run False (Leaves r) y y' → Shows r y'.store) ∧
      ∀ y' pass result, Run False (fun _ event => event ≠ .lose) y y' → r.HasOperation →
        y'.running = some (pass, .done result) → pass.IsFirst r.id → UnderWay r.id y'.store := by
  have hsound := (sound_start False).run h
  constructor
  · intro y' hrun
    have hboth : y'.Sound False ∧ Shows r y'.store := by
      refine hrun.closed (P := fun y => y.Sound False ∧ Shows r y.store)
        ⟨hsound, r, hr, rfl, rfl, rfl, rfl, rfl⟩ ?_
      intro y y' event hy hleaves hstep
      exact ⟨hy.1.step hstep, Shows.step hy.2 hfinished hy.1 hleaves hstep⟩
    exact hboth.2
  · intro y' pass result hrun hop hrunning hfirst
    exact hsound.underWay_of_run hr hop hrun hrunning hfirst

/-- What becomes of the finished sum: another submission leaves it alone, and after a first
pass it is under way. -/
theorem sum_finished_until_first_pass : ∃ r ∈ sumDone.expressions, r.IsFinished ∧
    Shows r (next (.createExpression "bob" "4") sumDone) ∧ UnderWay r.id sumAgain.store := by
  obtain ⟨r, hr, hid, hsource, hdone, -⟩ := sumDone_row
  have hstart : Run False (fun _ _ => True) start ⟨sumDone, [], none⟩ :=
    (sumDone_run False).mono fun _ _ _ => trivial
  obtain ⟨hshows, hunderWay⟩ := finished_until_first_pass hstart hr (.inl hdone)
  refine ⟨r, hr, .inl hdone, ?_, ?_⟩
  · exact hshows _ (serve_next (y := ⟨sumDone, [], none⟩) rfl ⟨nofun, nofun⟩)
  · have hrun : Run False (fun _ event => event ≠ .lose) ⟨sumDone, [], none⟩ sumAgain :=
      sumAgain_run.mono fun _ _ h => h.ne_lose
    exact hunderWay _ _ _ hrun ⟨_, parses_sum hsource, rfl⟩ rfl ⟨"1+2", by rw [hid]; rfl⟩

/-- A finished sum does not stay finished when it is scheduled once more. -/
theorem sum_scheduled_again : Run False Honest start ⟨sumDone, [], none⟩ ∧
    ∃ r ∈ sumDone.expressions, r.IsFinished ∧ r.result = some 3 ∧
      ∃ y, Run False (fun _ event => OfPass event) ⟨sumDone, [], none⟩ y ∧ ¬Shows r y.store := by
  refine ⟨sumDone_run False, ?_⟩
  obtain ⟨r, hr, hid, hsource, hdone, hresult⟩ := sumDone_row
  refine ⟨r, hr, .inl hdone, hresult, sumAgain, sumAgain_run, ?_⟩
  have hsound := (sound_start False).run (sumDone_run False)
  have hrun : Run False (fun _ event => event ≠ .lose) ⟨sumDone, [], none⟩ sumAgain :=
    sumAgain_run.mono fun _ _ h => h.ne_lose
  have hunderWay := hsound.underWay_of_run hr ⟨_, parses_sum hsource, rfl⟩ hrun rfl
    ⟨"1+2", by rw [hid]; rfl⟩
  exact hunderWay.not_shows (hsound.run hrun).store.wellFormed (.inl hdone)

end System

end Piecework
