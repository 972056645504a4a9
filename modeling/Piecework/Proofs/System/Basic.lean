import Piecework.Proofs.Schedule.Passes
import Piecework.Schedule.Dispatcher

/-!
# The system

A store, the passes that are made over it, and everybody else who asks something of it.
One pass at a time has the lock.  It makes its calls one by one, and between two of them
clients submit expressions and workers lease, complete and fail tasks.  A recovery lists
the unfinished expressions without the lock and makes its passes later.

* `Step` is one event, `Run` any number of them.
* `Sound.step` and `Sound.run` carry the invariant: the store is sound, and what is left of
  the pass that has the lock keeps to the rules of `Rules.among`.  `Sound.closed` carries
  whatever the events keep of a sound system.
* `Sound.changed` says what an event may do to the store.
* `perform_run` says that a pass which a site makes at once is one of the runs.
-/

namespace Piecework

open Schedule

/-- A pass, by what it is made for. -/
inductive Pass where
  /-- The first pass over a text, as its submission asks for it. -/
  | first (expressionId : Int) (text : String)
  /-- The pass after a task was completed or failed. -/
  | after (taskId : Int)
  /-- The pass over an expression that a recovery has listed. -/
  | resumed (e : Expression)

namespace Pass

/-- The calls of a pass. -/
def program : Pass → Program Error ExpressionStatus
  | first expressionId text => firstPass expressionId text
  | after taskId => passAfter taskId
  | resumed e => resume e

/-- The expression and the text that the pass is a first pass over, if it is one. -/
def first? : Pass → Option (Int × String)
  | first expressionId text => some (expressionId, text)
  | after _ => none
  | resumed e => if e.status = .pending then some (e.id, e.source) else none

/-- Whether the pass is a first pass over an expression. -/
def IsFirst (pass : Pass) (expressionId : Int) : Prop :=
  ∃ text, pass.first? = some (expressionId, text)

/-- The pass is about an expression that the store knows.  A first pass is made over the text
that was submitted or that the store gives back. -/
def Fits (faults : Prop) : Pass → Store → Prop
  | first expressionId text, s => ∃ r ∈ s.expressions, r.id = expressionId ∧
      (text = columnText r.source ∨ faults ∧ text = r.source)
  | after _, _ => True
  | resumed e, s => Listed s e

end Pass

theorem Pass.Fits.sameTexts {faults : Prop} {pass : Pass} {s s' : Store} (h : pass.Fits faults s)
    (hrows : SameTexts s s') : pass.Fits faults s' := by
  cases pass with
  | first expressionId text =>
    obtain ⟨r, hr, hid, htext⟩ := h
    obtain ⟨r', hr', hid', hsource'⟩ := hrows r hr
    exact ⟨r', hr', hid'.trans hid, hsource'.symm ▸ htext⟩
  | after => trivial
  | resumed e => exact Listed.sameTexts h hrows

/-- The store, the expressions that recoveries have listed, and the pass that has the lock
with what is left of it. -/
structure System where
  store : Store
  listed : List Expression
  running : Option (Pass × Program Error ExpressionStatus)

/-- Something that happens. -/
inductive Event where
  /-- Somebody else's call is answered. -/
  | serve (c : Call)
  /-- A recovery lists the unfinished expressions. -/
  | list
  /-- A pass takes the lock. -/
  | begin (pass : Pass)
  /-- The next call of the pass ends. -/
  | proceed
  /-- The pass gives the lock back, at its end or cut off. -/
  | release
  /-- The process starts again with the same store. -/
  | restart
  /-- The process starts again, and its store was only in memory. -/
  | lose

namespace System

/-- Nothing has happened yet. -/
def start : System := ⟨.empty, [], none⟩

/-- A pass may begin: a first pass is made over the text of its expression, and a recovery
takes up what it has listed. -/
def Ready (faults : Prop) (y : System) : Pass → Prop
  | .resumed e => e ∈ y.listed
  | pass => pass.Fits faults y.store

/-- One event.  A call of somebody else that fails changes nothing, so it is none. -/
inductive Step (faults : Prop) : System → Event → System → Prop
  | serve {y : System} {c : Call} {now : Time.Instant} {reply : c.Reply} {s : Store} :
      Store.schedules c = false → y.store.answer now c = .ok (reply, s) →
      Step faults y (.serve c) { y with store := s }
  | list {y : System} : Step faults y .list { y with listed := y.listed ++ y.store.unfinished }
  | begin {y : System} {pass : Pass} : y.running = none → y.Ready faults pass →
      Step faults y (.begin pass) { y with running := some (pass, pass.program) }
  | proceed {y : System} {pass : Pass} {c : Call}
      {next : Except StoreError c.Reply → Program Error ExpressionStatus}
      {reply : Except StoreError c.Reply} {s : Store} :
      y.running = some (pass, .ask c next) → Served faults y.store c reply s →
      Step faults y .proceed { y with store := s, running := some (pass, next reply) }
  | release {y : System} : Step faults y .release { y with running := none }
  | restart {y : System} : Step faults y .restart ⟨y.store, [], none⟩
  | lose {y : System} : Step faults y .lose start

/-- Any number of events, each of which is admitted when it happens. -/
inductive Run (faults : Prop) (admits : System → Event → Prop) : System → System → Prop
  | refl (y : System) : Run faults admits y y
  | step {y y' y'' : System} {event : Event} : Run faults admits y y' → admits y' event →
      Step faults y' event y'' → Run faults admits y y''

section Run

variable {faults : Prop} {admits admits' : System → Event → Prop} {y y' y'' : System}

theorem Run.trans (h : Run faults admits y y') (h' : Run faults admits y' y'') :
    Run faults admits y y'' := by
  induction h' with
  | refl => exact h
  | step _ hadmits hstep ih => exact .step ih hadmits hstep

theorem Run.mono (h : Run faults admits y y') (himp : ∀ y event, admits y event → admits' y event) :
    Run faults admits' y y' := by
  induction h with
  | refl => exact .refl _
  | step _ hadmits hstep ih => exact .step ih (himp _ _ hadmits) hstep

theorem Run.one {event : Event} (hadmits : admits y event) (hstep : Step faults y event y') :
    Run faults admits y y' := .step (.refl y) hadmits hstep

/-- What every admitted event keeps holds at the end of a run. -/
theorem Run.closed {P : System → Prop} (h : Run faults admits y y') (hP : P y)
    (hstep : ∀ {y y' event}, P y → admits y event → Step faults y event y' → P y') : P y' := by
  induction h with
  | refl => exact hP
  | step _ hadmits hs ih => exact hstep ih hadmits hs

end Run

/-! ## Soundness -/

/-- Every expression of the system is followed. -/
def scope (faults : Prop) : Scope := ⟨fun _ => True, faults⟩

/-- The rules for a pass among others. -/
def among (faults : Prop) (first : Int → Prop) : Rules where
  others s s' := Piecework.Sound (scope faults) s →
    Meanwhile s s' ∧ Piecework.Sound (scope faults) s'
  refl s hs := ⟨.refl s, hs⟩
  trans h h' hs :=
    ⟨(h hs).1.trans (h' (h hs).2).1, (h' (h hs).2).2⟩
  fails := faults
  may := Allowed (scope faults) first

theorem among_suits (faults : Prop) (first : Int → Prop) :
    (among faults first).Suits (scope faults) first :=
  ⟨fun h hs => h hs, id, id⟩

/-- The row of an expression shows that it is under way. -/
def UnderWay (expressionId : Int) (s : Store) : Prop :=
  ∃ r ∈ s.expressions, r.id = expressionId ∧ r.status = ExpressionStatus.inProgress.name ∧
    r.result = none ∧ r.steps = none

/-- The end of a pass: after a first pass over a text with an operation, the expression is
under way, unless a call has failed. -/
def Ended (faults : Prop) (pass : Pass) (_ : Except Error ExpressionStatus) (s : Store) : Prop :=
  ∀ expressionId text t, pass.first? = some (expressionId, text) → Expr.parse text = .ok t →
    t.isLeaf = false → faults ∨ UnderWay expressionId s

/-- The invariant of the system. -/
structure Sound (faults : Prop) (y : System) : Prop where
  store : Piecework.Sound (scope faults) y.store
  listed : ∀ e ∈ y.listed, Listed y.store e
  fits : ∀ pass p, y.running = some (pass, p) → pass.Fits faults y.store
  running : ∀ pass p, y.running = some (pass, p) →
    p.Meets (among faults pass.IsFirst) (Ended faults pass) y.store

variable {faults : Prop} {y y' : System}

theorem sound_start (faults : Prop) : start.Sound faults := by
  refine ⟨⟨Store.wellFormed_empty, fun r hr => ?_⟩, fun e he => ?_, ?_, ?_⟩
  · cases hr
  · cases he
  · intro pass p hp
    cases hp
  · intro pass p hp
    cases hp

theorem Sound.fits_of_ready (h : y.Sound faults) {pass : Pass} (hready : y.Ready faults pass) :
    pass.Fits faults y.store := by
  cases pass with
  | first => exact hready
  | after => trivial
  | resumed e => exact h.listed e hready

/-- A first pass is made over the text of its expression, shortened or not. -/
theorem Sound.text_of_first (hsound : y.Sound faults) {pass : Pass}
    {p : Program Error ExpressionStatus} (hrunning : y.running = some (pass, p))
    {r : ExpressionRow} (hr : r ∈ y.store.expressions) {text : String}
    (hfirst : pass.first? = some (r.id, text)) :
    text = columnText r.source ∨ faults ∧ text = r.source := by
  have hfits := hsound.fits pass p hrunning
  cases pass with
  | first expressionId text' =>
    cases hfirst
    obtain ⟨r0, hr0, hid, htext⟩ := hfits
    cases hsound.store.wellFormed.eq_of_id hr0 hr hid
    exact htext
  | after => cases hfirst
  | resumed e =>
    rw [Pass.first?] at hfirst
    split_ifs at hfirst with hstatus
    rw [Option.some.injEq, Prod.mk.injEq] at hfirst
    obtain ⟨r0, hr0, hid, hsource, -⟩ := hfits
    cases hsound.store.wellFormed.eq_of_id hr0 hr (hid.trans hfirst.1)
    exact .inl (hfirst.2.symm.trans hsource)

/-- A first pass over a text with an operation leaves the expression under way. -/
theorem ended_of_passed {first : Int → Prop} {pass : Pass} {r : ExpressionRow} {text : String}
    {s s' : Store} {result : Except Error ExpressionStatus}
    (hfirst : pass.first? = some (r.id, text))
    (h : ∀ t, Expr.parse text = .ok t →
      Passed (among faults first) (scope faults) r t literalSteps s result s') :
    Ended faults pass result s' := by
  intro expressionId text' t hfirst' ht hnode
  cases hfirst.symm.trans hfirst'
  rcases h t ht with ⟨st, -, hadvanced⟩ | ⟨hfails, -⟩
  · obtain ⟨s1, -, -, hconcluded⟩ := hadvanced.marked
    obtain ⟨stamp, hrow⟩ := hconcluded.row
    obtain ⟨op, a, b, rfl⟩ := Tree.isLeaf_eq_false_iff.1 hnode
    exact .inr ⟨_, hrow, rfl, rfl, rfl, rfl⟩
  · exact .inl hfails

/-- A pass that may begin keeps to the rules. -/
theorem Sound.begin (h : y.Sound faults) {pass : Pass} (hfits : pass.Fits faults y.store) :
    pass.program.Meets (among faults pass.IsFirst) (Ended faults pass) y.store := by
  have hρ := among_suits faults pass.IsFirst
  cases pass with
  | first expressionId text =>
    obtain ⟨r, hr, rfl, htext⟩ := hfits
    have hat : At (scope faults) r y.store := ⟨h.store, hr, trivial⟩
    exact (firstPass_meets hρ ⟨text, rfl⟩ hat htext).mono fun result s' => ended_of_passed rfl
  | after taskId =>
    refine (passAfter_meets hρ h.store taskId fun _ _ _ _ _ _ => trivial).mono ?_
    intro result s' _ expressionId text t hfirst
    cases hfirst
  | resumed e =>
    obtain ⟨r, hr, hid, hsource, hparsed⟩ := hfits
    have hat : At (scope faults) r y.store := ⟨h.store, hr, trivial⟩
    change (resume e).Meets _ _ _
    unfold resume
    split_ifs with hstatus
    · have hfirst : (Pass.resumed e).first? = some (r.id, e.source) := by
        rw [Pass.first?, if_pos hstatus, hid]
      rw [← hid]
      exact (firstPass_meets hρ ⟨_, hfirst⟩ hat (.inl hsource)).mono fun result s' =>
        ended_of_passed hfirst
    · obtain ⟨t, ht, hnode⟩ := hparsed hstatus
      refine (laterPass_meets hρ hat hid.symm hsource ht hnode).mono ?_
      intro result s' _ expressionId text t hfirst
      rw [Pass.first?, if_neg hstatus] at hfirst
      cases hfirst

/-- What somebody else does leaves the pass that has the lock on its way. -/
theorem Sound.elsewhere (h : y.Sound faults) {c : Call} {s : Store}
    (he : Store.Elsewhere c y.store s) : Sound faults { y with store := s } := by
  have hm := he.meanwhile
  have hs := h.store.elsewhere he
  exact ⟨hs, fun e hl => (h.listed e hl).sameTexts hm.sameTexts,
    fun pass p hp => (h.fits pass p hp).sameTexts hm.sameTexts,
    fun pass p hp => (h.running pass p hp).interfere fun _ => ⟨hm, hs⟩⟩

/-- A call of the pass that has the lock is one that it may make. -/
theorem Sound.allowed (h : y.Sound faults) {pass : Pass} {c : Call}
    {next : Except StoreError c.Reply → Program Error ExpressionStatus}
    (hrunning : y.running = some (pass, .ask c next)) :
    Allowed (scope faults) pass.IsFirst y.store c :=
  (h.running pass _ hrunning).ask.1

/-- The call of a pass that has the lock has ended. -/
theorem Sound.proceed (h : y.Sound faults) {pass : Pass} {c : Call}
    {next : Except StoreError c.Reply → Program Error ExpressionStatus}
    {reply : Except StoreError c.Reply} {s : Store}
    (hrunning : y.running = some (pass, .ask c next))
    (hserved : Served faults y.store c reply s) :
    Sound faults { y with store := s, running := some (pass, next reply) } := by
  have hkept : Piecework.Sound (scope faults) s ∧ SameTexts y.store s := by
    cases hserved with
    | answered now heq =>
      have heffect := (h.allowed hrunning).effect h.store.wellFormed heq
      exact ⟨heffect.sound h.store, heffect.sameTexts⟩
    | refused | failed => exact ⟨h.store, .refl _⟩
  refine ⟨hkept.1, fun e he => (h.listed e he).sameTexts hkept.2, ?_, ?_⟩
  · intro pass' p hp
    cases hp
    exact (h.fits pass _ hrunning).sameTexts hkept.2
  · intro pass' p hp
    cases hp
    exact (h.running pass _ hrunning).ask.2 reply s hserved

/-- Whatever happens, the system stays sound. -/
theorem Sound.step {event : Event} (h : y.Sound faults) (hstep : Step faults y event y') :
    y'.Sound faults := by
  cases hstep with
  | serve hc heq => exact h.elsewhere (Store.answer_elsewhere h.store.wellFormed hc heq)
  | list =>
    refine ⟨h.store, fun e he => ?_, h.fits, h.running⟩
    rcases List.mem_append.1 he with he | he
    · exact h.listed e he
    · exact h.store.listed (fun _ => trivial) he
  | begin _ hready =>
    have hfits := h.fits_of_ready hready
    refine ⟨h.store, h.listed, fun pass p hp => ?_, fun pass p hp => ?_⟩
    · cases hp
      exact hfits
    · cases hp
      exact h.begin hfits
  | proceed hrunning hserved => exact h.proceed hrunning hserved
  | release => exact ⟨h.store, h.listed, (fun _ _ hp => nomatch hp), (fun _ _ hp => nomatch hp)⟩
  | restart =>
    exact ⟨h.store, (fun _ he => nomatch he), (fun _ _ hp => nomatch hp),
      (fun _ _ hp => nomatch hp)⟩
  | lose => exact sound_start faults

theorem Sound.run {admits : System → Event → Prop} (h : y.Sound faults)
    (hrun : Run faults admits y y') : y'.Sound faults :=
  hrun.closed h fun h _ hstep => h.step hstep

/-- What every admitted event keeps of a sound system holds at the end of a run. -/
theorem Sound.closed {admits : System → Event → Prop} {P : System → Prop} (h : y.Sound faults)
    (hP : P y) (hrun : Run faults admits y y')
    (hstep : ∀ {y y' event}, y.Sound faults → P y → admits y event → Step faults y event y' →
      P y') : y'.Sound faults ∧ P y' :=
  hrun.closed (P := fun y => y.Sound faults ∧ P y) ⟨h, hP⟩ fun h hadmits hs =>
    ⟨h.1.step hs, hstep h.1 h.2 hadmits hs⟩

/-! ## What an event does to the store -/

/-- An event leaves the store as it is, is a call of somebody else or of the pass that has the
lock, or the store is gone. -/
inductive Changed (faults : Prop) (y : System) : Event → Store → Prop
  | kept {event : Event} : Changed faults y event y.store
  | elsewhere {c : Call} {s : Store} : Store.Elsewhere c y.store s →
      Changed faults y (.serve c) s
  | effect {pass : Pass} {c : Call}
      {next : Except StoreError c.Reply → Program Error ExpressionStatus} {s : Store} :
      y.running = some (pass, .ask c next) →
      Effect (scope faults) pass.IsFirst c y.store s → Changed faults y .proceed s
  | lost : Changed faults y .lose .empty

theorem Sound.changed {event : Event} (h : y.Sound faults) (hstep : Step faults y event y') :
    Changed faults y event y'.store := by
  cases hstep with
  | serve hc heq => exact .elsewhere (Store.answer_elsewhere h.store.wellFormed hc heq)
  | proceed hrunning hserved =>
    cases hserved with
    | answered now heq =>
      exact .effect hrunning ((h.allowed hrunning).effect h.store.wellFormed heq)
    | refused | failed => exact .kept
  | list | begin | release | restart => exact .kept
  | lose => exact .lost

/-- What holds of unfinished tasks, and of tasks that have changed hands, goes on to hold of
every task. -/
theorem allTasks_step {P : Task → Prop} {event : Event} (h : Store.AllTasks P y.store)
    (hsound : y.Sound faults) (hstep : Step faults y event y')
    (hunfinished : ∀ k : Task, k.status ≠ .done → P k)
    (hmoves : ∀ c k k', event = .serve c → k ∈ y.store.tasksOf k.expressionId →
      Store.Moves c k k' → P k') : Store.AllTasks P y'.store := by
  have hchanged := hsound.changed hstep
  generalize y'.store = s at hchanged ⊢
  cases hchanged with
  | kept => exact h
  | @elsewhere c _ he =>
    cases he with
    | kept => exact h
    | @moved _ _ _ k k' hk hmoved => exact h.moved hmoved (hmoves c k k' rfl hmoved.mem hk)
    | submitted _ _ hsubmitted => exact h.congr hsubmitted.tasks
  | effect _ he =>
    cases he with
    | read => exact h
    | issued _ _ _ _ hk _ hissued => exact h.issued hissued (hunfinished _ hk.unfinished)
    | marked _ _ hmarked => exact h.congr hmarked.tasks
  | lost => exact Store.allTasks_empty

/-! ## Passes that are made at once -/

/-- An event of a pass, from its begin to the release of the lock. -/
def OfPass (event : Event) : Prop :=
  (∃ pass, event = .begin pass) ∨ event = .proceed ∨ event = .release

/-- A call of somebody else that a site answers at once is one of the runs. -/
theorem answer_run {admits : System → Event → Prop} {c : Call} (site : Site) {y : System}
    (hstore : site.store = y.store) (hc : Store.schedules c = false)
    (hadmits : admits y (.serve c)) :
    Run faults admits y { y with store := (site.answer c).2.store } := by
  obtain ⟨⟨now, a, -, heq⟩ | ⟨e, -, hkept, -⟩, -⟩ := Site.answer_cases c site
  · rw [hstore] at heq
    exact .one hadmits (.serve hc heq)
  · rw [hkept, hstore]
    exact .refl y

/-- What is left of a pass is carried out by a site in a run. -/
theorem proceed_run {admits : System → Event → Prop}
    (hadmits : ∀ y event, OfPass event → admits y event)
    {pass : Pass} {p : Program Error ExpressionStatus} (site : Site) {y : System}
    (hfails : faults ∨ site.outages.Quiet) (hstore : site.store = y.store)
    (hrunning : y.running = some (pass, p)) :
    Run faults admits y
      { y with
        store := (site.perform p).2.store
        running := some (pass, .done (site.perform p).1) } := by
  induction p generalizing site y with
  | done result =>
    have hsame : { y with store := site.store, running := some (pass, .done result) } = y := by
      rw [hstore, ← hrunning]
    exact hsame ▸ .refl _
  | ask c next ih =>
    have hnext : faults ∨ (site.outages.next c.method).1 = none :=
      hfails.imp_right fun hquiet => (hquiet.next c.method).1
    obtain ⟨hserved, hplans⟩ := Site.answer_served faults hnext
    have hfails' : faults ∨ (site.answer c).2.outages.Quiet := by
      rw [hplans]
      exact hfails.imp_right fun hquiet => (hquiet.next c.method).2
    rw [hstore] at hserved
    have hstep : Step faults y .proceed
        { y with
          store := (site.answer c).2.store
          running := some (pass, next (site.answer c).1) } := .proceed hrunning hserved
    have hadmit := hadmits y .proceed (.inr (.inl rfl))
    exact (Run.one hadmit hstep).trans (ih _ _ hfails' rfl rfl)

/-- A pass that a site makes at once is one of the runs. -/
theorem perform_run {admits : System → Event → Prop}
    (hadmits : ∀ y event, OfPass event → admits y event)
    (pass : Pass) (site : Site) {y : System} (hfails : faults ∨ site.outages.Quiet)
    (hstore : site.store = y.store) (hidle : y.running = none) (hready : y.Ready faults pass) :
    Run faults admits y { y with store := (site.perform pass.program).2.store } := by
  have hbegin : Step faults y (.begin pass) { y with running := some (pass, pass.program) } :=
    .begin hidle hready
  have hproceed := proceed_run (y := { y with running := some (pass, pass.program) }) hadmits site
    hfails hstore rfl
  have hsame : { y with store := (site.perform pass.program).2.store, running := none } =
      { y with store := (site.perform pass.program).2.store } := by
    rw [← hidle]
  have hadmit := hadmits y (.begin pass) (.inl ⟨pass, rfl⟩)
  exact hsame ▸ .step ((Run.one hadmit hbegin).trans hproceed)
    (hadmits _ _ (.inr (.inr rfl))) .release

end System

end Piecework
