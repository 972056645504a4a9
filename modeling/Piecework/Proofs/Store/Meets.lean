import Mathlib.Logic.Relation
import Mathlib.Tactic.Common
import Piecework.Store.Site

/-!
# Programs that keep to rules

A program is a tree of calls.  Between two calls others may change the store, each call
has to be one that the program may make, and when the program is over its result and the
store have to fit together.  `Program.Meets` says all of this about a program that is
about to go on in a given store.

* `Rules` collects what others may do, whether calls may fail, and what may be asked.
* `Meets.interfere` lets others go first, `Meets.andThen` and `Meets.bind` put programs
  together, and `meets_call` is the rule for a call.
* `Meets.perform` runs a program on a site that no failure is planned for, and
  `Meets.perform_failing` on any site.
-/

namespace Piecework

/-- How a call may end: with what the store answers at some moment, or with a failure if
calls may fail.  A call that fails changes nothing. -/
inductive Served (fails : Prop) (s : Store) :
    (c : Call) → Except StoreError c.Reply → Store → Prop
  | answered {c : Call} (now : Time.Instant) {reply : c.Reply} {s' : Store} :
      s.answer now c = .ok (reply, s') → Served fails s c (.ok reply) s'
  | refused {c : Call} (now : Time.Instant) {e : StoreError} :
      s.answer now c = .error e → Served fails s c (.error e) s
  | failed {c : Call} (e : StoreError) : fails → Served fails s c (.error e) s

/-- What others may do between two calls, whether calls may fail, and which calls may be
made. -/
structure Rules where
  others : Store → Store → Prop
  refl : ∀ s, others s s
  trans : ∀ {a b c}, others a b → others b c → others a c
  fails : Prop
  may : Store → Call → Prop

namespace Program

variable {ε ε' α β : Type} {ρ : Rules}

/-- The program keeps to the rules when it goes on in the store, and its result fits the
store in which it ends. -/
def Meets (ρ : Rules) (post : Except ε α → Store → Prop) : Program ε α → Store → Prop
  | done result, s => ∀ s', ρ.others s s' → post result s'
  | ask c next, s => ∀ s', ρ.others s s' →
      ρ.may s' c ∧ ∀ reply s'', Served ρ.fails s' c reply s'' → (next reply).Meets ρ post s''

/-- The next call may be made, and the rest keeps to the rules whatever the answer. -/
theorem Meets.ask {post : Except ε α → Store → Prop} {c : Call}
    {next : Except StoreError c.Reply → Program ε α} {s : Store}
    (h : (ask c next).Meets ρ post s) :
    ρ.may s c ∧ ∀ reply s', Served ρ.fails s c reply s' → (next reply).Meets ρ post s' :=
  h s (ρ.refl s)

/-- Others may go first. -/
theorem Meets.interfere {post : Except ε α → Store → Prop} {p : Program ε α} {s s' : Store}
    (h : p.Meets ρ post s) (ho : ρ.others s s') : p.Meets ρ post s' := by
  cases p with
  | done result => exact fun s'' ho' => h s'' (ρ.trans ho ho')
  | ask c next => exact fun s'' ho' => h s'' (ρ.trans ho ho')

theorem Meets.mono {post post' : Except ε α → Store → Prop} {p : Program ε α} {s : Store}
    (h : p.Meets ρ post s) (himp : ∀ result s', post result s' → post' result s') :
    p.Meets ρ post' s := by
  induction p generalizing s with
  | done result => exact fun s' ho => himp _ _ (h s' ho)
  | ask c next ih =>
    exact fun s' ho => ⟨(h s' ho).1, fun reply s'' hs => ih reply ((h s' ho).2 reply s'' hs)⟩

theorem Meets.andThen {mid : Except ε α → Store → Prop} {post : Except ε' β → Store → Prop}
    {p : Program ε α} {f : Except ε α → Program ε' β} {s : Store} (h : p.Meets ρ mid s)
    (hf : ∀ result s', mid result s' → (f result).Meets ρ post s') :
    (p.andThen f).Meets ρ post s := by
  induction p generalizing s with
  | done result => exact hf _ _ (h s (ρ.refl s))
  | ask c next ih =>
    exact fun s' ho => ⟨(h s' ho).1, fun reply s'' hs => ih reply ((h s' ho).2 reply s'' hs)⟩

theorem Meets.bind {mid : Except ε α → Store → Prop} {post : Except ε β → Store → Prop}
    {p : Program ε α} {f : α → Program ε β} {s : Store} (h : p.Meets ρ mid s)
    (hok : ∀ a s', mid (.ok a) s' → (f a).Meets ρ post s')
    (herror : ∀ e s', mid (.error e) s' → (done (.error e)).Meets ρ post s') :
    (p >>= f).Meets ρ post s := by
  refine Meets.andThen h fun result s' hmid => ?_
  cases result with
  | ok a => exact hok a s' hmid
  | error e => exact herror e s' hmid

/-- An error that was handed on as a value is a result like any other. -/
theorem attempt_bind (p : Program ε α) (f : Except ε α → Program ε' β) :
    p.attempt >>= f = p.andThen f := by
  induction p with
  | done result => rfl
  | ask c next ih => exact congrArg (ask c) (funext ih)

theorem Meets.attempt {mid : Except ε α → Store → Prop} {post : Except ε' β → Store → Prop}
    {p : Program ε α} {f : Except ε α → Program ε' β} {s : Store} (h : p.Meets ρ mid s)
    (hf : ∀ result s', mid result s' → (f result).Meets ρ post s') :
    (p.attempt >>= f).Meets ρ post s := by
  rw [attempt_bind]
  exact h.andThen hf

/-- A part that only the store can make fail. -/
theorem lift_bind (p : Program StoreError α) (f : α → Program Error β) :
    (liftM p : Program Error α) >>= f = p.andThen fun
      | .ok a => f a
      | .error e => done (.error (.store e)) := by
  induction p with
  | done result => cases result <;> rfl
  | ask c next ih => exact congrArg (ask c) (funext ih)

theorem Meets.lift {mid : Except StoreError α → Store → Prop} {post : Except Error β → Store → Prop}
    {p : Program StoreError α} {f : α → Program Error β} {s : Store} (h : p.Meets ρ mid s)
    (hok : ∀ a s', mid (.ok a) s' → (f a).Meets ρ post s')
    (herror : ∀ e s', mid (.error e) s' → (done (.error (.store e))).Meets ρ post s') :
    ((liftM p : Program Error α) >>= f).Meets ρ post s := by
  rw [lift_bind]
  refine h.andThen fun result s' hmid => ?_
  cases result with
  | ok a => exact hok a s' hmid
  | error e => exact herror e s' hmid

/-- Why a call has ended with an error. -/
def Errs (fails : Prop) (s : Store) (c : Call) (e : StoreError) : Prop :=
  fails ∨ ∃ now, s.answer now c = .error e

/-- The rule for a call: it may be made, and the rest keeps to the rules after each of its
answers. -/
theorem meets_call {post : Except StoreError β → Store → Prop} {c : Call}
    {f : c.Reply → Program StoreError β} {s : Store}
    (hmay : ∀ s', ρ.others s s' → ρ.may s' c)
    (hok : ∀ s' now a s'', ρ.others s s' → s'.answer now c = .ok (a, s'') → (f a).Meets ρ post s'')
    (herror : ∀ s' e, ρ.others s s' → Errs ρ.fails s' c e → (done (.error e)).Meets ρ post s') :
    (call c >>= f).Meets ρ post s := by
  refine fun s' ho => ⟨hmay s' ho, fun reply s'' hs => ?_⟩
  cases hs with
  | answered now heq => exact hok s' now _ s'' ho heq
  | refused now heq => exact herror s' _ ho (.inr ⟨now, heq⟩)
  | failed _ hfails => exact herror s' _ ho (.inl hfails)

/-- The rule for a call in a program that can fail in other ways, too. -/
theorem meets_lift {post : Except Error β → Store → Prop} {c : Call}
    {f : c.Reply → Program Error β} {s : Store}
    (hmay : ∀ s', ρ.others s s' → ρ.may s' c)
    (hok : ∀ s' now a s'', ρ.others s s' → s'.answer now c = .ok (a, s'') → (f a).Meets ρ post s'')
    (herror : ∀ s' e, ρ.others s s' → Errs ρ.fails s' c e →
      (done (.error (.store e))).Meets ρ post s') :
    ((liftM (call c) : Program Error c.Reply) >>= f).Meets ρ post s := by
  refine fun s' ho => ⟨hmay s' ho, fun reply s'' hs => ?_⟩
  cases hs with
  | answered now heq => exact hok s' now _ s'' ho heq
  | refused now heq => exact herror s' _ ho (.inr ⟨now, heq⟩)
  | failed _ hfails => exact herror s' _ ho (.inl hfails)

end Program

/-! ## Running a program at once -/

/-- Whatever answers the calls, one part is carried out after the other. -/
theorem Program.run_andThen {ε ε' α β σ : Type}
    (answer : (c : Call) → σ → Except StoreError c.Reply × σ) (p : Program ε α)
    (f : Except ε α → Program ε' β) (s : σ) :
    (p.andThen f).run answer s = (f (p.run answer s).1).run answer (p.run answer s).2 := by
  induction p generalizing s with
  | done result => rfl
  | ask c next ih => exact ih _ _

/-- A site carries out one part after the other. -/
theorem Site.perform_andThen {ε ε' α β : Type} (p : Program ε α) (f : Except ε α → Program ε' β)
    (site : Site) :
    site.perform (p.andThen f) = (site.perform p).2.perform (f (site.perform p).1) :=
  p.run_andThen answer f site

/-- No failure is planned. -/
def Outages.Quiet (plans : Outages) : Prop := ∀ plan ∈ plans, plan.2.times = 0

theorem Outages.quiet_nil : Outages.Quiet [] := List.forall_mem_nil _

theorem Outages.Quiet.next {plans : Outages} (h : plans.Quiet) (m : Method) :
    (plans.next m).1 = none ∧ (plans.next m).2.Quiet := by
  induction plans with
  | nil => exact ⟨rfl, h⟩
  | cons plan rest ih =>
    obtain ⟨m', o⟩ := plan
    have htimes : o.times = 0 := h (m', o) List.mem_cons_self
    have hrest : Outages.Quiet rest := fun plan hp => h plan (List.mem_cons_of_mem _ hp)
    unfold Outages.next
    split_ifs with hm
    · have hnext : o.next.1 = none ∧ o.next.2.times = 0 := by
        unfold Outage.next
        split_ifs with hskip hpositive
        · exact ⟨rfl, htimes⟩
        · omega
        · exact ⟨rfl, htimes⟩
      refine ⟨hnext.1, fun plan hp => ?_⟩
      rcases List.mem_cons.1 hp with rfl | hp
      · exact hnext.2
      · exact hrest plan hp
    · refine ⟨(ih hrest).1, fun plan hp => ?_⟩
      rcases List.mem_cons.1 hp with rfl | hp
      · exact htimes
      · exact (ih hrest).2 plan hp

/-- A site answers as its store does, unless a failure is planned for the call. -/
theorem Site.answer_cases (c : Call) (site : Site) :
    ((∃ now a, (site.answer c).1 = .ok a ∧
          site.store.answer now c = .ok (a, (site.answer c).2.store)) ∨
        ∃ e, (site.answer c).1 = .error e ∧ (site.answer c).2.store = site.store ∧
          ((site.outages.next c.method).1 = some e ∨ ∃ now, site.store.answer now c = .error e)) ∧
      (site.answer c).2.outages = (site.outages.next c.method).2 := by
  unfold Site.answer
  rcases site.outages.next c.method with ⟨failure, plans⟩
  cases failure with
  | some e => exact ⟨.inr ⟨e, rfl, rfl, .inl rfl⟩, rfl⟩
  | none =>
    dsimp only
    cases heq : site.store.answer site.clock.tick c with
    | error e => exact ⟨.inr ⟨e, rfl, rfl, .inr ⟨_, heq⟩⟩, rfl⟩
    | ok pair => exact ⟨.inl ⟨_, _, rfl, heq⟩, rfl⟩

theorem Site.answer_served (fails : Prop) {site : Site} {c : Call}
    (h : fails ∨ (site.outages.next c.method).1 = none) :
    Served fails site.store c (site.answer c).1 (site.answer c).2.store ∧
      (site.answer c).2.outages = (site.outages.next c.method).2 := by
  obtain ⟨⟨now, a, hreply, heq⟩ | ⟨e, hreply, hstore, hcause⟩, hplans⟩ := Site.answer_cases c site
  · exact ⟨hreply ▸ .answered now heq, hplans⟩
  · refine ⟨?_, hplans⟩
    rw [hreply, hstore]
    rcases hcause with hplanned | ⟨now, hrefused⟩
    · exact .failed e (h.resolve_right (by rw [hplanned]; simp))
    · exact .refused now hrefused

theorem Site.answer_quiet {site : Site} (h : site.outages.Quiet) (c : Call) (fails : Prop) :
    Served fails site.store c (site.answer c).1 (site.answer c).2.store ∧
      (site.answer c).2.outages.Quiet := by
  obtain ⟨hnone, hquiet⟩ := h.next c.method
  obtain ⟨hserved, hplans⟩ := Site.answer_served fails (.inr hnone)
  exact ⟨hserved, hplans ▸ hquiet⟩

/-- No failure is planned after a program, either. -/
theorem Site.perform_quiet {ε α : Type} (p : Program ε α) {site : Site}
    (h : site.outages.Quiet) : (site.perform p).2.outages.Quiet := by
  induction p generalizing site with
  | done result => exact h
  | ask c next ih => exact ih _ (Site.answer_quiet h c False).2

/-- A site carries out a call, and what follows it. -/
theorem Site.perform_call {β : Type} (c : Call) (f : c.Reply → Program Error β) (site : Site) :
    site.perform ((liftM (Program.call c) : Program Error c.Reply) >>= f) =
      match (site.answer c).1 with
      | .ok a => (site.answer c).2.perform (f a)
      | .error e => (.error (.store e), (site.answer c).2) := by
  have hcall : site.perform (Program.call c) = site.answer c := rfl
  rw [Program.lift_bind, Site.perform_andThen, hcall]
  cases (site.answer c).1 <;> rfl

/-- A call that the store has an answer to, and what follows it. -/
theorem Site.perform_answered {β : Type} {c : Call} (f : c.Reply → Program Error β) {site : Site}
    (hquiet : site.outages.Quiet)
    (hanswers : ∀ now, ∃ a s', site.store.answer now c = .ok (a, s')) :
    ∃ now a, ∃ site' : Site, site'.outages.Quiet ∧
      site.store.answer now c = .ok (a, site'.store) ∧
      site.perform ((liftM (Program.call c) : Program Error c.Reply) >>= f) =
        site'.perform (f a) := by
  obtain ⟨hserved, hquiet'⟩ := Site.answer_quiet hquiet c False
  have hanswered : ∀ {reply : Except StoreError c.Reply} {s' : Store},
      Served False site.store c reply s' →
        ∃ now a, reply = .ok a ∧ site.store.answer now c = .ok (a, s') := by
    intro reply s' hserved
    cases hserved with
    | answered now heq => exact ⟨now, _, rfl, heq⟩
    | refused now heq =>
      obtain ⟨a, s', hok⟩ := hanswers now
      cases heq.symm.trans hok
    | failed _ hfails => exact hfails.elim
  obtain ⟨now, a, hreply, heq⟩ := hanswered hserved
  refine ⟨now, a, (site.answer c).2, hquiet', heq, ?_⟩
  rw [Site.perform_call, hreply]

namespace Program

variable {ε α : Type} {ρ : Rules}

/-- Nobody interferes with a program that is run at once, so its result fits the store. -/
theorem Meets.perform {post : Except ε α → Store → Prop} {p : Program ε α} (site : Site)
    (h : p.Meets ρ post site.store) (hquiet : site.outages.Quiet) :
    post (site.perform p).1 (site.perform p).2.store ∧ (site.perform p).2.outages.Quiet := by
  refine ⟨?_, Site.perform_quiet p hquiet⟩
  induction p generalizing site with
  | done result => exact h _ (ρ.refl _)
  | ask c next ih =>
    obtain ⟨hserved, hquiet'⟩ := Site.answer_quiet hquiet c ρ.fails
    exact ih _ _ (h.ask.2 _ _ hserved) hquiet'

/-- Where calls may fail, the result fits the store whatever failures are planned. -/
theorem Meets.perform_failing {post : Except ε α → Store → Prop} {p : Program ε α} (site : Site)
    (h : p.Meets ρ post site.store) (hfails : ρ.fails) :
    post (site.perform p).1 (site.perform p).2.store := by
  induction p generalizing site with
  | done result => exact h _ (ρ.refl _)
  | ask c next ih => exact ih _ _ (h.ask.2 _ _ (Site.answer_served ρ.fails (.inl hfails)).1)

/-- Every change that is made on the way comes from a call that may be made. -/
theorem Meets.perform_closed {post : Except ε α → Store → Prop} {p : Program ε α} {site : Site}
    (h : p.Meets ρ post site.store) (hquiet : site.outages.Quiet) {P : Store → Prop}
    (hP : P site.store)
    (hstep : ∀ {s s' : Store} {c : Call} {now : Time.Instant} {reply : c.Reply}, P s → ρ.may s c →
      s.answer now c = .ok (reply, s') → P s') :
    P (site.perform p).2.store := by
  induction p generalizing site with
  | done result => exact hP
  | ask c next ih =>
    obtain ⟨hserved, hquiet'⟩ := Site.answer_quiet hquiet c ρ.fails
    have hserve : ∀ reply s', Served ρ.fails site.store c reply s' → P s' := by
      intro reply s' hs
      cases hs with
      | answered now heq => exact hstep hP h.ask.1 heq
      | refused | failed => exact hP
    exact ih _ (h.ask.2 _ _ hserved) hquiet' (hserve _ _ hserved)

end Program

end Piecework
