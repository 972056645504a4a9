import Piecework.Proofs.Schedule.Calls
import Piecework.Server.Basic

/-!
# Clients do not see or disturb each other

An owner sees the expressions that belong to it, and what others do never touches the rows of
these.

* `Store.owned` are the rows of an owner.  A request for expressions comes to calls of one kind,
  `Call.LooksUp`, and what those answer depends on the rows of the owner alone
  (`Server.http_congr`).
* A request of somebody else leaves the store as it is or adds an expression of theirs, with a
  new identifier (`Server.http_received`).
* `Visitors.Step` is what others may do, one step at a time: requests, and the passes that these
  start, interleaved in any way.  `Apart` is kept by each step: the owner's rows are the same, and
  everything under way is about expressions that are newer than them.
* `Visitors.owners_apart` reads off what the owner is answered afterwards, and that an expression
  of somebody else is answered like one that does not exist (`Server.http_hidden`).

`settle_run` shows that the passes a server makes at once are such steps.
-/

open Relation (ReflTransGen)

namespace Piecework

open Http

/-! ## The rows of an owner -/

/-- The rows that belong to an owner. -/
def Store.owned (a : String) (s : Store) : List ExpressionRow :=
  s.expressions.filter (·.owner == a)

/-- The calls that look up expressions of an owner. -/
inductive Call.LooksUp (a : String) : Call → Prop
  | list : LooksUp a (.listOwned a)
  | get (id : Int) : LooksUp a (.getOwnedExpression id a)

section Owned

variable {a b : String} {c : Call} {s s' : Store}

theorem Store.ownedBy_congr (h : s'.owned a = s.owned a) : s'.ownedBy a = s.ownedBy a := by
  rw [owned, owned] at h
  rw [ownedBy, ownedBy, h]

/-- An expression of an owner is looked for among the owner's rows. -/
theorem Store.ownedExpression?_eq (id : Int) (a : String) (s : Store) :
    s.ownedExpression? id a = readFound ExpressionRow.read ((s.owned a).find? (·.id == id)) := by
  rw [ownedExpression?, owned, List.find?_filter]
  refine congrArg (fun p => readFound _ (s.expressions.find? p)) (funext fun r => ?_)
  cases r.owner == a <;> cases r.id == id <;> rfl

/-- Marking an expression that is not the owner's leaves the rows of the owner alone. -/
theorem Store.owned_setStatus {id : Int} (h : ∀ r ∈ s.owned a, r.id ≠ id) (now : Time.Instant)
    (status : ExpressionStatus) (result : Option Float) (steps : Option (List String)) :
    (s.setStatus now id status result steps).owned a = s.owned a :=
  filter_setStatus_of_ne (fun _ _ _ _ _ => rfl) _ _ _ _ _ _ h

theorem Store.owned_createExpression (hne : b ≠ a) (now : Time.Instant) (text : String) :
    (s.createExpression now b text).2.owned a = s.owned a := by
  have hnone : (b == a) = false := beq_eq_false_iff_ne.2 hne
  rw [owned, createExpression, List.filter_append, List.filter_cons_of_neg (by rw [hnone]; decide),
    List.filter_nil, List.append_nil, owned]

/-- Looking something up leaves the store as it is. -/
theorem Call.LooksUp.same (h : c.LooksUp a) {now : Time.Instant} {reply : c.Reply}
    (heq : s.answer now c = .ok (reply, s')) : s' = s := by
  cases h with
  | list =>
    cases heq
    rfl
  | get id => exact (Store.map_pair_ok heq).2

/-- What an owner is shown depends on the owner's rows. -/
theorem Call.LooksUp.congr (h : c.LooksUp a) (hrows : s'.owned a = s.owned a)
    (now now' : Time.Instant) :
    (s'.answer now' c).map Prod.fst = (s.answer now c).map Prod.fst := by
  cases h with
  | list => exact congrArg Except.ok (Store.ownedBy_congr hrows)
  | get id =>
    show ((s'.ownedExpression? id a).map (·, s')).map Prod.fst =
      ((s.ownedExpression? id a).map (·, s)).map Prod.fst
    rw [Store.ownedExpression?_eq, Store.ownedExpression?_eq, hrows]
    cases Store.readFound ExpressionRow.read ((s.owned a).find? (·.id == id)) <;> rfl

end Owned

/-- A site that no failure is planned for answers as its store does. -/
theorem Site.answer_fst {site : Site} (hquiet : site.outages.Quiet) (c : Call) :
    (site.answer c).1 = (site.store.answer site.clock.tick c).map Prod.fst := by
  have hnone := (hquiet.next c.method).1
  unfold Site.answer
  generalize site.outages.next c.method = failure at hnone
  obtain ⟨failure, plans⟩ := failure
  cases hnone
  dsimp only
  cases site.store.answer site.clock.tick c <;> rfl

/-- Looking something up leaves the store as it is, whether or not it fails. -/
theorem Call.LooksUp.store_answer {a : String} {c : Call} (h : c.LooksUp a) (site : Site) :
    (site.answer c).2.store = site.store := by
  obtain ⟨⟨now, reply, -, heq⟩ | ⟨-, -, hstore, -⟩, -⟩ := Site.answer_cases c site
  · exact h.same heq
  · exact hstore

/-- A program that looks up expressions of an owner sees the owner's rows and nothing else. -/
theorem Program.Asks.perform_congr {ε α : Type} {a : String} {p : Program ε α}
    (h : p.Asks (Call.LooksUp a)) {site site' : Site} (hquiet : site.outages.Quiet)
    (hquiet' : site'.outages.Quiet) (hrows : site'.store.owned a = site.store.owned a) :
    (site'.perform p).1 = (site.perform p).1 := by
  induction p generalizing site site' with
  | done result => rfl
  | ask c next ih =>
    have hreply : (site'.answer c).1 = (site.answer c).1 := by
      rw [Site.answer_fst hquiet, Site.answer_fst hquiet']
      exact h.1.congr hrows _ _
    have hrows' : (site'.answer c).2.store.owned a = (site.answer c).2.store.owned a := by
      rw [h.1.store_answer, h.1.store_answer, hrows]
    show ((site'.answer c).2.perform (next (site'.answer c).1)).1 =
      ((site.answer c).2.perform (next (site.answer c).1)).1
    rw [hreply]
    exact ih _ (h.2 _) (Site.answer_quiet hquiet c False).2 (Site.answer_quiet hquiet' c False).2
      hrows'

/-! ## What an owner asks for -/

namespace Server

/-- The request is for the list of expressions or for one of them. -/
def IsLookup (r : Request) : Prop :=
  Endpoint.ofPath? r.path = some .expressions ∨
    ∃ part, Endpoint.ofPath? r.path = some (.expression part)

section Lookups

variable {a : String} {r : Request}

theorem respond_asks {α : Type} {P : Call → Prop} {p : Program Error α} (h : p.Asks P)
    (f : α → Answer) : (respond p f).Asks P := by
  refine Program.Asks.andThen h fun result => ?_
  cases result <;> trivial

theorem listExpressions_asks (howner : owner? r = some a) :
    (listExpressions r).Asks (Call.LooksUp a) := by
  have hlist : (Clients.list a).Asks (Call.LooksUp a) := (Program.asks_call .list).lift
  rw [listExpressions, withOwner, howner]
  exact respond_asks hlist _

theorem getExpression_asks (howner : owner? r = some a) (part : String) :
    (getExpression part r).Asks (Call.LooksUp a) := by
  unfold getExpression
  cases identifier? part with
  | none => trivial
  | some id =>
    have hget : (Clients.get id a).Asks (Call.LooksUp a) := (Program.asks_call (.get id)).lift
    dsimp only
    rw [withOwner, howner]
    exact respond_asks hget _

theorem dispatch_asks {e : Endpoint} {P : Call → Prop} (hread : e.isRead = true)
    {terms : WorkerTerms} (h : (serve terms r e).Asks P) : (dispatch terms r e).Asks P := by
  unfold dispatch
  rw [if_pos hread]
  split_ifs
  · exact h
  · exact h.andThen fun result => by cases result <;> trivial
  · trivial

/-- A request of an owner for expressions comes to calls about the owner's expressions only. -/
theorem handle_asks (terms : WorkerTerms) (hlookup : IsLookup r) (howner : owner? r = some a) :
    (handle terms r).Asks (Call.LooksUp a) := by
  unfold handle
  split_ifs
  · trivial
  · rcases hlookup with hpath | ⟨part, hpath⟩
    · rw [hpath]
      exact dispatch_asks rfl (listExpressions_asks howner)
    · rw [hpath]
      exact dispatch_asks rfl (getExpression_asks howner part)

/-- The terms for workers make no difference to it. -/
theorem handle_congr (terms terms' : WorkerTerms) (hlookup : IsLookup r) :
    handle terms' r = handle terms r := by
  unfold handle
  rcases hlookup with hpath | ⟨part, hpath⟩ <;> rw [hpath] <;> rfl

/-- What an owner is answered depends on the rows of the owner. -/
theorem http_congr {s s' : Server} (hlookup : IsLookup r) (howner : owner? r = some a)
    (hquiet : s.site.outages.Quiet) (hquiet' : s'.site.outages.Quiet)
    (hrows : s'.site.store.owned a = s.site.store.owned a) : (s'.http r).1 = (s.http r).1 := by
  show (valueOf (s'.site.perform (handle s'.terms r)).1).1 =
    (valueOf (s.site.perform (handle s.terms r)).1).1
  rw [handle_congr s.terms s'.terms hlookup]
  rw [(handle_asks s.terms hlookup howner).perform_congr hquiet hquiet' hrows]

/-- The request is for an expression under an identifier that no expression of the owner has:
there is none, or it belongs to somebody else. -/
def Hidden (a : String) (s : Store) (r : Request) : Prop :=
  ∃ part id, Endpoint.ofPath? r.path = some (.expression part) ∧ identifier? part = some id ∧
    ∀ row ∈ s.expressions, row.id = id → row.owner ≠ a

theorem perform_getExpression {site : Site} (hquiet : site.outages.Quiet) {part : String}
    {id : Int} (hid : identifier? part = some id) (howner : owner? r = some a)
    (hnone : ∀ row ∈ site.store.expressions, row.id = id → row.owner ≠ a) :
    (site.perform (getExpression part r)).1 =
      .ok (refusal 404 "expression not found", none) := by
  have hfind : (site.store.owned a).find? (·.id == id) = none := by
    refine List.find?_eq_none.2 fun row hrow heq => ?_
    obtain ⟨hmem, hown⟩ := List.mem_filter.1 hrow
    exact hnone row hmem (beq_iff_eq.1 heq) (beq_iff_eq.1 hown)
  have hanswer : (site.answer (.getOwnedExpression id a)).1 = .ok none := by
    rw [Site.answer_fst hquiet]
    show ((site.store.ownedExpression? id a).map (·, site.store)).map Prod.fst = _
    rw [Store.ownedExpression?_eq, hfind]
    rfl
  unfold getExpression
  rw [hid]
  dsimp only
  have hget : (site.perform (Clients.get id a)).1 = .ok none := by
    show Except.mapError _ (site.answer (.getOwnedExpression id a)).1 = _
    rw [hanswer]
    rfl
  rw [withOwner, howner]
  unfold respond
  rw [Site.perform_andThen, hget]
  rfl

/-- All such requests with one method are answered alike. -/
theorem http_hidden {s : Server} {r' : Request} (hquiet : s.site.outages.Quiet)
    (howner : owner? r = some a) (howner' : owner? r' = some a) (hr : Hidden a s.site.store r)
    (hr' : Hidden a s.site.store r') (hmethod : r'.method = r.method) :
    (s.http r').1 = (s.http r).1 := by
  obtain ⟨part, id, hpath, hid, hnone⟩ := hr
  obtain ⟨part', id', hpath', hid', hnone'⟩ := hr'
  have hserve : (s.site.perform (serve s.terms r (.expression part))).1 = _ :=
    perform_getExpression hquiet hid howner hnone
  have hserve' : (s.site.perform (serve s.terms r' (.expression part'))).1 = _ :=
    perform_getExpression hquiet hid' howner' hnone'
  have hread : ∀ part, (Endpoint.expression part).isRead = true := fun _ => rfl
  have hhandle : (s.site.perform (handle s.terms r')).1 =
      (s.site.perform (handle s.terms r)).1 := by
    unfold handle
    rw [hpath, hpath', hmethod]
    split_ifs
    · rfl
    · dsimp only
      unfold dispatch
      rw [hmethod, if_pos (hread _), if_pos (hread _)]
      split_ifs
      · rw [hserve, hserve']
      · unfold Program.bind
        rw [Site.perform_andThen, Site.perform_andThen, hserve, hserve']
        rfl
      · rfl
  exact congrArg (fun result => (valueOf result).1) hhandle

end Lookups

/-! ## What others ask for -/

/-- What comes of a request that an owner has not sent: it is answered at once or after looking
something up, or it submits an expression of somebody else. -/
inductive FromOthers (a : String) : Handler → Prop
  | answered (response : Response) : FromOthers a (.done (.ok (response, none)))
  | looked {b : String} {c : Call} {next : Except StoreError c.Reply → Handler} :
      c.LooksUp b → (∀ reply, FromOthers a (next reply)) → FromOthers a (.ask c next)
  | submitted {b text : String} {next : Except StoreError Int → Handler} : b ≠ a →
      (∀ id, ∃ response, next (.ok id) = .done (.ok (response, some (.schedule id text)))) →
      (∀ e, ∃ response, next (.error e) = .done (.ok (response, none))) →
      FromOthers a (.ask (.createExpression b text) next)

/-- The request is not one of the workers'. -/
def IsPublic (r : Request) : Prop :=
  Endpoint.ofPath? r.path ≠ some .task ∧ Endpoint.ofPath? r.path ≠ some .taskResult

section Others

variable {a : String} {r : Request}

theorem calculate_fromOthers (howner : owner? r ≠ some a) : FromOthers a (calculate r) := by
  unfold calculate withContent
  cases content CalculationRequest.format r with
  | error response => exact .answered response
  | ok request =>
    dsimp only
    unfold withOwner
    cases hb : owner? r with
    | none => exact .answered _
    | some b =>
      dsimp only
      split_ifs
      · exact .answered _
      · have hne : b ≠ a := by
          rintro rfl
          exact howner hb
        exact @FromOthers.submitted a b request.expression _ hne (fun id => ⟨_, rfl⟩)
          fun e => ⟨_, rfl⟩

theorem listExpressions_fromOthers : FromOthers a (listExpressions r) := by
  unfold listExpressions withOwner
  cases owner? r with
  | none => exact .answered _
  | some b =>
    refine .looked (.list (a := b)) fun reply => ?_
    cases reply <;> exact .answered _

theorem getExpression_fromOthers (part : String) : FromOthers a (getExpression part r) := by
  unfold getExpression withOwner
  cases identifier? part with
  | none => exact .answered _
  | some id =>
    cases owner? r with
    | none => exact .answered _
    | some b =>
      refine .looked (.get (a := b) id) fun reply => ?_
      rcases reply with e | ⟨⟩ | e <;> exact .answered _

theorem FromOthers.head {p : Handler} (h : FromOthers a p) :
    FromOthers a (p.bind fun (response, job) => pure (response.head, job)) := by
  induction h with
  | answered response => exact .answered _
  | looked hlook _ ih => exact .looked hlook ih
  | submitted hne hok herror =>
    refine .submitted hne (fun id => ?_) fun e => ?_
    · obtain ⟨response, hnext⟩ := hok id
      exact ⟨response.head, by rw [hnext]; rfl⟩
    · obtain ⟨response, hnext⟩ := herror e
      exact ⟨response.head, by rw [hnext]; rfl⟩

theorem handle_fromOthers (terms : WorkerTerms) (hpublic : IsPublic r)
    (howner : owner? r ≠ some a) : FromOthers a (handle terms r) := by
  have hserve : ∀ e, Endpoint.ofPath? r.path = some e → FromOthers a (serve terms r e) := by
    intro e he
    cases e with
    | health => exact .answered _
    | task => exact absurd he hpublic.1
    | taskResult => exact absurd he hpublic.2
    | calculate => exact calculate_fromOthers howner
    | expressions => exact listExpressions_fromOthers
    | expression part => exact getExpression_fromOthers part
  unfold handle
  split_ifs
  · exact .answered _
  · cases he : Endpoint.ofPath? r.path with
    | none => exact .answered _
    | some e =>
      dsimp only
      unfold dispatch
      split_ifs
      · exact hserve e he
      · exact (hserve e he).head
      · exact .answered _
      · exact hserve e he
      · exact .answered _

/-- What a request of somebody else does to a server: nothing but to submit an expression. -/
inductive Received (a : String) (s s' : Server) : Prop
  | kept : s'.site.store = s.site.store → s'.arrivals = s.arrivals → Received a s s'
  | submitted {b text : String} (now : Time.Instant) : b ≠ a →
      s'.site.store = (s.site.store.createExpression now b text).2 →
      s'.arrivals = s.arrivals ++ [(s.site.store.lastExpression + 1, text)] → Received a s s'

/-- Answers a request with a handler. -/
def answerWith (p : Handler) (s : Server) : Response × Server :=
  let (result, s) := s.perform p
  let (response, job) := valueOf result
  (response, s.leave job)

theorem FromOthers.received {p : Handler} (h : FromOthers a p) (s : Server) :
    Received a s (answerWith p s).2 := by
  induction h generalizing s with
  | answered response => exact .kept rfl rfl
  | @looked b c next hlook _ ih =>
    have hrest := ih (s.site.answer c).1 { s with site := (s.site.answer c).2 }
    cases hrest with
    | kept hstore harrivals => exact .kept (hstore.trans (hlook.store_answer _)) harrivals
    | submitted now hne hstore harrivals =>
      have hsame : (s.site.answer c).2.store = s.site.store := hlook.store_answer _
      dsimp only at hstore harrivals
      rw [hsame] at hstore harrivals
      exact .submitted now hne hstore harrivals
  | @submitted b text next hne hok herror =>
    show Received a s (answerWith (next (s.site.answer (.createExpression b text)).1)
      { s with site := (s.site.answer (.createExpression b text)).2 }).2
    obtain ⟨⟨now, id, hreply, heq⟩ | ⟨e, hreply, hstore, -⟩, -⟩ :=
      Site.answer_cases (.createExpression b text) s.site
    · obtain ⟨response, hnext⟩ := hok id
      have hcreated : s.site.store.createExpression now b text = (id, _) := Except.ok.inj heq
      have hid : s.site.store.lastExpression + 1 = id := congrArg Prod.fst hcreated
      rw [hreply, hnext]
      refine .submitted now hne (congrArg Prod.snd hcreated).symm ?_
      rw [hid]
      rfl
    · obtain ⟨response, hnext⟩ := herror e
      rw [hreply, hnext]
      exact .kept hstore rfl

theorem http_received (hpublic : IsPublic r) (howner : owner? r ≠ some a) (s : Server) :
    Received a s (s.http r).2 :=
  (handle_fromOthers s.terms hpublic howner).received s

end Others

end Server

/-! ## Others at work -/

/-- A server that clients are at work on, with the first passes that are under way. -/
structure Visitors where
  server : Server
  passes : List (Program Error ExpressionStatus)

namespace Visitors

/-- The tables. -/
abbrev store (v : Visitors) : Store := v.server.site.store

/-- What others than an owner may do, one step at a time: requests to the server, the passes that
these start, and calls of such passes, in any order and with any failures. -/
inductive Step (a : String) : Visitors → Visitors → Prop
  /-- Time goes by, and failures are planned. -/
  | elapse {v : Visitors} (clock : Time.Instant) (outages : Outages) :
      Step a v { v with server := { v.server with site := ⟨v.store, clock, outages⟩ } }
  | request {v : Visitors} (r : Request) : Server.IsPublic r → Server.owner? r ≠ some a →
      Step a v { v with server := (v.server.http r).2 }
  /-- The first pass over a new expression begins. -/
  | begin {v : Visitors} {front back : List (Int × String)} {id : Int} {text : String} :
      v.server.arrivals = front ++ (id, text) :: back →
      Step a v { v with
        server := { v.server with arrivals := front ++ back }
        passes := v.passes ++ [Schedule.firstPass id text] }
  /-- One of the passes makes a call. -/
  | proceed {v : Visitors} {front back : List (Program Error ExpressionStatus)} {c : Call}
      {next : Except StoreError c.Reply → Program Error ExpressionStatus} :
      v.passes = front ++ .ask c next :: back →
      Step a v { v with
        server := { v.server with site := (v.server.site.answer c).2 }
        passes := front ++ next (v.server.site.answer c).1 :: back }

/-- The rows of the owner are as they were, and whatever is under way concerns expressions that
are newer than all of them. -/
structure Apart (a : String) (rows : List ExpressionRow) (bound : Int) (v : Visitors) : Prop where
  owned : v.store.owned a = rows
  older : ∀ r ∈ rows, r.id ≤ bound
  last : bound ≤ v.store.lastExpression
  arrivals : ∀ arrival ∈ v.server.arrivals, bound < arrival.1
  passes : ∀ p ∈ v.passes, ∃ id text, bound < id ∧ p.Asks (FirstPassCall id text)

section Apart

variable {a : String} {rows : List ExpressionRow} {bound : Int} {v v' : Visitors}

/-- A call of a first pass leaves the rows of an owner alone who has no row under its
identifier. -/
theorem owned_firstPassCall {s s' : Store} {now : Time.Instant} {id : Int} {text : String}
    {c : Call} {reply : c.Reply} (hc : FirstPassCall id text c)
    (hnone : ∀ r ∈ s.owned a, r.id ≠ id) (heq : s.answer now c = .ok (reply, s')) :
    s'.owned a = s.owned a ∧ s'.lastExpression = s.lastExpression := by
  cases hc with
  | list =>
    cases heq
    exact ⟨rfl, rfl⟩
  | create op lhs rhs path =>
    obtain ⟨k, hissued, -⟩ := Store.createTask_ok heq
    exact ⟨by rw [Store.owned, hissued.expressions, Store.owned], hissued.lastExpression⟩
  | done | inProgress | gaveUp =>
    cases heq
    exact ⟨Store.owned_setStatus hnone _ _ _ _, rfl⟩

theorem Apart.step (h : Apart a rows bound v) (hstep : Step a v v') : Apart a rows bound v' := by
  obtain ⟨howned, holder, hlast, harrivals, hpasses⟩ := h
  cases hstep with
  | elapse => exact ⟨howned, holder, hlast, harrivals, hpasses⟩
  | request r hpublic howner =>
    cases Server.http_received hpublic howner v.server with
    | kept hstore hsame =>
      refine ⟨?_, holder, ?_, ?_, hpasses⟩
      · rw [store, hstore, howned]
      · rw [store, hstore]
        exact hlast
      · rw [hsame]
        exact harrivals
    | submitted now hne hstore hadded =>
      refine ⟨?_, holder, ?_, ?_, hpasses⟩
      · rw [store, hstore, Store.owned_createExpression hne, howned]
      · rw [store, hstore]
        show bound ≤ v.store.lastExpression + 1
        omega
      · rw [hadded]
        intro arrival harrival
        rcases List.mem_append.1 harrival with hold | hnew
        · exact harrivals arrival hold
        · rw [List.mem_singleton.1 hnew]
          show bound < v.store.lastExpression + 1
          omega
  | @begin front back id text hsplit =>
    rw [hsplit] at harrivals
    have hid : bound < id := harrivals (id, text) (by simp)
    refine ⟨howned, holder, hlast, fun arrival harrival => harrivals arrival ?_, fun p hp => ?_⟩
    · rcases List.mem_append.1 harrival with hfront | hback
      · exact List.mem_append_left _ hfront
      · exact List.mem_append_right _ (List.mem_cons_of_mem _ hback)
    · rcases List.mem_append.1 hp with hold | hnew
      · exact hpasses p hold
      · rw [List.mem_singleton.1 hnew]
        exact ⟨id, text, hid, firstPass_asks id text⟩
  | @proceed front back c next hsplit =>
    rw [hsplit] at hpasses
    obtain ⟨id, text, hid, hcall, hnext⟩ := hpasses (.ask c next) (by simp)
    have hstore : (v.server.site.answer c).2.store.owned a = v.store.owned a ∧
        (v.server.site.answer c).2.store.lastExpression = v.store.lastExpression := by
      obtain ⟨⟨now, reply, -, heq⟩ | ⟨-, -, hsame, -⟩, -⟩ := Site.answer_cases c v.server.site
      · refine owned_firstPassCall hcall (fun r hr => ?_) heq
        rw [howned] at hr
        have := holder r hr
        omega
      · rw [hsame]
        exact ⟨rfl, rfl⟩
    refine ⟨hstore.1.trans howned, holder, ?_, harrivals, fun p hp => ?_⟩
    · show bound ≤ (v.server.site.answer c).2.store.lastExpression
      rw [hstore.2]
      exact hlast
    · rcases List.mem_append.1 hp with hfront | hback
      · exact hpasses p (List.mem_append_left _ hfront)
      · rcases List.mem_cons.1 hback with rfl | hback
        · exact ⟨id, text, hid, hnext _⟩
        · exact hpasses p (List.mem_append_right _ (List.mem_cons_of_mem _ hback))

theorem Apart.run (h : Apart a rows bound v) (hrun : ReflTransGen (Step a) v v') :
    Apart a rows bound v' := by
  induction hrun with
  | refl => exact h
  | tail _ hstep ih => exact ih.step hstep

/-! ## What is done at once -/

/-- What is left of a pass is carried out by the site. -/
theorem pass_run {front back : List (Program Error ExpressionStatus)}
    {p : Program Error ExpressionStatus} (h : v.passes = front ++ p :: back) :
    ReflTransGen (Step a) v
      ⟨{ v.server with site := (v.server.site.perform p).2 },
        front ++ .done (v.server.site.perform p).1 :: back⟩ := by
  induction p generalizing v with
  | done result =>
    rw [show v = ⟨v.server, front ++ .done result :: back⟩ from congrArg (Visitors.mk v.server) h]
    exact .refl
  | ask c next ih => exact .head (.proceed h) (ih _ rfl)

/-- The first passes over the expressions that wait, one after the other. -/
theorem scheduleAll_run (server : Server) (passes : List (Program Error ExpressionStatus)) :
    ∃ passes', ReflTransGen (Step a) ⟨server, passes⟩
      ⟨{ server with site := Server.scheduleAll server.arrivals server.site, arrivals := [] },
        passes'⟩ := by
  obtain ⟨site, dispatcher, terms, arrivals, persistent⟩ := server
  induction arrivals generalizing site passes with
  | nil => exact ⟨passes, .refl⟩
  | cons arrival rest ih =>
    have hbegin := @Step.begin a
      ⟨⟨site, dispatcher, terms, arrival :: rest, persistent⟩, passes⟩ [] rest arrival.1 arrival.2
      rfl
    have hlast : passes ++ [Schedule.firstPass arrival.1 arrival.2] =
        passes ++ Schedule.firstPass arrival.1 arrival.2 :: [] := rfl
    have hpass := (ReflTransGen.single hbegin).trans (pass_run hlast)
    obtain ⟨passes', hrest⟩ := ih _ _
    exact ⟨passes', hpass.trans hrest⟩

/-- A server without completions in its queue has only first passes to make. -/
theorem settle_run (hqueue : v.server.dispatcher.queue = []) :
    ∃ passes', ReflTransGen (Step a) v ⟨v.server.settle, passes'⟩ := by
  obtain ⟨passes', hrun⟩ := scheduleAll_run (a := a) v.server v.passes
  obtain ⟨⟨site, ⟨settings, queue, closed, counts⟩, terms, arrivals, persistent⟩, passes⟩ := v
  cases hqueue
  exact ⟨passes', hrun⟩

theorem quiet_scheduleAll {site : Site} (hquiet : site.outages.Quiet)
    (arrivals : List (Int × String)) :
    (Server.scheduleAll arrivals site).outages.Quiet := by
  induction arrivals generalizing site with
  | nil => exact hquiet
  | cons arrival rest ih => exact ih (Site.perform_quiet _ hquiet)

theorem quiet_settle {server : Server} (hqueue : server.dispatcher.queue = [])
    (hquiet : server.site.outages.Quiet) : server.settle.site.outages.Quiet := by
  have hfirst := quiet_scheduleAll hquiet server.arrivals
  obtain ⟨site, ⟨settings, queue, closed, counts⟩, terms, arrivals, persistent⟩ := server
  cases hqueue
  exact hfirst

/-! ## Owners apart -/

/-- Owners do not see or disturb each other.  Whatever others do, with the passes that they start
and whatever fails on the way, an owner is answered as before when asking for the list of
expressions or for one of them; and an expression of somebody else is answered as one that does
not exist.  New identifiers are larger than those of the owner's rows, and nothing is under way
in the beginning. -/
theorem owners_apart (hrun : ReflTransGen (Step a) v v') (harrivals : v.server.arrivals = [])
    (hpasses : v.passes = [])
    (hids : ∀ r ∈ v.store.expressions, r.owner = a → r.id ≤ v.store.lastExpression)
    (hquiet : v.server.site.outages.Quiet) (hquiet' : v'.server.site.outages.Quiet) :
    (∀ r, Server.IsLookup r → Server.owner? r = some a →
        (v'.server.http r).1 = (v.server.http r).1) ∧
      ∀ r r', Server.owner? r = some a → Server.owner? r' = some a →
        Server.Hidden a v.store r → Server.Hidden a v.store r' → r'.method = r.method →
        (v.server.http r').1 = (v.server.http r).1 := by
  have hstart : Apart a (v.store.owned a) v.store.lastExpression v := by
    refine ⟨rfl, fun r hr => ?_, Int.le_refl _, by rw [harrivals]; simp, by rw [hpasses]; simp⟩
    obtain ⟨hmem, hown⟩ := List.mem_filter.1 hr
    exact hids r hmem (beq_iff_eq.1 hown)
  refine ⟨fun r hlookup howner => ?_, fun r r' howner howner' hr hr' hmethod => ?_⟩
  · exact Server.http_congr hlookup howner hquiet hquiet' (hstart.run hrun).owned
  · exact Server.http_hidden hquiet howner howner' hr hr' hmethod

/-- A server with an expression of one client. -/
def oneExpression : Server :=
  { Server.start .default ⟨.instant, 1⟩ true with
    site := ⟨⟨[], [⟨1, "alice", "1+2", "pending", none, none, "", ""⟩], 0, 1⟩, Site.dawn, []⟩ }

/-- Another client submits an expression. -/
def strangerRequest : Request :=
  ⟨"POST", "/api/v1/calculate", [("Content-Type", "application/json"), ("X-Owner-Id", " bob")],
    "\x7b\"expression\": \"3+4\"\x7d"⟩

/-- The server when the request was answered, and its first pass is still to come. -/
def disturbed : Server := (oneExpression.http strangerRequest).2

theorem disturbed_eq : disturbed.arrivals = [(2, "3+4")] ∧ disturbed.dispatcher.queue = [] ∧
    disturbed.site.outages = [] := by
  decide +kernel

theorem disturbed_run :
    ∃ passes, ReflTransGen (Step "alice") ⟨oneExpression, []⟩ ⟨disturbed.settle, passes⟩ := by
  have hpublic : Server.IsPublic strangerRequest := by
    unfold Server.IsPublic
    decide
  have howner : Server.owner? strangerRequest ≠ some "alice" := by decide
  have hrequest : Step "alice" ⟨oneExpression, []⟩ ⟨disturbed, []⟩ :=
    .request strangerRequest hpublic howner
  obtain ⟨passes, hsettle⟩ := settle_run (a := "alice") (v := ⟨disturbed, []⟩) disturbed_eq.2.1
  exact ⟨passes, .head hrequest hsettle⟩

theorem disturbed_apart : ∃ passes,
    ReflTransGen (Step "alice") ⟨oneExpression, []⟩ ⟨disturbed.settle, passes⟩ ∧
      (∀ r, Server.IsLookup r → Server.owner? r = some "alice" →
        (disturbed.settle.http r).1 = (oneExpression.http r).1) ∧
      ∀ r r', Server.owner? r = some "alice" → Server.owner? r' = some "alice" →
        Server.Hidden "alice" oneExpression.site.store r →
        Server.Hidden "alice" oneExpression.site.store r' → r'.method = r.method →
        (oneExpression.http r').1 = (oneExpression.http r).1 := by
  obtain ⟨-, hqueue, houtages⟩ := disturbed_eq
  obtain ⟨passes, hrun⟩ := disturbed_run
  have hquiet : disturbed.site.outages.Quiet := by
    rw [houtages]
    exact Outages.quiet_nil
  have hids : ∀ r ∈ oneExpression.site.store.expressions, r.owner = "alice" →
      r.id ≤ oneExpression.site.store.lastExpression := by
    decide
  have hapart := owners_apart hrun rfl rfl hids Outages.quiet_nil (quiet_settle hqueue hquiet)
  exact ⟨passes, hrun, hapart⟩

end Apart

end Visitors

end Piecework
