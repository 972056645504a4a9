import Piecework.Proofs.Store.Effects
import Piecework.Proofs.Store.Meets
import Piecework.Proofs.Server.Handover
import Piecework.Proofs.Worker.Message
import Piecework.Server.Basic

/-!
# Requests that are refused

A request comes to one call on the store at most, and the call may fail.  `Effect` lists what can
come of a request, with its answer: nothing at all, a task that is handed out, an outcome that is
recorded, or a new expression.  Only the first comes with a refusal.

* `carries_withContent`, `carries_withOwner` and `carries_respond` say what one step of a handler
  makes of it, and `perform_handle` puts them together for every request.
* `refused_unchanged`: a request that is refused, or a submission that does not count, leaves
  rows, dispatcher and arrivals alone.
* `created_iff`: the answer to a new expression names the row that was added.
-/

namespace Piecework

open Http Json

/-! ## What the calls leave alone -/

namespace Store

variable {s s' : Store} {now : Time.Instant}

/-- Where no task is selected nothing changes. -/
theorem updateTask_false {id : Int} {status : TaskStatus} {change : TaskRow → TaskRow}
    (h : s.updateTask id status change = (false, s')) : s' = s := by
  obtain ⟨hany, hsame⟩ := Prod.mk.inj h
  rw [List.any_eq_false] at hany
  have hmap : (s.tasks.map fun r => if r.id == id && r.isIn status then change r else r) =
      s.tasks.map fun r => r := by
    apply List.map_congr_left
    intro r hr
    rw [if_neg (hany r hr)]
  rw [← hsame, hmap, List.map_id']

/-- Handing out a task concerns the tasks only. -/
theorem lease_expressions {found : Option Task} (h : s.lease now = .ok (found, s')) :
    s'.expressions = s.expressions := by
  unfold lease at h
  split at h
  · cases h
    rfl
  · split at h
    · cases h
    · cases h
      rfl

end Store

/-! ## Answers with a number -/

/-- Integers with the same digits and the same sign are equal. -/
theorem integerChars_injective : Function.Injective integerChars := by
  intro n m h
  have hvalue : ∀ {a b : Nat}, Decimal.digitChars a = Decimal.digitChars b → a = b := by
    intro a b hab
    rw [← Decimal.ofDigitChars_digitChars a, hab, Decimal.ofDigitChars_digitChars]
  have hminus : ∀ {a : Nat} {cs : List Char}, '-' :: cs ≠ Decimal.digitChars a := by
    intro a cs hcs
    have hdigit := Decimal.digital_digitChars a '-' (hcs ▸ List.mem_cons_self)
    cases hdigit
  unfold integerChars at h
  dsimp only at h
  split_ifs at h with hn hm hm
  · have hsize := hvalue (List.cons.inj h).2
    omega
  · exact absurd h hminus
  · exact absurd h.symm hminus
  · have hsize := hvalue h
    omega

namespace Server

/-! ## Programs of one call -/

/-- The program asks the store once, and gives a value for what the store answers. -/
def IsCall {α : Type} (c : Call) (value : c.Reply → α) (p : Program Error α) : Prop :=
  ∀ site : Site, site.perform p =
    (((site.answer c).1.mapError Error.store).map value, (site.answer c).2)

theorem isCall_lift (c : Call) :
    IsCall c id (liftM (Program.call c) : Program Error c.Reply) := by
  intro site
  show ((site.answer c).1.mapError Error.store, (site.answer c).2) = _
  cases (site.answer c).1 <;> rfl

theorem isCall_bind {α : Type} {c : Call} {k : c.Reply → Program Error α} {value : c.Reply → α}
    (h : ∀ reply, k reply = .done (.ok (value reply))) :
    IsCall c value ((liftM (Program.call c) : Program Error c.Reply) >>= k) := by
  intro site
  rw [Site.perform_call]
  cases (site.answer c).1 with
  | ok reply =>
    dsimp only
    rw [h]
    rfl
  | error e => rfl

/-! ## What can come of a request -/

/-- The answer to a new expression. -/
def createdResponse (id : Int) : Response := jsonResponse 201 (.object [("id", .integer id)])

/-- What can come of a request, with its answer. -/
inductive Effect (r : Request) (site : Site) : Answer → Site → Prop
  | unchanged {response : Response} {site' : Site} : site'.store = site.store →
      response.status ≠ 201 → Effect r site (response, none) site'
  | leased {response : Response} {site' : Site} : Endpoint.ofPath? r.path = some .task →
      response.status = 200 → site'.store.expressions = site.store.expressions →
      Effect r site (response, none) site'
  | recorded {id : Int} {site' : Site} : Endpoint.ofPath? r.path = some .taskResult →
      site'.store.expressions = site.store.expressions →
      Effect r site (.json 200 (Receipt.format.encode ⟨true⟩), some (.reschedule id)) site'
  | created {owner : String} {request : CalculationRequest} {now : Time.Instant} {site' : Site} :
      Endpoint.ofPath? r.path = some .calculate → owner? r = some owner →
      content CalculationRequest.format r = .ok request →
      site'.store = (site.store.createExpression now owner request.expression).2 →
      Effect r site (createdResponse (site.store.lastExpression + 1),
        some (.schedule (site.store.lastExpression + 1) request.expression)) site'

/-- What a handler comes to, at every site. -/
def Carries (r : Request) (h : Handler) : Prop :=
  ∀ site : Site, Effect r site (valueOf (site.perform h).1) (site.perform h).2

section Handlers

variable {r : Request}

theorem carries_final {response : Response} (h : response.status ≠ 201) :
    Carries r (finalAnswer response) :=
  fun _ => .unchanged rfl h

/-- Content that cannot be taken is answered with one of four statuses. -/
theorem content_refused {α : Type} {format : Format α} {response : Response}
    (h : content format r = .error response) : response.status ∈ [400, 413, 415, 422] := by
  unfold content at h
  split at h
  · cases h
    decide
  · split_ifs at h with hjson hlong
    · cases h
      decide
    · split at h <;> cases h <;> decide
    · cases h
      decide

/-- Content that is refused is not looked at any further. -/
theorem carries_withContent {α : Type} {format : Format α} {f : α → Handler}
    (h : ∀ a, content format r = .ok a → Carries r (f a)) : Carries r (withContent format r f) := by
  unfold withContent
  split
  · rename_i a ha
    exact h a ha
  · rename_i response hresponse
    apply carries_final
    intro hcreated
    have hstatus := content_refused hresponse
    rw [hcreated] at hstatus
    exact absurd hstatus (by decide)

theorem carries_withOwner {f : String → Handler}
    (h : ∀ owner, owner? r = some owner → Carries r (f owner)) : Carries r (withOwner r f) := by
  unfold withOwner
  split
  · rename_i owner howner
    exact h owner howner
  · exact carries_final nofun

theorem status_failure (e : Error) : (failure e).status ≠ 201 := by
  cases e <;> exact nofun

/-- A program that fails changes nothing. -/
theorem carries_respond {α : Type} {p : Program Error α} {f : α → Answer}
    (hok : ∀ site a, (site.perform p).1 = .ok a → Effect r site (f a) (site.perform p).2)
    (herror : ∀ (site : Site) e, (site.perform p).1 = .error e →
      (site.perform p).2.store = site.store) : Carries r (respond p f) := by
  intro site
  unfold respond
  rw [Site.perform_andThen]
  cases hresult : (site.perform p).1 with
  | ok a => exact hok site a hresult
  | error e => exact .unchanged (herror site e hresult) (status_failure e)

/-- Only what the store has answered can be more than nothing. -/
theorem carries_call {α : Type} {c : Call} {value : c.Reply → α} {p : Program Error α}
    {f : α → Answer} (hcall : IsCall c value p)
    (h : ∀ (site site' : Site) now reply, site.store.answer now c = .ok (reply, site'.store) →
      Effect r site (f (value reply)) site') : Carries r (respond p f) := by
  apply carries_respond
  · intro site a ha
    rw [hcall] at ha ⊢
    obtain ⟨⟨now, reply, hreply, heq⟩ | ⟨e, hreply, -⟩, -⟩ := Site.answer_cases c site
    · rw [hreply] at ha
      cases ha
      exact h site _ now reply heq
    · rw [hreply] at ha
      cases ha
  · intro site e he
    rw [hcall] at he ⊢
    obtain ⟨⟨now, reply, hreply, -⟩ | ⟨e', -, hstore, -⟩, -⟩ := Site.answer_cases c site
    · rw [hreply] at he
      cases he
    · exact hstore

/-! ## Every request -/

theorem carries_giveTask (hpath : Endpoint.ofPath? r.path = some .task) (terms : WorkerTerms) :
    Carries r (giveTask terms r) := by
  apply carries_withContent
  intro request _
  have hcall : IsCall .lease (fun found => found.elim (.noTask terms.retryAfter) fun task =>
      .task (task.assignment terms.times)) (Workers.giveTask terms) := by
    apply isCall_bind
    intro reply
    cases reply <;> rfl
  apply carries_call hcall
  intro site site' now reply heq
  exact .leased hpath rfl (Store.lease_expressions heq)

/-- An outcome is recorded, or it does not count and nothing changes. -/
theorem carries_counted (hpath : Endpoint.ofPath? r.path = some .taskResult) {id : Int}
    {site site' : Site} {status : TaskStatus} {change : TaskRow → TaskRow} {counted : Bool}
    (h : site.store.updateTask id status change = (counted, site'.store)) :
    Effect r site (.json 200 (Receipt.format.encode ⟨counted⟩),
      if counted then some (.reschedule id) else none) site' := by
  cases counted with
  | true =>
    have hstore : site'.store.expressions = site.store.expressions := by
      rw [← (Prod.mk.inj h).2]
    exact .recorded hpath hstore
  | false => exact .unchanged (Store.updateTask_false h) nofun

theorem carries_takeResult (hpath : Endpoint.ofPath? r.path = some .taskResult) :
    Carries r (takeResult r) := by
  apply carries_withContent
  intro submission _
  obtain ⟨id, agent, outcome⟩ := submission
  rcases outcome with - | value | message
  · -- nothing is said about the task, so the store is not asked
    exact fun _ => .unchanged rfl nofun
  · have hcall : IsCall (.completeTask id value)
        (fun counted => (⟨counted⟩, if counted then some (.reschedule id) else none))
        (Workers.takeResult ⟨id, agent, some (.result value)⟩) :=
      isCall_bind fun _ => rfl
    apply carries_call hcall
    intro site site' now counted heq
    exact carries_counted hpath (Except.ok.inj heq)
  · have hcall : IsCall (.failTask id)
        (fun counted => (⟨counted⟩, if counted then some (.reschedule id) else none))
        (Workers.takeResult ⟨id, agent, some (.error message)⟩) :=
      isCall_bind fun _ => rfl
    apply carries_call hcall
    intro site site' now counted heq
    exact carries_counted hpath (Except.ok.inj heq)

theorem carries_calculate (hpath : Endpoint.ofPath? r.path = some .calculate) :
    Carries r (calculate r) := by
  apply carries_withContent
  intro request hrequest
  apply carries_withOwner
  intro owner howner
  split_ifs
  · exact carries_final nofun
  · have hcall : IsCall (.createExpression owner request.expression)
        (fun id => (id, .schedule id request.expression))
        (Clients.submit owner request.expression) :=
      isCall_bind fun _ => rfl
    apply carries_call hcall
    intro site site' now id heq
    obtain ⟨rfl, hstore⟩ := Prod.mk.inj (Except.ok.inj heq)
    exact @Effect.created r site owner request now site' hpath howner hrequest hstore.symm

theorem carries_listExpressions : Carries r (listExpressions r) := by
  apply carries_withOwner
  intro owner _
  apply carries_call (isCall_lift (.listOwned owner))
  intro site site' now reply heq
  obtain ⟨-, hstore⟩ := Prod.mk.inj (Except.ok.inj heq)
  exact .unchanged hstore.symm nofun

theorem carries_getExpression (part : String) : Carries r (getExpression part r) := by
  unfold getExpression
  split
  · exact carries_final nofun
  · rename_i id _
    apply carries_withOwner
    intro owner _
    apply carries_call (isCall_lift (.getOwnedExpression id owner))
    intro site site' now reply heq
    have hstore := (Store.map_pair_ok heq).2
    cases reply <;> exact .unchanged hstore nofun

theorem carries_serve {e : Endpoint} (hpath : Endpoint.ofPath? r.path = some e)
    (terms : WorkerTerms) : Carries r (serve terms r e) := by
  cases e with
  | health => exact carries_final nofun
  | task => exact carries_giveTask hpath terms
  | taskResult => exact carries_takeResult hpath
  | calculate => exact carries_calculate hpath
  | expressions => exact carries_listExpressions
  | expression part => exact carries_getExpression part

/-- What is read from has no other effect when only the head is asked for. -/
theorem Effect.head {e : Endpoint} {site site' : Site} {response : Response} {job : Option Job}
    (h : Effect r site (response, job) site') (hpath : Endpoint.ofPath? r.path = some e)
    (hread : e.isRead = true) : Effect r site (response.head, job) site' := by
  cases h with
  | unchanged hstore hstatus => exact .unchanged hstore hstatus
  | leased hpath' =>
    cases hpath.symm.trans hpath'
    cases hread
  | recorded hpath' =>
    cases hpath.symm.trans hpath'
    cases hread
  | created hpath' =>
    cases hpath.symm.trans hpath'
    cases hread

/-- What can come of a request, whatever it is and whatever fails. -/
theorem carries_handle (terms : WorkerTerms) (r : Request) : Carries r (handle terms r) := by
  unfold handle
  split_ifs
  · exact carries_final nofun
  · split
    · exact carries_final nofun
    · rename_i e hpath
      have hserve := carries_serve hpath terms
      unfold dispatch
      split_ifs with hread
      · exact hserve
      · intro site
        have heffect := hserve site
        unfold Program.bind
        rw [Site.perform_andThen]
        cases hanswer : (site.perform (serve terms r e)).1 with
        | error e => exact e.elim
        | ok answer =>
          obtain ⟨response, job⟩ := answer
          rw [hanswer] at heffect
          exact heffect.head hpath hread
      · exact carries_final nofun
      · exact hserve
      · exact carries_final nofun

end Handlers

/-! ## Refused requests -/

/-- The response does not say that the request was carried out, or it says that a submission does
not count. -/
def Refused (r : Request) (response : Response) : Prop :=
  response.isSuccess = false ∨ Endpoint.ofPath? r.path = some .taskResult ∧
    Receipt.format.decode response.body.text = .ok ⟨false⟩

/-- The same rows, counters, queue and arrivals. -/
structure Untouched (s s' : Server) : Prop where
  store : s'.site.store = s.site.store
  dispatcher : s'.dispatcher = s.dispatcher
  arrivals : s'.arrivals = s.arrivals

variable {s : Server} {r : Request}

/-- What came of a request, told of the server. -/
theorem http_effect (s : Server) (r : Request) : ∃ job site,
    Effect r s.site ((s.http r).1, job) site ∧ (s.http r).2 = { s with site }.leave job :=
  ⟨(valueOf (s.site.perform (handle s.terms r)).1).2, (s.site.perform (handle s.terms r)).2,
    carries_handle s.terms r s.site, rfl⟩

/-- The receipt of a submission that counts says so. -/
theorem decode_receipt : Receipt.format.decode (Receipt.format.encode ⟨true⟩) = .ok ⟨true⟩ :=
  (Receipt.keeps ⟨true⟩).decode_encode (by decide)

/-- A request that is refused changes nothing, and neither does a submission that does not
count. -/
theorem refused_unchanged (h : Refused r (s.http r).1) : Untouched s (s.http r).2 := by
  obtain ⟨job, site, heffect, hserver⟩ := http_effect s r
  rw [hserver]
  generalize (s.http r).1 = response at h heffect
  cases heffect with
  | unchanged hstore => exact ⟨hstore, rfl, rfl⟩
  | leased hpath hstatus =>
    rcases h with hfailure | ⟨hpath', -⟩
    · simp [Response.isSuccess, hstatus] at hfailure
    · cases hpath.symm.trans hpath'
  | recorded hpath =>
    rcases h with hfailure | ⟨-, hreceipt⟩
    · cases hfailure
    · cases decode_receipt.symm.trans hreceipt
  | created hpath =>
    rcases h with hfailure | ⟨hpath', -⟩
    · cases hfailure
    · cases hpath.symm.trans hpath'

/-! ## New expressions -/

/-- The answer names one identifier. -/
theorem createdResponse_injective : Function.Injective createdResponse := by
  intro n m h
  have htext : (Value.object [("id", .integer n)]).sorted.toText =
      (Value.object [("id", .integer m)]).sorted.toText :=
    Body.json.inj (Response.mk.inj h).2.2.2
  have hchars := String.ofList_injective htext
  simp [Value.sorted, Value.sortedMembers, Value.insertMember, Value.chars, Value.memberChars,
    Value.separated] at hchars
  exact integerChars_injective hchars

/-- One row was added to the expressions. -/
def Adds (id : Int) (owner source : String) (s s' : Server) : Prop :=
  ∃ row : ExpressionRow, s'.site.store.expressions = s.site.store.expressions ++ [row] ∧
    row.id = id ∧ row.owner = owner ∧ row.source = source

theorem trimmed_of_owner {owner : String} (h : owner? r = some owner) :
    (r.header? ownerHeader).map Text.trimText = some owner :=
  (Option.filter_eq_some_iff.1 h).1

/-- Where no row is added and the answer is another one, nothing was created. -/
theorem created_iff_of_same {response : Response} {site : Site} (job : Option Job) (id : Int)
    (hstatus : response.status ≠ 201)
    (hsame : site.store.expressions = s.site.store.expressions) :
    response = createdResponse id ↔ ∃ owner request,
      (r.header? ownerHeader).map Text.trimText = some owner ∧
        content CalculationRequest.format r = .ok request ∧
        Adds id owner request.expression s ({ s with site }.leave job) := by
  apply iff_of_false
  · intro hcreated
    rw [hcreated] at hstatus
    exact hstatus rfl
  · intro hadds
    obtain ⟨owner, request, -, -, row, hrow, -⟩ := hadds
    have hlength := congrArg List.length hrow
    rw [leave_site, hsame, List.length_append, List.length_singleton] at hlength
    omega

/-- The effect of a request that adds a row is a new expression, and its answer is no other. -/
theorem Effect.created_iff {response : Response} {job : Option Job} {site : Site}
    (heffect : Effect r s.site (response, job) site)
    (hserver : (s.http r).2 = { s with site }.leave job) (id : Int) :
    response = createdResponse id ↔ ∃ owner request,
      (r.header? ownerHeader).map Text.trimText = some owner ∧
        content CalculationRequest.format r = .ok request ∧
        Adds id owner request.expression s (s.http r).2 := by
  rw [hserver]
  cases heffect with
  | unchanged hstore hstatus =>
    exact created_iff_of_same none id hstatus (congrArg Store.expressions hstore)
  | leased _ hstatus hsame =>
    have hother : response.status ≠ 201 := by
      rw [hstatus]
      decide
    exact created_iff_of_same none id hother hsame
  | recorded _ hsame => exact created_iff_of_same _ id nofun hsame
  | @created owner request now _ _ howner hrequest hstore =>
    have hrows : site.store.expressions = s.site.store.expressions ++
        [⟨s.site.store.lastExpression + 1, owner, request.expression,
          ExpressionStatus.pending.name, none, none, now.stamp, now.stamp⟩] := by
      rw [hstore]
      rfl
    constructor
    · intro hcreated
      rw [← createdResponse_injective hcreated]
      exact ⟨owner, request, trimmed_of_owner howner, hrequest, _, hrows, rfl, rfl, rfl⟩
    · intro hadds
      obtain ⟨owner', request', -, -, row, hrow, hid, -⟩ := hadds
      have hsame := List.append_cancel_left (hrows.symm.trans hrow)
      rw [← hid, ← (List.cons.inj hsame).1]

/-- A refused request changes nothing, and neither does a submission that does not count.  A
request is answered with the identifier of a new expression exactly if one row with this
identifier was added, for the trimmed owner in the header and with the text in the content. -/
theorem refused_or_created (s : Server) (r : Request) :
    (Refused r (s.http r).1 → Untouched s (s.http r).2) ∧
      ∀ id, (s.http r).1 = createdResponse id ↔ ∃ owner request,
        (r.header? ownerHeader).map Text.trimText = some owner ∧
          content CalculationRequest.format r = .ok request ∧
          Adds id owner request.expression s (s.http r).2 := by
  refine ⟨refused_unchanged, ?_⟩
  intro id
  obtain ⟨job, site, heffect, hserver⟩ := http_effect s r
  exact heffect.created_iff hserver id

/-- A server whose store refuses the next expression, and only this one. -/
def failingOnce : Server :=
  { Server.start .default ⟨.instant, 1⟩ true with
    site := ⟨.empty, Site.dawn, [(.createExpression, ⟨0, 1, .query "disk I/O error"⟩)]⟩ }

/-- An expression of a client. -/
def newExpression : Request :=
  ⟨"POST", "/api/v1/calculate", [("Content-Type", "application/json"), ("X-Owner-Id", " bob")],
    "\x7b\"expression\": \"3+4\"\x7d"⟩

/-- The first request fails and leaves nothing behind, and the second one is carried out. -/
theorem failingOnce_created : (failingOnce.http newExpression).1.status = 500 ∧
    Untouched failingOnce (failingOnce.http newExpression).2 ∧
    Adds 1 "bob" "3+4" (failingOnce.http newExpression).2
      ((failingOnce.http newExpression).2.http newExpression).2 := by
  have hstatus : (failingOnce.http newExpression).1.status = 500 := by decide +kernel
  have hrefused : Refused newExpression (failingOnce.http newExpression).1 := by
    left
    rw [Response.isSuccess, hstatus]
    decide
  have hcreated :
      ((failingOnce.http newExpression).2.http newExpression).1 = createdResponse 1 := by
    decide +kernel
  have howner : (newExpression.header? ownerHeader).map Text.trimText = some "bob" := by
    decide
  have hrequest : content CalculationRequest.format newExpression = .ok ⟨"3+4"⟩ := by
    decide +kernel
  obtain ⟨owner, request, howner', hrequest', hadds⟩ := ((refused_or_created _ _).2 1).1 hcreated
  cases howner.symm.trans howner'
  cases hrequest.symm.trans hrequest'
  exact ⟨hstatus, (refused_or_created _ _).1 hrefused, hadds⟩

end Server

end Piecework
