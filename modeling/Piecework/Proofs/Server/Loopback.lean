import Piecework.Proofs.Server.Completion
import Piecework.Proofs.Server.Handover
import Piecework.Proofs.System.Value
import Piecework.Proofs.Worker.Message

/-!
# Work over HTTP

A worker that speaks HTTP does what a worker in the same process does.  A request goes to its
endpoint whatever the origin is (`Reaches`), the message in it arrives and the answer comes back,
because both are given back by their texts; so each of the two requests of a worker has the same
answer over HTTP as directly, and leaves the same server behind (`httpPeer_getTask`,
`httpPeer_submit`).

What remains is that the messages of an iteration are among those that their texts give back, and
that the server takes texts of their length.  They carry the identifier and the operands of the
task that waits longest, and the value that the worker computes, which is finite because an
operation has no other (`runOnce_httpPeer`).  A message that is too long is refused before anybody
looks at it (`post_refused`), so a worker with a long name gets no task over HTTP.
-/

namespace Piecework

open Json

/-! ## The task that waits longest -/

/-- The row of the task that is handed out next. -/
def Store.next? (s : Store) : Option TaskRow := oldest? (s.tasks.filter (·.isIn .pending))

/-- The floats that go back and forth for a task: its operands and the value that is computed
from them, if there is one. -/
def TaskRow.floats (r : TaskRow) : List Float :=
  r.operand1 :: r.operand2 ::
    (compute (columnText r.operator) r.operand1 r.operand2).toOption.toList

/-- What an agent submits for a task: the value of the operation, or why it has none. -/
def TaskRow.submission (agent : String) (r : TaskRow) : Submission :=
  ⟨r.id, agent, some (match compute (columnText r.operator) r.operand1 r.operand2 with
    | .ok value => .result value
    | .error e => .error e.message)⟩

/-- A row that can be read, with an identifier of 64 bits and finite operands. -/
structure TaskRow.Sendable (r : TaskRow) : Prop where
  read : ∃ k, r.read = .ok k
  id : Text.minId ≤ r.id ∧ r.id ≤ Text.maxId
  operand1 : r.operand1.isFinite = true
  operand2 : r.operand2.isFinite = true

/-- The assignment is what a worker is shown of the row. -/
structure Assignment.Shows (a : Assignment) (r : TaskRow) : Prop where
  id : a.id = r.id
  operand1 : a.operand1 = r.operand1
  operand2 : a.operand2 = r.operand2
  value : compute a.operator a.operand1 a.operand2 =
    compute (columnText r.operator) r.operand1 r.operand2

/-- What is handed out is the task that waits longest. -/
theorem Store.lease_next {s : Store} (hread : ∀ r, s.next? = some r → ∃ k, r.read = .ok k)
    (now : Time.Instant) (times : OperationTimes) :
    ∃ found s', s.lease now = .ok (found, s') ∧
      ∀ k ∈ found, ∃ r, s.next? = some r ∧ (k.assignment times).Shows r := by
  unfold next? at hread ⊢
  unfold lease
  cases hnext : oldest? (s.tasks.filter (·.isIn .pending)) with
  | none => exact ⟨none, s, rfl, fun k hk => absurd hk (Option.not_mem_none k)⟩
  | some r =>
    obtain ⟨k, hk⟩ := hread r hnext
    obtain ⟨op, hop, rfl⟩ := TaskRow.read_eq_ok hk
    dsimp only
    rw [hk]
    refine ⟨_, _, rfl, ?_⟩
    rintro k' ⟨⟩
    refine ⟨r, rfl, rfl, rfl, rfl, ?_⟩
    rw [Task.assignment, compute, compute, Operator.ofSymbol_symbol, hop]

/-- An agent that is given no task has nothing to do. -/
theorem Agent.runOnce_noTask {S : Type} {peer : Peer S} {agent : String} {s s' : S}
    {retryAfter : UInt64} (hget : peer.getTask ⟨agent⟩ s = (.ok (.noTask retryAfter), s')) :
    Agent.runOnce peer agent s = (.ok (.idle retryAfter), s') := by
  unfold Agent.runOnce
  rw [hget]

/-- An agent that cannot even ask has done nothing. -/
theorem Agent.runOnce_failed {S : Type} {peer : Peer S} {agent : String} {s s' : S} {e : Error}
    (hget : peer.getTask ⟨agent⟩ s = (.error e, s')) :
    Agent.runOnce peer agent s = (.error e, s') := by
  unfold Agent.runOnce
  rw [hget]

section Messages

variable {a : Assignment} {r : TaskRow}

theorem Assignment.Shows.submission (h : a.Shows r) (agent : String) :
    a.submission agent = r.submission agent := by
  rw [Assignment.submission, Assignment.outcome, h.value, h.id]
  rfl

theorem Assignment.Shows.keeps_reply (h : a.Shows r) (hr : r.Sendable)
    (hback : ∀ x ∈ r.floats, x.isFinite = true → ReadsBack x) :
    TaskReply.format.Keeps 1 (.task a) := by
  have hids : ∀ id ∈ [a.id], Text.minId ≤ id ∧ id ≤ Text.maxId := by
    simpa [h.id] using hr.id
  have hoperands : ∀ x ∈ [a.operand1, a.operand2], x.isFinite = true ∧ ReadsBack x := by
    simp only [List.mem_cons, List.not_mem_nil, or_false, forall_eq_or_imp, forall_eq, h.operand1,
      h.operand2]
    exact ⟨⟨hr.operand1, hback _ (by simp [TaskRow.floats]) hr.operand1⟩,
      hr.operand2, hback _ (by simp [TaskRow.floats]) hr.operand2⟩
  exact TaskReply.keeps ⟨hids, fun x hx => (hoperands x hx).1⟩ fun x hx => (hoperands x hx).2

theorem Assignment.Shows.keeps_submission (h : a.Shows r) (hr : r.Sendable)
    (hback : ∀ x ∈ r.floats, x.isFinite = true → ReadsBack x) (agent : String) :
    Submission.format.Keeps 2 (a.submission agent) := by
  have hids : ∀ id ∈ [a.id], Text.minId ≤ id ∧ id ≤ Text.maxId := by
    simpa [h.id] using hr.id
  have hvalues : ∀ x ∈ a.outcome.floats, x.isFinite = true ∧ ReadsBack x := by
    intro x hx
    unfold Assignment.outcome at hx
    rw [h.value] at hx
    split at hx
    · rename_i value hvalue
      obtain rfl : x = value := List.mem_singleton.1 hx
      have hfinite := Number.isFinite_of_compute hvalue
      exact ⟨hfinite, hback x (by simp [TaskRow.floats, hvalue, Except.toOption]) hfinite⟩
    · cases hx
  have hfloats : (a.submission agent).floats = a.outcome.floats := by
    simp [Submission.floats, Assignment.submission]
  refine Submission.keeps ⟨hids, ?_⟩ ?_ <;> rw [hfloats]
  · exact fun x hx => (hvalues x hx).1
  · exact fun x hx => (hvalues x hx).2

end Messages

namespace Server

open Http
open String (utf8Len utf8Len_append utf8Len_cons)

/-! ## Requests that reach their endpoint -/

/-- What begins with a separator leaves the origin alone. -/
theorem ofText?_eq {rest : String} {u : Url} (h : Url.ofText? "" rest = some u)
    (hstart : (rest.toList.filter fun c => !Url.isDropped c).takeWhile
      (fun c => !(Url.isSeparator c || Target.endsPath c)) = []) (origin : String) :
    Url.ofText? origin rest = some { u with origin } := by
  unfold Url.ofText? at h ⊢
  dsimp only at h ⊢
  rw [hstart, Url.originWith?, if_pos rfl] at h ⊢
  cases h
  rfl

theorem trimSlashes_eq {path : String} (h : ∀ c ∈ path.toList, c = '/') :
    trimSlashes path = "" := by
  have hnone : path.toList.reverse.dropWhile (· == '/') = [] := by
    rw [List.dropWhile_eq_nil_iff]
    intro c hc
    rw [h c (List.mem_reverse.1 hc)]
    rfl
  rw [trimSlashes, hnone]
  rfl

/-- A request for the path goes to the endpoint. -/
def Reaches (remote : Remote) (path : String) (endpoint : Endpoint) : Prop :=
  ∃ url, remote.url? path = some url ∧ Endpoint.ofPath? (Target.path url.target) = some endpoint

/-- A remote with nothing but slashes behind its origin has the endpoints where the server does. -/
theorem reaches_of_target {base path : String} {u : Url} {endpoint : Endpoint}
    (hbase : ∀ c ∈ base.toList, c = '/')
    (hu : Url.ofText? "" ("" ++ path) = some u)
    (hstart : (("" ++ path).toList.filter fun c => !Url.isDropped c).takeWhile
      (fun c => !(Url.isSeparator c || Target.endsPath c)) = [])
    (hpath : Endpoint.ofPath? (Target.path u.target) = some endpoint) (origin : String) :
    Reaches (.behind origin base) path endpoint := by
  refine ⟨{ u with origin }, ?_, hpath⟩
  rw [Remote.behind, trimSlashes_eq hbase]
  exact ofText?_eq hu hstart origin

theorem reaches_task {base : String} (hbase : ∀ c ∈ base.toList, c = '/') (origin : String) :
    Reaches (.behind origin base) "/internal/task" .task :=
  reaches_of_target (u := ⟨"", ["internal", "task"], none, none⟩) hbase (by decide)
    (by decide) (by decide) origin

theorem reaches_taskResult {base : String} (hbase : ∀ c ∈ base.toList, c = '/')
    (origin : String) : Reaches (.behind origin base) "/internal/task/result" .taskResult :=
  reaches_of_target (u := ⟨"", ["internal", "task", "result"], none, none⟩) hbase
    (by decide) (by decide) (by decide) origin

section Content

variable {α β : Type} {format : Format α} {message : α} {url : Url}

/-- The text of a message is not too long for the server. -/
def Fits (format : Format α) (message : α) : Prop :=
  (format.encode message).utf8ByteSize ≤ contentLimit

theorem type_request (url : Url) (format : Format α) (message : α) :
    ((Remote.request url format message).header? "content-type").bind MediaType.ofText? =
      some ⟨"application", "json", none⟩ := by
  change (Request.header? ⟨"", "", [("content-type", "application/json")], ""⟩
    "content-type").bind _ = _
  decide

/-- A message that fits and that its text gives back arrives. -/
theorem content_request (hfits : Fits format message)
    (h : format.decode (format.encode message) = .ok message) :
    content format (Remote.request url format message) = .ok message := by
  have hsize : ¬contentLimit < (Remote.request url format message).body.size := Nat.not_lt.2 hfits
  rw [content, type_request]
  dsimp only
  rw [if_pos (by decide), if_neg hsize, Remote.request, Format.decodeOctets_toUTF8, h]

/-- A message that does not fit is not looked at. -/
theorem content_tooLong (h : ¬Fits format message) :
    content format (Remote.request url format message) =
      .error (.plain 413 "content is too long") := by
  have hsize : contentLimit < (Remote.request url format message).body.size := Nat.not_le.1 h
  rw [content, type_request]
  dsimp only
  rw [if_pos (by decide), if_pos hsize]

theorem handle_request {terms : WorkerTerms} {endpoint : Endpoint}
    (hpath : Endpoint.ofPath? (Target.path url.target) = some endpoint)
    (hwrite : endpoint.isRead = false) :
    handle terms (Remote.request url format message) =
      serve terms (Remote.request url format message) endpoint := by
  have hmethod : (Remote.request url format message).method = "POST" := rfl
  have hpath' : Endpoint.ofPath? (Remote.request url format message).path = some endpoint := hpath
  rw [handle, hmethod, if_neg (by decide), hpath']
  dsimp only
  rw [dispatch, hwrite, if_neg Bool.false_ne_true, hmethod, if_pos rfl]

/-- A response in JSON with a message that its text gives back is read as the message. -/
theorem readAnswer_json (h : format.decode (format.encode message) = .ok message) :
    Remote.readAnswer format 200 (format.encode message) = .ok message := by
  rw [Remote.readAnswer, if_pos (by decide), h]

end Content

/-! ## How long a name may be -/

/-- The octets of a name inside of a message, where some characters are escaped. -/
def nameSize (agent : String) : Nat := utf8Len (agent.toList.flatMap escapeChar)

theorem utf8Len_quoted (s : String) : utf8Len (quoted s) = nameSize s + 2 := by
  rw [quoted, utf8Len_append, utf8Len_cons]
  rfl

theorem size_request (agent : String) :
    (TaskRequest.format.encode ⟨agent⟩).utf8ByteSize = nameSize agent + 15 := by
  have hencode : ∀ agent, TaskRequest.format.encode ⟨agent⟩ = String.ofList
      ('\x7b' :: (quoted "agent_id" ++ ':' :: quoted agent) ++ ['\x7d']) := fun _ => rfl
  have hempty : (TaskRequest.format.encode ⟨""⟩).utf8ByteSize = 15 := by decide
  have hnone : nameSize "" = 0 := rfl
  rw [hencode, String.utf8ByteSize_ofList] at hempty ⊢
  simp only [utf8Len_append, utf8Len_cons, List.cons_append, utf8Len_quoted] at hempty ⊢
  omega

theorem size_submission (id : Int) (agent : String) (outcome : Option Outcome) :
    (Submission.format.encode ⟨id, agent, outcome⟩).utf8ByteSize =
      nameSize agent + (Submission.format.encode ⟨id, "", outcome⟩).utf8ByteSize := by
  have hencode : ∀ agent, Submission.format.encode ⟨id, agent, outcome⟩ = String.ofList
      ('\x7b' :: (quoted "task_id" ++ ':' :: integerChars id ++
        ',' :: (quoted "agent_id" ++ ':' :: quoted agent ++
        ',' :: (quoted "outcome" ++ ':' :: (Outcome.format.optional.write outcome).chars))) ++
        ['\x7d']) := fun _ => rfl
  have hnone : nameSize "" = 0 := rfl
  rw [hencode, hencode, String.utf8ByteSize_ofList, String.utf8ByteSize_ofList]
  simp only [utf8Len_append, utf8Len_cons, List.cons_append, utf8Len_quoted]
  omega

theorem fits_request_iff {agent : String} :
    Fits TaskRequest.format ⟨agent⟩ ↔ nameSize agent + 15 ≤ contentLimit := by
  rw [Fits, size_request]

theorem fits_submission_iff {agent : String} {r : TaskRow} :
    Fits Submission.format (r.submission agent) ↔
      nameSize agent + (Submission.format.encode (r.submission "")).utf8ByteSize ≤
        contentLimit := by
  rw [Fits, TaskRow.submission, size_submission]
  rfl

/-- Escapes do not make a text shorter. -/
theorem utf8Len_le_escaped (cs : List Char) : utf8Len cs ≤ utf8Len (cs.flatMap escapeChar) := by
  induction cs with
  | nil => exact Nat.le_refl _
  | cons c rest ih =>
    have hone : c.utf8Size ≤ utf8Len (escapeChar c) := by
      by_cases hascii : c.toNat < 128
      · have hsome : utf8Len (escapeChar c) ≠ 0 := by
          rw [ne_eq, String.utf8Len_eq_zero]
          unfold escapeChar
          split_ifs <;> exact not_false
        have hsize : c.utf8Size = 1 := Char.utf8Size_eq_one_iff.2 (Nat.le_of_lt_succ hascii)
        omega
      · have hquote : c ≠ '"' := by
          rintro rfl
          exact hascii (by decide)
        have hslash : c ≠ '\\' := by
          rintro rfl
          exact hascii (by decide)
        rw [escapeChar, if_neg hquote, if_neg hslash, if_pos (by omega), utf8Len_cons]
        exact Nat.le_add_left _ _
    rw [List.flatMap_cons, utf8Len_append, utf8Len_cons]
    omega

/-! ## Answers that come back -/

variable {s s' : Server}

/-- A program that succeeds is answered with what it gives. -/
theorem perform_respond {α : Type} {p : Program Error α} {a : α} (f : α → Answer)
    (h : s.perform p = (.ok a, s')) : s.perform (respond p f) = (.ok (f a), s') := by
  unfold perform at h ⊢
  rw [respond, Site.perform_andThen]
  cases hp : s.site.perform p with
  | mk result site =>
    rw [hp] at h
    cases h
    rfl

/-- A message that arrives at an endpoint is served there, and an answer in JSON is what comes
back. -/
theorem post_eq {α β : Type} {send : Format α} {receive : Format β} {message : α} {reply : β}
    {remote : Remote} {path : String} {endpoint : Endpoint} (job : Option Job)
    (hreaches : Reaches remote path endpoint) (hwrite : endpoint.isRead = false)
    (hserve : ∀ url, s.perform (serve s.terms (Remote.request url send message) endpoint) =
      (.ok (.json 200 (receive.encode reply), job), s'))
    (hread : receive.decode (receive.encode reply) = .ok reply) :
    remote.post transport path send receive message s = (.ok reply, s'.leave job) := by
  obtain ⟨url, hurl, hpath⟩ := hreaches
  have htransport : transport (Remote.request url send message) s =
      (some (200, receive.encode reply), s'.leave job) := by
    rw [transport, http, handle_request hpath hwrite, hserve]
    rfl
  rw [Remote.post, hurl]
  dsimp only
  rw [htransport]
  dsimp only
  rw [readAnswer_json hread]

/-- A message that an endpoint refuses out of hand comes back as the status of the refusal, and
nothing has happened. -/
theorem post_refused {α β : Type} {send : Format α} {receive : Format β} {message : α}
    {remote : Remote} {path : String} {endpoint : Endpoint} (response : Response)
    (hreaches : Reaches remote path endpoint) (hwrite : endpoint.isRead = false)
    (hserve : ∀ url, serve s.terms (Remote.request url send message) endpoint =
      finalAnswer response)
    (hstatus : response.isSuccess = false) :
    remote.post transport path send receive message s =
      (.error (.protocol (.unexpectedStatus response.status response.body.text)), s) := by
  obtain ⟨url, hurl, hpath⟩ := hreaches
  have htransport : transport (Remote.request url send message) s =
      (some (response.status, response.body.text), s) := by
    rw [transport, http, handle_request hpath hwrite, hserve]
    rfl
  have hrange : ¬(200 ≤ response.status ∧ response.status < 300) := by
    simpa [Response.isSuccess] using hstatus
  rw [Remote.post, hurl]
  dsimp only
  rw [htransport]
  dsimp only
  rw [Remote.readAnswer, if_neg hrange]

variable {remote : Remote}

/-- A task that the server has for a worker, or the answer that it has none, is what a worker is
told over HTTP. -/
theorem httpPeer_getTask (hreaches : Reaches remote "/internal/task" .task)
    {request : TaskRequest} {reply : TaskReply} (h : s.getTask request = (.ok reply, s'))
    (hfits : Fits TaskRequest.format request)
    (hreply : TaskReply.format.decode (TaskReply.format.encode reply) = .ok reply) :
    (httpPeer remote).getTask request s = (.ok reply, s') := by
  rw [httpPeer, Remote.peer]
  refine post_eq none hreaches rfl (fun url => ?_) hreply
  rw [serve, giveTask, withContent, content_request hfits (request.keeps.decode_encode (by decide))]
  exact perform_respond _ h

/-- A worker whose request does not fit is refused, and no task is handed out. -/
theorem httpPeer_getTask_tooLong (hreaches : Reaches remote "/internal/task" .task)
    {request : TaskRequest} (h : ¬Fits TaskRequest.format request) (s : Server) :
    (httpPeer remote).getTask request s =
      (.error (.protocol (.unexpectedStatus 413 "content is too long")), s) := by
  rw [httpPeer, Remote.peer]
  refine post_refused (.plain 413 "content is too long") hreaches rfl (fun url => ?_) rfl
  rw [serve, giveTask, withContent, content_tooLong h]

/-- A submission over HTTP is acknowledged, or not, as it is directly, and leaves the same job. -/
theorem httpPeer_submit (hreaches : Reaches remote "/internal/task/result" .taskResult)
    {submission : Submission} {receipt : Receipt}
    (h : s.submitResult submission = (.ok receipt, s'))
    (hfits : Fits Submission.format submission)
    (hsubmission : Submission.format.decode (Submission.format.encode submission) =
      .ok submission) :
    (httpPeer remote).submit submission s = (.ok receipt, s') := by
  rw [submitResult] at h
  cases hperform : s.perform (Workers.takeResult submission) with
  | mk result s'' =>
    rw [hperform] at h
    cases result with
    | error e => cases h
    | ok pair =>
      cases h
      rw [httpPeer, Remote.peer]
      refine post_eq pair.2 hreaches rfl (fun url => ?_) (pair.1.keeps.decode_encode (by decide))
      rw [serve, takeResult, withContent, content_request hfits hsubmission]
      exact perform_respond _ hperform

/-! ## One iteration -/

/-- The store never fails to record an outcome. -/
theorem submitResult_ok (hquiet : s.site.outages.Quiet) (taskId : Int) (agent : String)
    (outcome : Outcome) :
    ∃ receipt s', s.submitResult ⟨taskId, agent, some outcome⟩ = (.ok receipt, s') := by
  have hof {result : Receipt × Option Job} {site : Site}
      (h : s.site.perform (Workers.takeResult ⟨taskId, agent, some outcome⟩) =
        (.ok result, site)) :
      ∃ receipt s', s.submitResult ⟨taskId, agent, some outcome⟩ = (.ok receipt, s') := by
    unfold submitResult perform
    rw [h]
    exact ⟨_, _, rfl⟩
  cases outcome with
  | result value =>
    obtain ⟨now, counted, site, -, -, hperform⟩ := Site.perform_answered
      (c := .completeTask taskId value)
      (fun counted => pure
        (Receipt.mk counted, if counted then some (Job.reschedule taskId) else none))
      hquiet fun now => ⟨_, _, rfl⟩
    exact hof hperform
  | error message =>
    obtain ⟨now, counted, site, -, -, hperform⟩ := Site.perform_answered (c := .failTask taskId)
      (fun counted => pure
        (Receipt.mk counted, if counted then some (Job.reschedule taskId) else none))
      hquiet fun now => ⟨_, _, rfl⟩
    exact hof hperform

/-- A worker that asks is given the task that waits longest. -/
theorem getTask_next (hquiet : s.site.outages.Quiet)
    (hread : ∀ r, s.site.store.next? = some r → ∃ k, r.read = .ok k) (request : TaskRequest) :
    ∃ reply s', s.getTask request = (.ok reply, s') ∧ s'.site.outages.Quiet ∧
      ∀ a, reply = .task a → ∃ r, s.site.store.next? = some r ∧ a.Shows r := by
  obtain ⟨-, hquiet'⟩ := Site.answer_quiet hquiet .lease False
  obtain ⟨⟨now, found, hreply, heq⟩ | ⟨e, -, -, hcause⟩, -⟩ := Site.answer_cases .lease s.site
  · refine ⟨offer s.terms found, { s with site := (s.site.answer .lease).2 }, ?_, hquiet', ?_⟩
    · rw [getTask_eq, hreply]
      cases found <;> rfl
    · obtain ⟨found', s', hlease, hfound⟩ := Store.lease_next hread now s.terms.times
      obtain rfl : found = found' := congrArg Prod.fst (Except.ok.inj (heq.symm.trans hlease))
      rintro a ha
      cases found with
      | none => cases ha
      | some k =>
        cases ha
        exact hfound k rfl
  · rcases hcause with hplanned | ⟨now, hrefused⟩
    · rw [(hquiet.next _).1] at hplanned
      cases hplanned
    · obtain ⟨found', s', hlease, -⟩ := Store.lease_next hread now s.terms.times
      cases hrefused.symm.trans hlease

/-- A worker over HTTP does in one iteration what a worker in the same process does: both have no
task, or have the same task and the same value or message for it, and they leave the same server
behind, with its rows and its counters.  The task that waits longest, if there is one, can be
sent, the floats that are sent for it read back, and the name of the worker leaves room for the
two messages that it sends (`fits_request_iff`, `fits_submission_iff`). -/
theorem runOnce_httpPeer (agent origin base : String)
    (hbase : ∀ c ∈ base.toList, c = '/') (hquiet : s.site.outages.Quiet)
    (hnext : ∀ r, s.site.store.next? = some r → r.Sendable)
    (hasks : Fits TaskRequest.format ⟨agent⟩)
    (hsubmits : ∀ r, s.site.store.next? = some r → Fits Submission.format (r.submission agent))
    (hback : ∀ r, s.site.store.next? = some r →
      ∀ x ∈ r.floats, x.isFinite = true → ReadsBack x) :
    ∃ iteration s', Agent.runOnce peer agent s = (.ok iteration, s') ∧
      Agent.runOnce (httpPeer (.behind origin base)) agent s = (.ok iteration, s') := by
  obtain ⟨reply, s1, hget, hquiet1, hreply⟩ :=
    getTask_next hquiet (fun r hr => (hnext r hr).read) ⟨agent⟩
  have hasked {depth : Nat} (h : TaskReply.format.Keeps depth reply)
      (hdepth : depth ≤ Json.Format.maxDepth) :=
    httpPeer_getTask (reaches_task hbase origin) hget hasks (h.decode_encode hdepth)
  cases reply with
  | noTask retryAfter =>
    have hget' := hasked (TaskReply.keeps ⟨nofun, nofun⟩ nofun) (by decide)
    have hlocal : Agent.runOnce peer agent s = _ := Agent.runOnce_noTask hget
    exact ⟨_, s1, hlocal, Agent.runOnce_noTask hget'⟩
  | task a =>
    obtain ⟨r, hr, hshows⟩ := hreply a rfl
    obtain ⟨receipt, s2, hsubmit⟩ := submitResult_ok hquiet1 a.id agent a.outcome
    have hget' := hasked (hshows.keeps_reply (hnext r hr) (hback r hr)) (by decide)
    have hkept := hshows.keeps_submission (hnext r hr) (hback r hr) agent
    have hfits : Fits Submission.format (a.submission agent) := by
      rw [hshows.submission]
      exact hsubmits r hr
    have hsubmit' := httpPeer_submit (reaches_taskResult hbase origin) hsubmit hfits
      (hkept.decode_encode (by decide))
    have hlocal : Agent.runOnce peer agent s = _ := Agent.runOnce_task hget hsubmit
    exact ⟨_, s2, hlocal, Agent.runOnce_task hget' hsubmit'⟩

/-- A server with a sum whose only operation waits. -/
def sumWaiting : Server :=
  { start .default ⟨.default, 5⟩ false with site := ⟨System.sumIssued [], Site.dawn, []⟩ }

theorem sumWaiting_httpPeer : ∃ s', Agent.runOnce peer "agent" sumWaiting =
      (.ok (.completed 1 3), s') ∧
    Agent.runOnce (httpPeer (.behind "http://127.0.0.1:8080" "/")) "agent" sumWaiting =
      (.ok (.completed 1 3), s') := by
  have hrow : ∀ r ∈ sumWaiting.site.store.next?,
      (∃ k ∈ r.read.toOption, r.read = .ok k) ∧ r.id = 1 ∧ r.operand1.isFinite = true ∧
        r.operand2.isFinite = true ∧ (∀ x ∈ r.floats, ReadsBack x) ∧
        (Submission.format.encode (r.submission "agent")).utf8ByteSize ≤ contentLimit := by
    decide
  have hasks : Fits TaskRequest.format ⟨"agent"⟩ := by
    unfold Fits
    decide
  have hvalue : (Agent.runOnce peer "agent" sumWaiting).1 = .ok (.completed 1 3) := by
    decide +kernel
  have hnext : ∀ r, sumWaiting.site.store.next? = some r → r.Sendable := by
    intro r hr
    obtain ⟨⟨k, -, hread⟩, hid, hleft, hright, -, -⟩ := hrow r hr
    exact ⟨⟨k, hread⟩, by rw [hid]; decide, hleft, hright⟩
  obtain ⟨iteration, s', hlocal, hremote⟩ := runOnce_httpPeer (s := sumWaiting) "agent"
    "http://127.0.0.1:8080" "/" (by simp) Outages.quiet_nil hnext hasks
    (fun r hr => (hrow r hr).2.2.2.2.2) fun r hr x hx _ => (hrow r hr).2.2.2.2.1 x hx
  rw [hlocal] at hvalue
  cases hvalue
  exact ⟨s', hlocal, hremote⟩

/-- In the same process nobody looks at the name of an agent. -/
theorem runOnce_peer_name (agent agent' : String) (s : Server) :
    Agent.runOnce peer agent s = Agent.runOnce peer agent' s := rfl

theorem utf8Len_replicate (n : Nat) (c : Char) : utf8Len (List.replicate n c) = n * c.utf8Size := by
  induction n with
  | zero => rw [Nat.zero_mul]; rfl
  | succ n ih => rw [List.replicate_succ, utf8Len_cons, ih, Nat.succ_mul]

/-- A name that alone is as long as a request may be. -/
def longName : String := String.ofList (List.replicate contentLimit 'a')

/-- In the same process an agent with the long name completes the task.  Over HTTP it is refused,
and the server is as it was before. -/
theorem longName_refused :
    (Agent.runOnce peer longName sumWaiting).1 = .ok (.completed 1 3) ∧
      Agent.runOnce (httpPeer (.behind "http://127.0.0.1:8080" "/")) longName sumWaiting =
        (.error (.protocol (.unexpectedStatus 413 "content is too long")), sumWaiting) := by
  have hsize : longName.utf8ByteSize = contentLimit := by
    rw [longName, String.utf8ByteSize_ofList, utf8Len_replicate]
    exact Nat.mul_one _
  have hescaped : longName.utf8ByteSize ≤ nameSize longName := by
    rw [← String.utf8Len_toList]
    exact utf8Len_le_escaped _
  have hlong : ¬Fits TaskRequest.format ⟨longName⟩ := by
    rw [fits_request_iff]
    omega
  have hlocal : (Agent.runOnce peer "agent" sumWaiting).1 = .ok (.completed 1 3) := by
    decide +kernel
  have hsame := runOnce_peer_name longName "agent" sumWaiting
  have hbase : ∀ c ∈ "/".toList, c = '/' := by simp
  have hremote := httpPeer_getTask_tooLong (reaches_task hbase "http://127.0.0.1:8080") hlong
    sumWaiting
  exact ⟨(congrArg Prod.fst hsame).trans hlocal, Agent.runOnce_failed hremote⟩

end Server

end Piecework
