import Piecework.Http.MediaType
import Piecework.Http.Message
import Piecework.Http.Percent
import Piecework.Server.Service

/-!
# Endpoints

What the server answers to an HTTP request.  Workers fetch and submit tasks under
`/internal`; clients submit and look up expressions under `/api/v1` and say in a
header who they are.  The content of a request is read before its sender is looked
at.
-/

namespace Piecework

open Http Json

/-- What can be found on the server. -/
inductive Endpoint where
  | health
  | task
  | taskResult
  | calculate
  | expressions
  /-- One expression; the part of the path that names it is not looked into yet. -/
  | expression (part : String)
deriving DecidableEq, Repr

namespace Endpoint

/-- The part of a path behind the list of expressions, if it is one part. -/
def expressionPart? (path : String) : Option String :=
  let base := "/api/v1/expressions/".toList
  let cs := path.toList
  let part := cs.drop base.length
  if cs.take base.length = base ∧ part ≠ [] ∧ !part.contains '/' then some (String.ofList part)
  else none

/-- The endpoint of a path. -/
def ofPath? (path : String) : Option Endpoint :=
  match path with
  | "/health" => some health
  | "/internal/task" => some task
  | "/internal/task/result" => some taskResult
  | "/api/v1/calculate" => some calculate
  | "/api/v1/expressions" => some expressions
  | path => (expressionPart? path).map expression

/-- Whether the endpoint is read from; the others take content. -/
def isRead : Endpoint → Bool
  | health | expressions | expression _ => true
  | task | taskResult | calculate => false

/-- The methods of an endpoint, as a header lists them. -/
def allowed (e : Endpoint) : String :=
  if e.isRead then "GET,HEAD" else "POST"

end Endpoint

namespace Server

/-- The header that says whose expressions a request is about. -/
def ownerHeader : String := "x-owner-id"

/-- The owner that a request names. -/
def owner? (r : Request) : Option String :=
  ((r.header? ownerHeader).map Text.trimText).filter fun owner => !owner.isEmpty

/-- An answer, and the work that it leaves behind. -/
abbrev Answer := Response × Option Job

/-- A handler never fails: failures are answers too. -/
abbrev Handler := Program Empty Answer

/-- A response in JSON with its members in alphabetical order. -/
def jsonResponse (status : Nat) (v : Value) : Response :=
  .json status v.sorted.toText

/-- A refusal and its reason. -/
def refusal (status : Nat) (reason : String) : Response :=
  jsonResponse status (.object [("error", .text reason)])

/-- The answer to a failure.  What happened inside the store is not told. -/
def failure : Error → Response
  | .protocol e => refusal 400 e.message
  | .notFound entity id => refusal 404 (Error.notFound entity id).message
  | .store _ | .parse _ => refusal 500 "internal error"

/-- Runs a program and answers with what it gives, or with its failure. -/
def respond (p : Program Error α) (f : α → Answer) : Handler :=
  p.andThen fun
    | .ok a => pure (f a)
    | .error e => pure (failure e, none)

/-- An answer that leaves no work behind. -/
def finalAnswer (r : Response) : Handler := pure (r, none)

/-- The octets that a request may carry: two megabytes. -/
def contentLimit : Nat := 2 * 1024 * 1024

/-- Reads the content of a request.  Content of another type, content that is too
long, content that is not JSON and JSON of another shape are refused in different
ways, the first two without a look at the content.  The statuses are those of the
framework; the words for the reasons are not. -/
def content (format : Format α) (r : Request) : Except Response α :=
  match (r.header? "content-type").bind MediaType.ofText? with
  | none => .error (.plain 415 "expected JSON content")
  | some m =>
    if m.isJson then
      if contentLimit < r.body.size then .error (.plain 413 "content is too long")
      else
        match format.decodeOctets r.body with
        | .ok a => .ok a
        | .error .notJson => .error (.plain 400 "content is not JSON")
        | .error .otherShape => .error (.plain 422 "content has another shape")
    else .error (.plain 415 "expected JSON content")

/-- Goes on with the content of a request. -/
def withContent (format : Format α) (r : Request) (f : α → Handler) : Handler :=
  match content format r with
  | .ok a => f a
  | .error response => finalAnswer response

/-- Goes on with the owner that a request names. -/
def withOwner (r : Request) (f : String → Handler) : Handler :=
  match owner? r with
  | some owner => f owner
  | none => finalAnswer (refusal 401 "missing owner id")

/-- The server is there. -/
def health : Response :=
  jsonResponse 200 (.object [("service", .text "calc-orchestrator"), ("status", .text "ok")])

/-- Gives a worker a task. -/
def giveTask (terms : WorkerTerms) (r : Request) : Handler :=
  withContent TaskRequest.format r fun _ =>
    respond (Workers.giveTask terms) fun reply =>
      (.json 200 (TaskReply.format.encode reply), none)

/-- Takes the outcome of a task. -/
def takeResult (r : Request) : Handler :=
  withContent Submission.format r fun submission =>
    respond (Workers.takeResult submission) fun (receipt, job) =>
      (.json 200 (Receipt.format.encode receipt), job)

/-- Takes an expression. -/
def calculate (r : Request) : Handler :=
  withContent CalculationRequest.format r fun request =>
    withOwner r fun owner =>
      if Text.blankText request.expression then
        finalAnswer (refusal 422 "expression must not be empty")
      else
        respond (Clients.submit owner request.expression) fun (id, job) =>
          (jsonResponse 201 (.object [("id", .integer id)]), some job)

/-- Lists the expressions of an owner. -/
def listExpressions (r : Request) : Handler :=
  withOwner r fun owner =>
    respond (Clients.list owner) fun expressions =>
      (jsonResponse 200 (.object
        [("expressions", .array (expressions.map Expression.format.write))]), none)

/-- Looks up one expression of an owner. -/
def getExpression (part : String) (r : Request) : Handler :=
  match identifier? part with
  | none => finalAnswer (.plain 400 "expected an identifier")
  | some id =>
    withOwner r fun owner =>
      respond (Clients.get id owner) fun
        | some e => (jsonResponse 200 (.object [("expression", Expression.format.write e)]), none)
        | none => (refusal 404 "expression not found", none)

/-- Carries out a request on an endpoint. -/
def serve (terms : WorkerTerms) (r : Request) : Endpoint → Handler
  | .health => finalAnswer health
  | .task => giveTask terms r
  | .taskResult => takeResult r
  | .calculate => calculate r
  | .expressions => listExpressions r
  | .expression part => getExpression part r

/-- Carries out a request, if its method is one of the endpoint. -/
def dispatch (terms : WorkerTerms) (r : Request) (e : Endpoint) : Handler :=
  if e.isRead then
    if r.method = "GET" then serve terms r e
    else if r.method = "HEAD" then
      (serve terms r e).bind fun (response, job) => pure (response.head, job)
    else finalAnswer { Response.ofStatus 405 with allow := some e.allowed }
  else
    if r.method = "POST" then serve terms r e
    else finalAnswer { Response.ofStatus 405 with allow := some e.allowed }

/-- Answers a request.  The question which methods are allowed from elsewhere is
answered the same way everywhere. -/
def handle (terms : WorkerTerms) (r : Request) : Handler :=
  if r.method = "OPTIONS" then finalAnswer (.ofStatus 200)
  else
    match Endpoint.ofPath? r.path with
    | none => finalAnswer (.ofStatus 404)
    | some e => dispatch terms r e

end Server

end Piecework
