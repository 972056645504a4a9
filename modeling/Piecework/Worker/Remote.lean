import Piecework.Http.Message
import Piecework.Http.Url
import Piecework.Settings
import Piecework.Worker.Agent

/-!
# Remote peers

An agent that reaches its server over HTTP.  Requests and answers are the messages
in JSON; whatever cannot be sent, is refused, or does not read is a protocol error.
-/

namespace Piecework

open Http Json

/-- Where a server is reached: the origin and the path in front of its endpoints,
which does not end in a slash. -/
structure Remote where
  origin : String
  base : String
deriving DecidableEq, Repr

/-- What carries a request to a server: a status and a content come back, or nothing
when nobody listens. -/
abbrev Transport (σ : Type) := Request → σ → Option (Nat × String) × σ

namespace Remote

/-- The server at an origin, behind a path. -/
def behind (origin path : String) : Remote := ⟨origin, trimSlashes path⟩

/-- The URL of an endpoint, if the base leaves the origin intact. -/
def url? (r : Remote) (path : String) : Option Url := Url.ofText? r.origin (r.base ++ path)

/-- The request that carries a message. -/
def request (url : Url) (format : Format α) (message : α) : Request :=
  ⟨"POST", url.target, [("content-type", "application/json")], format.encode message⟩

/-- What an answer says. -/
def readAnswer (format : Format β) (status : Nat) (content : String) : Except Error β :=
  if 200 ≤ status ∧ status < 300 then
    match format.decode content with
    | .ok b => .ok b
    | .error _ => .error (.protocol (.transport "error decoding response body"))
  else
    .error (.protocol (.unexpectedStatus status content))

/-- Sends a message and reads the answer. -/
def post (r : Remote) (transport : Transport σ) (path : String) (send : Format α)
    (receive : Format β) (message : α) (s : σ) : Except Error β × σ :=
  match r.url? path with
  | none => (.error (.protocol (.transport "builder error")), s)
  | some url =>
    match transport (request url send message) s with
    | (none, s) =>
      let cause := "error sending request for url (" ++ url.text ++ ")"
      (.error (.protocol (.transport cause)), s)
    | (some (status, content), s) => (readAnswer receive status content, s)

/-- The peer behind a transport. -/
def peer (r : Remote) (transport : Transport σ) (wait : Nat → σ → σ) (stopped : σ → Bool) :
    Peer σ where
  getTask := r.post transport "/internal/task" TaskRequest.format TaskReply.format
  submit := r.post transport "/internal/task/result" Submission.format Receipt.format
  wait := wait
  stopped := stopped

/-- A transport that reaches nobody. -/
def nobody : Transport σ := fun _ s => (none, s)

end Remote

end Piecework
