import Piecework.Http.Target

/-!
# HTTP messages

Requests and responses, as far as anybody looks at them.  What a request carries need
not be a text; a text is carried in UTF-8.
-/

namespace Piecework.Http

instance utf8 : Coe String ByteArray := ⟨String.toUTF8⟩

/-- A request.  The target is a path with everything around it. -/
structure Request where
  method : String
  target : String
  headers : List (String × String)
  body : ByteArray

/-- What a response carries. -/
inductive Body where
  | empty
  | json (text : String)
  | plain (text : String)
deriving DecidableEq, Repr

/-- The content as it is sent. -/
def Body.text : Body → String
  | empty => ""
  | json text | plain text => text

/-- A response.  Every response may be read by pages of any origin. -/
structure Response where
  status : Nat
  /-- The type of the content, which is also given when only the head is sent. -/
  contentType : Option String
  /-- The methods that the target does allow, if the one asked for is not. -/
  allow : Option String
  body : Body
deriving DecidableEq, Repr

/-- The text of an ASCII string in lower case, for names that are compared without
regard to case. -/
def lowerCase (s : String) : String :=
  String.ofList (s.toList.map Char.toLower)

/-- Characters that a header value may hold to count as text: visible ASCII, the
space and the tab. -/
def isHeaderText (c : Char) : Bool :=
  (0x20 ≤ c.toNat && c.toNat < 0x7F) || c == '\t'

namespace Request

/-- The first header of a name, whatever its case, if its value is text. -/
def header? (r : Request) (name : String) : Option String :=
  match r.headers.find? fun h => lowerCase h.1 == name with
  | some (_, value) => if value.toList.all isHeaderText then some value else none
  | none => none

/-- The path of the target. -/
def path (r : Request) : String := Target.path r.target

end Request

namespace Response

/-- A response without content. -/
def ofStatus (status : Nat) : Response := ⟨status, none, none, .empty⟩

/-- A response in JSON. -/
def json (status : Nat) (text : String) : Response :=
  ⟨status, some "application/json", none, .json text⟩

/-- A response in plain text. -/
def plain (status : Nat) (text : String) : Response :=
  ⟨status, some "text/plain; charset=utf-8", none, .plain text⟩

/-- The head of a response, without its content. -/
def head (r : Response) : Response := { r with body := .empty }

/-- Whether the request was carried out. -/
def isSuccess (r : Response) : Bool := 200 ≤ r.status && r.status < 300

end Response

end Piecework.Http
