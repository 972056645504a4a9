import Piecework.Http.Percent
import Piecework.Http.Target

/-!
# URLs

An origin, that is a scheme and a host with a port, and what follows it: a path, a
query and a fragment.  The parts are kept in their normal form.  Tabs and line breaks
are dropped, a backslash separates the parts of a path as a slash does, `.` and `..`
are carried out, and characters that may not stand in a part are encoded.
-/

namespace Piecework.Http

/-- A URL in its normal form. -/
structure Url where
  origin : String
  /-- The parts between the slashes, at least one. -/
  path : List String
  query : Option String
  fragment : Option String
deriving DecidableEq, Repr

namespace Url

/-- The characters that are dropped wherever they stand. -/
def isDropped (c : Char) : Bool := c == '\t' || c == '\n' || c == '\r'

/-- Whether a character separates the parts of a path. -/
def isSeparator (c : Char) : Bool := c == '/' || c == '\\'

/-! ## Paths -/

/-- What a part of a path stands for. -/
inductive Part where
  /-- The place where it stands. -/
  | here
  /-- The place above. -/
  | above
  | named (name : String)
deriving DecidableEq, Repr

/-- The part without its encoded points. -/
def withPoints : List Char → List Char
  | '%' :: '2' :: c :: rest =>
    if c = 'e' ∨ c = 'E' then '.' :: withPoints rest else '%' :: '2' :: c :: withPoints rest
  | c :: rest => c :: withPoints rest
  | [] => []

/-- What a part of a path stands for, by its characters. -/
def Part.ofChars (cs : List Char) : Part :=
  match withPoints cs with
  | ['.'] => .here
  | ['.', '.'] => .above
  | _ => .named (encode isPathChar cs)

/-- The parts of a path, at least one. -/
def splitPath : List Char → List (List Char)
  | [] => [[]]
  | c :: rest =>
    if isSeparator c then [] :: splitPath rest
    else
      match splitPath rest with
      | part :: parts => (c :: part) :: parts
      | [] => [[c]]

/-- Whether a part is the name of a disk, which `..` does not take back. -/
def isDisk (part : String) : Bool :=
  match part.toList with
  | [letter, mark] => letter.isAlpha && (mark == ':' || mark == '|')
  | _ => false

/-- The place above, from the innermost part outwards. -/
def leave : List String → List String
  | [] => []
  | part :: outer => if isDisk part then part :: outer else outer

/-- Carries out the parts of a path, behind those that are there already, the
innermost first.  A path that ends in a direction ends in an empty part. -/
def follow (done : List String) : List Part → List String
  | [] => done.reverse
  | [.here] => ("" :: done).reverse
  | [.above] => ("" :: leave done).reverse
  | .here :: rest => follow done rest
  | .above :: rest => follow (leave done) rest
  | .named name :: rest => follow (name :: done) rest

/-- The normal form of a path behind an origin. -/
def pathOf (cs : List Char) : List String :=
  let cs := match cs with
    | c :: rest => if isSeparator c then rest else cs
    | [] => []
  follow [] ((splitPath cs).map Part.ofChars)

/-! ## Hosts -/

/-- Whether a text is the plain name of a host, whose last part is no number. -/
def isHostName (cs : List Char) : Bool :=
  cs.all (fun c => c.isAlphanum || c == '-' || c == '.') &&
    ((cs.reverse.takeWhile (· != '.')).getLast?.any Char.isAlpha)

/-- The origin when something stands between an origin and a path.  What ends in an
`@` is taken for the name of a user, and a host follows it; anything else spoils the
port. -/
def originWith? (origin : String) (cs : List Char) : Option String :=
  if cs = [] then some origin
  else
    let host := (cs.reverse.takeWhile (· != '@')).reverse
    if cs.contains '@' && isHostName host then
      some ("http://" ++ String.ofList (host.map Char.toLower))
    else none

/-! ## Whole URLs -/

/-- What stands behind a mark, if it is there. -/
def behind? (mark : Char) (cs : List Char) : Option (List Char) :=
  match cs.dropWhile (· != mark) with
  | _ :: rest => some rest
  | [] => none

/-- The URL of an origin that ends in a port, and of what follows it. -/
def ofText? (origin rest : String) : Option Url :=
  let cs := rest.toList.filter fun c => !isDropped c
  let ends (c : Char) : Bool := isSeparator c || Target.endsPath c
  match originWith? origin (cs.takeWhile fun c => !ends c) with
  | none => none
  | some origin =>
    let located := cs.dropWhile fun c => !ends c
    let unmarked := located.takeWhile (· != '#')
    some {
      origin
      path := pathOf (Target.untilQuery located)
      query := (behind? '?' unmarked).map (encode isQueryChar)
      fragment := (behind? '#' located).map (encode isFragmentChar) }

/-- What a request for the URL is for: its path and its query. -/
def target (u : Url) : String :=
  "/" ++ String.intercalate "/" u.path ++ (u.query.map ("?" ++ ·)).getD ""

/-- The text of a URL. -/
def text (u : Url) : String :=
  u.origin ++ u.target ++ (u.fragment.map ("#" ++ ·)).getD ""

end Url

end Piecework.Http
