/-!
# Targets

What a request is for: a path, perhaps with a query and a fragment behind it and with
a scheme and a host in front of it.  A server looks at the path alone.
-/

namespace Piecework.Http.Target

/-- Whether a character ends a path. -/
def endsPath (c : Char) : Bool := c == '?' || c == '#'

/-- All in front of a query or a fragment. -/
def untilQuery (cs : List Char) : List Char := cs.takeWhile fun c => !endsPath c

/-- Whether a character may stand in the name of a scheme. -/
def isSchemeChar (c : Char) : Bool :=
  c.isAlphanum || c == '+' || c == '-' || c == '.'

/-- What follows a scheme, if there is one. -/
def behindScheme? (cs : List Char) : Option (List Char) :=
  match cs.dropWhile isSchemeChar with
  | ':' :: '/' :: '/' :: rest => some rest
  | _ => none

/-- The path behind a host.  It has at least a slash. -/
def behindHost (cs : List Char) : List Char :=
  match untilQuery (cs.dropWhile fun c => !(c == '/' || endsPath c)) with
  | [] => ['/']
  | path => path

/-- The path of a target.  The star stands for the server as a whole, and a host
without a scheme has no path. -/
def pathOf (cs : List Char) : List Char :=
  match cs with
  | ['*'] => ['*']
  | '/' :: _ => untilQuery cs
  | _ =>
    match behindScheme? cs with
    | some rest => behindHost rest
    | none => []

/-- `pathOf` on strings. -/
def path (target : String) : String := String.ofList (pathOf target.toList)

end Piecework.Http.Target
