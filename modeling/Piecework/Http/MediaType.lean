/-!
# Media types

The type of a content as a header names it: two tokens with a slash between them and
parameters behind semicolons.  The subtype may end in a suffix behind a plus.
-/

namespace Piecework.Http

/-- A media type, in lower case.  The subtype is given without its suffix. -/
structure MediaType where
  main : String
  subtype : String
  suffix : Option String
deriving DecidableEq, Repr

namespace MediaType

/-- The characters of a token. -/
def isTokenChar (c : Char) : Bool :=
  c.isAlphanum || ['!', '#', '$', '%', '&', '\'', '*', '+', '-', '.', '^', '_', '\x60', '|',
    '~'].contains c

/-- A token in front of a text, and what follows it. -/
def token (cs : List Char) : List Char × List Char :=
  (cs.takeWhile isTokenChar, cs.dropWhile isTokenChar)

/-- What is being read of the parameters. -/
inductive ParameterState where
  /-- Behind a semicolon; spaces may come before the name. -/
  | start
  | name
  /-- Behind the equals sign. -/
  | equals
  | value
  /-- Behind the opening quote.  Whatever comes first belongs to the value. -/
  | openQuote
  | quoted
  /-- Behind the closing quote. -/
  | closed
deriving DecidableEq, Repr

namespace ParameterState

/-- Characters that may stand between quotes. -/
def isQuotable (c : Char) : Bool := 0x20 ≤ c.toNat && c.toNat != 0x7F

/-- The next state, unless the character is out of place. -/
def step : ParameterState → Char → Option ParameterState
  | start, c => if c = ' ' then some start else if isTokenChar c then some name else none
  | name, c => if c = '=' then some equals else if isTokenChar c then some name else none
  | equals, c => if c = '"' then some openQuote else if isTokenChar c then some value else none
  | value, c => if c = ';' then some start else if isTokenChar c then some value else none
  | openQuote, c => if isQuotable c then some quoted else none
  | quoted, c => if c = '"' then some closed else if isQuotable c then some quoted else none
  | closed, c => if c = ';' then some start else if c = ' ' then some closed else none

/-- Whether the text may end here. -/
def mayEnd : ParameterState → Bool
  | start | equals | value | closed => true
  | name | openQuote | quoted => false

/-- Whether a text is a list of parameters from here on. -/
def accepts : ParameterState → List Char → Bool
  | s, [] => s.mayEnd
  | s, c :: rest =>
    match s.step c with
    | some s' => s'.accepts rest
    | none => false

end ParameterState

/-- Splits a suffix from a subtype, at the last plus that is not its first character. -/
def splitSuffix (cs : List Char) : List Char × Option (List Char) :=
  let suffix := cs.reverse.takeWhile (· != '+')
  let base := (cs.reverse.dropWhile (· != '+')).drop 1
  if suffix.length = cs.length ∨ base.isEmpty then (cs, none)
  else (base.reverse, some suffix.reverse)

/-- A string of characters in lower case. -/
def lower (cs : List Char) : String := String.ofList (cs.map Char.toLower)

/-- The media type that a text names. -/
def ofText? (s : String) : Option MediaType :=
  let (main, rest) := token s.toList
  match main, rest with
  | [], _ => none
  | _, '/' :: rest =>
    let (subtype, rest) := token rest
    let (base, suffix) := splitSuffix subtype
    let result : MediaType := ⟨lower main, lower base, suffix.map lower⟩
    match rest with
    | [] => some result
    | ';' :: parameters =>
      if subtype.isEmpty ∨ !ParameterState.start.accepts parameters then none else some result
    | _ => none
  | _, _ => none

/-- Whether the content is JSON, by its subtype or by its suffix. -/
def isJson (m : MediaType) : Bool :=
  m.main == "application" && (m.subtype == "json" || m.suffix == some "json")

end MediaType

end Piecework.Http
