import Piecework.Decimal.Reading

/-!
# JSON tokens

The tokens of a text, found one character at a time.  The state says what the
token under way is; each character moves to the next state and may complete
tokens.  A text that breaks the rules ends in the token `fault`, and what follows
is not looked at.

A `\u` escape may stand for half of a character that needs two of them.  A text
with a half on its own is a token of its own kind: it may be skipped, but it has no
value.  Octets that are not UTF-8 are treated alike: in a quoted text they take its
value away, and nowhere else may they stand.

Of a number no more digits are kept than fit into a word of 64 bits.  In front of the
point each digit behind those counts as a power of ten; behind the point such digits
say nothing.
-/

namespace Piecework.Json

/-- A number as far as it is kept: `± digits · 10 ^ exponent`. -/
structure Number where
  negative : Bool
  digits : Nat
  exponent : Int
  /-- Written with neither a point nor an exponent, and kept with all its digits. -/
  integral : Bool
deriving DecidableEq, Repr

namespace Number

/-- The float of the number. -/
def value (n : Number) : Float :=
  let magnitude := Decimal.scaled n.digits n.exponent
  if n.negative then -magnitude else magnitude

/-- The integer that is written, if all of it was kept.  A zero with a minus is none. -/
def integer? (n : Number) : Option Int :=
  if n.integral ∧ ¬(n.negative ∧ n.digits = 0) then
    some (if n.negative then -n.digits else n.digits)
  else
    none

end Number

/-- The smallest parts of a JSON text. -/
inductive Token where
  | beginArray
  | endArray
  | beginObject
  | endObject
  | colon
  | comma
  | null
  | bool (b : Bool)
  | number (n : Number)
  /-- A quoted text, without a value if half of a character stands on its own. -/
  | text (s : Option String)
  /-- Here the text stops being JSON. -/
  | fault
deriving DecidableEq, Repr

namespace Token

/-! ## Quoted texts -/

/-- A quoted text under way: its characters, newest first, unless one is already
spoiled, and the first half of a character that waits for its second. -/
structure Quote where
  chars : Option (List Char)
  half : Option Nat
deriving DecidableEq, Repr

namespace Quote

/-- A text of which nothing was read. -/
def start : Quote := ⟨some [], none⟩

/-- Adds a character.  A half that waits is lost. -/
def push (q : Quote) (c : Char) : Quote :=
  match q.half with
  | none => ⟨q.chars.map (c :: ·), none⟩
  | some _ => ⟨none, none⟩

/-- Adds the character of a `\u` escape, or half of one. -/
def pushCode (q : Quote) (code : Nat) : Quote :=
  if 0xD800 ≤ code ∧ code < 0xDC00 then
    match q.half with
    | none => ⟨q.chars, some code⟩
    | some _ => ⟨none, some code⟩
  else if 0xDC00 ≤ code ∧ code < 0xE000 then
    match q.half with
    | none => ⟨none, none⟩
    | some first =>
      ⟨q.chars.map (Char.ofNat (0x10000 + (first - 0xD800) * 0x400 + (code - 0xDC00)) :: ·), none⟩
  else
    q.push (Char.ofNat code)

/-- The finished text. -/
def token (q : Quote) : Token :=
  match q.half with
  | none => .text (q.chars.map fun cs => String.ofList cs.reverse)
  | some _ => .text none

end Quote

/-- The character that a short escape stands for. -/
def unescape : Char → Option Char
  | '"' => some '"'
  | '\\' => some '\\'
  | '/' => some '/'
  | 'b' => some '\x08'
  | 'f' => some '\x0c'
  | 'n' => some '\n'
  | 'r' => some '\r'
  | 't' => some '\t'
  | _ => none

/-- The value of a hexadecimal digit, in either case. -/
def hexValue? (c : Char) : Option Nat :=
  if '0' ≤ c ∧ c ≤ '9' then some (c.toNat - '0'.toNat)
  else if 'a' ≤ c ∧ c ≤ 'f' then some (c.toNat - 'a'.toNat + 10)
  else if 'A' ≤ c ∧ c ≤ 'F' then some (c.toNat - 'A'.toNat + 10)
  else none

/-! ## Numbers -/

/-- How far a number has been read. -/
inductive Phase where
  /-- Behind the minus. -/
  | minus
  /-- Behind a leading zero, which no digit may follow. -/
  | zero
  | whole
  /-- Behind the point. -/
  | point
  | fraction
  /-- Behind the letter of the exponent. -/
  | mark
  /-- Behind the sign of the exponent. -/
  | sign
  | exponent
deriving DecidableEq, Repr

/-- A number under way. -/
structure Digits where
  phase : Phase
  negative : Bool
  /-- The digits that are kept. -/
  digits : Nat
  /-- Digits in front of the point that are not kept. -/
  excess : Nat
  /-- Digits behind the point that are kept. -/
  places : Nat
  /-- A digit behind the point was not kept. -/
  full : Bool
  exponentNegative : Bool
  exponent : Nat
deriving DecidableEq, Repr

/-- What a character does to a number under way. -/
inductive Progress where
  | more (n : Digits)
  /-- The number was complete before the character. -/
  | over
  | fault

namespace Digits

/-- A number of which nothing was read but perhaps a minus. -/
def start (negative : Bool) : Digits := ⟨.minus, negative, 0, 0, 0, false, false, 0⟩

/-- Whether a word has room for one more digit. -/
def fits (n : Digits) (d : Nat) : Bool := 10 * n.digits + d < UInt64.size

/-- Adds a digit in front of the point.  Behind one that is not kept none is kept. -/
def pushWhole (n : Digits) (d : Nat) : Digits :=
  if n.excess = 0 ∧ n.fits d then { n with phase := .whole, digits := 10 * n.digits + d }
  else { n with phase := .whole, excess := n.excess + 1 }

/-- Adds a digit behind the point.  Behind one that is not kept none is kept. -/
def pushFraction (n : Digits) (d : Nat) : Digits :=
  if ¬n.full ∧ n.fits d then
    { n with phase := .fraction, digits := 10 * n.digits + d, places := n.places + 1 }
  else { n with phase := .fraction, full := true }

/-- Adds a digit to the exponent. -/
def pushExponent (n : Digits) (d : Nat) : Digits :=
  { n with phase := .exponent, exponent := 10 * n.exponent + d }

/-- Moves to another phase. -/
def enter (n : Digits) (phase : Phase) : Digits := { n with phase }

/-- Behind the digits of the whole part: a point, an exponent, or the end. -/
def behindWhole (n : Digits) (c : Char) : Progress :=
  if c = '.' then .more (n.enter .point)
  else if c = 'e' ∨ c = 'E' then .more (n.enter .mark)
  else .over

/-- What the next character does to the number. -/
def step (n : Digits) (c : Char) : Progress :=
  match n.phase, Text.digit? c with
  | .minus, some 0 => .more (n.enter .zero)
  | .minus, some d => .more (n.pushWhole d)
  | .minus, none => .fault
  | .zero, some _ => .fault
  | .zero, none => n.behindWhole c
  | .whole, some d => .more (n.pushWhole d)
  | .whole, none => n.behindWhole c
  | .point, some d => .more (n.pushFraction d)
  | .point, none => .fault
  | .fraction, some d => .more (n.pushFraction d)
  | .fraction, none => if c = 'e' ∨ c = 'E' then .more (n.enter .mark) else .over
  | .mark, some d => .more (n.pushExponent d)
  | .mark, none =>
    if c = '+' then .more (n.enter .sign)
    else if c = '-' then .more { n with phase := .sign, exponentNegative := true }
    else .fault
  | .sign, some d => .more (n.pushExponent d)
  | .sign, none => .fault
  | .exponent, some d => .more (n.pushExponent d)
  | .exponent, none => .over

/-- The number that was read. -/
def number (n : Digits) : Number where
  negative := n.negative
  digits := n.digits
  exponent :=
    (if n.exponentNegative then -(n.exponent : Int) else n.exponent) + n.excess - n.places
  integral := (n.phase = .zero ∨ n.phase = .whole) ∧ n.excess = 0

/-- The token of a number at the end of the text. -/
def token (n : Digits) : Token :=
  match n.phase with
  | .zero | .whole | .fraction | .exponent => .number n.number
  | .minus | .point | .mark | .sign => .fault

end Digits

/-! ## The scanner -/

/-- What is being read. -/
inductive State where
  /-- Nothing: the next character starts a token. -/
  | between
  /-- A word, of which these characters are still to come. -/
  | word (left : List Char) (token : Token)
  | quote (q : Quote)
  /-- Behind a backslash. -/
  | escape (q : Quote)
  /-- Inside a `\u` escape: the digits still to come and the code so far. -/
  | code (q : Quote) (left : Nat) (value : Nat)
  | number (n : Digits)
  | failed
deriving DecidableEq, Repr

/-- The characters that may stand between tokens. -/
def isSpace (c : Char) : Bool :=
  c == ' ' || c == '\t' || c == '\n' || c == '\r'

/-- The token of a punctuation mark. -/
def punctuation? : Char → Option Token
  | '[' => some .beginArray
  | ']' => some .endArray
  | '\x7b' => some .beginObject
  | '\x7d' => some .endObject
  | ':' => some .colon
  | ',' => some .comma
  | _ => none

namespace State

/-- The state in which nothing more is read, and the token that says so. -/
def fail : State × List Token := (.failed, [.fault])

/-- The first character of a token. -/
def first (c : Char) : State × List Token :=
  if isSpace c then (.between, [])
  else
    match punctuation? c with
    | some token => (.between, [token])
    | none =>
      if c = '"' then (.quote .start, [])
      else if c = 't' then (.word ['r', 'u', 'e'] (.bool true), [])
      else if c = 'f' then (.word ['a', 'l', 's', 'e'] (.bool false), [])
      else if c = 'n' then (.word ['u', 'l', 'l'] .null, [])
      else if c = '-' then (.number (.start true), [])
      else
        match (Digits.start false).step c with
        | .more n => (.number n, [])
        | .over | .fault => fail

/-- A character in any state: the next state and the tokens that it completes. -/
def step : State → Char → State × List Token
  | between, c => first c
  | word [] _, _ => fail
  | word [last] token, c => if c = last then (between, [token]) else fail
  | word (next :: left) token, c => if c = next then (word left token, []) else fail
  | quote q, c =>
    if c = '"' then (between, [q.token])
    else if c = '\\' then (escape q, [])
    else if c.toNat < 0x20 then fail
    else (quote (q.push c), [])
  | escape q, c =>
    if c = 'u' then (code q 4 0, [])
    else
      match unescape c with
      | some x => (quote (q.push x), [])
      | none => fail
  | code q left value, c =>
    match hexValue? c with
    | none => fail
    | some d =>
      if left ≤ 1 then (quote (q.pushCode (16 * value + d)), [])
      else (code q (left - 1) (16 * value + d), [])
  | number n, c =>
    match n.step c with
    | .more n => (number n, [])
    | .fault => fail
    | .over =>
      let (next, tokens) := first c
      (next, .number n.number :: tokens)
  | failed, _ => (failed, [])

/-- The tokens that the end of the text completes. -/
def finish : State → List Token
  | between | failed => []
  | number n => [n.token]
  | word .. | quote _ | escape _ | code .. => [.fault]

/-- The tokens of a text, from a state on. -/
def run : State → List Char → List Token
  | s, [] => s.finish
  | s, c :: rest => (s.step c).2 ++ run (s.step c).1 rest

end State

/-- The tokens of a text. -/
def ofChars (cs : List Char) : List Token :=
  State.between.run cs

/-! ## Octets -/

/-- The pieces of a text in octets, from an index on: its characters in UTF-8, and
`none` for an octet that begins no character. -/
def piecesFrom (octets : ByteArray) (i : Nat) : List (Option Char) :=
  if i < octets.size then
    match octets.utf8DecodeChar? i with
    | some c => some c :: piecesFrom octets (i + c.utf8Size)
    | none => none :: piecesFrom octets (i + 1)
  else []
termination_by octets.size - i
decreasing_by
  · have := c.utf8Size_pos
    omega
  · omega

namespace State

/-- A piece in any state.  Only a quoted text goes on behind a stray octet; anywhere
else it is as wrong as any other character that no token has. -/
def stepPiece : State → Option Char → State × List Token
  | s, some c => s.step c
  | quote _, none => (quote ⟨none, none⟩, [])
  | s, none => s.step '\uFFFD'

/-- The tokens of pieces, from a state on. -/
def runPieces : State → List (Option Char) → List Token
  | s, [] => s.finish
  | s, piece :: rest => (s.stepPiece piece).2 ++ runPieces (s.stepPiece piece).1 rest

end State

/-- The tokens of a text in octets. -/
def ofOctets (octets : ByteArray) : List Token :=
  State.between.runPieces (piecesFrom octets 0)

end Token

end Piecework.Json
