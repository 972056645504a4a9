import Piecework.Decimal.Reading
import Piecework.Expr.Tree

/-!
# Parsing expressions

Recursive descent from text to tree:

```text
expression := term (('+' | '-') term)*
term       := factor (('*' | '/') factor)*
factor     := '-' factor | '(' expression ')' | number
```

Space, tab, line feed and carriage return may stand before each token and at the
end.  Both kinds of chains associate to the left.  A minus in front of a number
changes its sign; in front of anything else it multiplies by minus one, so that
every interior node has two operands.

A `Cursor` is the unread text with its byte offset in UTF-8.  What a parser
returns leaves strictly less text than it was given, and this is what makes the
recursion end.
-/

namespace Piecework

/-- Why a text is not an expression.  Positions are byte offsets. -/
inductive ParseError where
  | empty
  | expectedOperand (found : Option Char) (position : Nat)
  | multipleDecimalPoints (position : Nat)
  | invalidNumber (literal : String)
  | unclosedParen (position : Nat)
  | trailingInput (found : Char) (position : Nat)
deriving DecidableEq, Repr

namespace ParseError

/-- A character in quotes, or the end of the text. -/
def foundText : Option Char → String
  | some c => "'" ++ c.toString ++ "'"
  | none => "end of input"

/-- What a reader of the expression is told. -/
def message : ParseError → String
  | empty => "empty expression"
  | expectedOperand found position =>
    "expected an operand at position " ++ toString position ++ ", found " ++ foundText found
  | multipleDecimalPoints position =>
    "invalid number at position " ++ toString position ++ ": more than one decimal point"
  | invalidNumber literal => "invalid number literal '" ++ literal ++ "'"
  | unclosedParen position =>
    "expected ')' at position " ++ toString position ++ " to close '(' opened earlier"
  | trailingInput found position =>
    "unexpected character '" ++ found.toString ++ "' at position " ++ toString position ++
      " after a complete expression"

end ParseError

namespace Expr

/-- The unread part of a text and the number of bytes before it. -/
structure Cursor where
  rest : List Char
  position : Nat
deriving DecidableEq, Repr

/-- The characters that may stand between tokens. -/
def isSpace (c : Char) : Bool :=
  c == ' ' || c == '\t' || c == '\n' || c == '\r'

namespace Cursor

/-- The start of a text. -/
def start (cs : List Char) : Cursor := ⟨cs, 0⟩

/-- The next character. -/
def peek (c : Cursor) : Option Char := c.rest.head?

/-- Moves past one character. -/
def advance : Cursor → Cursor
  | ⟨[], p⟩ => ⟨[], p⟩
  | ⟨c :: rest, p⟩ => ⟨rest, p + c.utf8Size⟩

/-- Moves past spaces. -/
def skipFrom : List Char → Nat → Cursor
  | [], p => ⟨[], p⟩
  | c :: rest, p => if isSpace c then skipFrom rest (p + c.utf8Size) else ⟨c :: rest, p⟩

/-- Moves past spaces. -/
def skip (c : Cursor) : Cursor := skipFrom c.rest c.position

theorem length_skipFrom_le (cs : List Char) (p : Nat) :
    (skipFrom cs p).rest.length ≤ cs.length := by
  induction cs generalizing p with
  | nil => simp [skipFrom]
  | cons c rest ih =>
    simp only [skipFrom]
    split
    · have := ih (p + c.utf8Size)
      simp only [List.length_cons]
      omega
    · simp

theorem length_skip_le (c : Cursor) : c.skip.rest.length ≤ c.rest.length :=
  length_skipFrom_le c.rest c.position

theorem length_advance_le (c : Cursor) : c.advance.rest.length ≤ c.rest.length := by
  rcases c with ⟨_ | ⟨_, _⟩, _⟩ <;> simp [advance]

theorem length_advance_lt {c : Cursor} {x : Char} (h : c.peek = some x) :
    c.advance.rest.length < c.rest.length := by
  rcases c with ⟨_ | ⟨_, _⟩, _⟩
  · simp [peek] at h
  · simp [advance]

end Cursor

/-- A value read at a cursor, and a cursor with strictly less left to read. -/
abbrev Read (α : Type) (c : Cursor) : Type :=
  { r : α × Cursor // r.2.rest.length < c.rest.length }

/-- The longest run of digits and points at the front of a text: the run and what
follows it.  A second point is an error at its position. -/
def literalRun (seen : Bool) : List Char → Nat → Except ParseError (List Char × Cursor)
  | [], p => .ok ([], ⟨[], p⟩)
  | c :: rest, p =>
    if c = '.' ∧ seen then
      .error (.multipleDecimalPoints p)
    else if c = '.' ∨ c.isDigit then do
      let (run, next) ← literalRun (seen || c == '.') rest (p + c.utf8Size)
      .ok (c :: run, next)
    else
      .ok ([], ⟨c :: rest, p⟩)

theorem length_of_literalRun {seen : Bool} {cs : List Char} {p : Nat} {run : List Char}
    {next : Cursor} (h : literalRun seen cs p = .ok (run, next)) :
    run.length + next.rest.length = cs.length := by
  induction cs generalizing seen p run next with
  | nil =>
    simp only [literalRun, Except.ok.injEq, Prod.mk.injEq] at h
    obtain ⟨rfl, rfl⟩ := h
    rfl
  | cons c rest ih =>
    simp only [literalRun] at h
    split at h
    · cases h
    · split at h
      · rcases hr : literalRun (seen || c == '.') rest (p + c.utf8Size) with e | ⟨run', next'⟩
        · simp [hr, bind, Except.bind] at h
        · simp only [hr, bind, Except.bind, Except.ok.injEq, Prod.mk.injEq] at h
          obtain ⟨rfl, rfl⟩ := h
          have := ih hr
          simp only [List.length_cons]
          omega
      · simp only [Except.ok.injEq, Prod.mk.injEq] at h
        obtain ⟨rfl, rfl⟩ := h
        simp

/-- Reads a number that starts at the cursor. -/
def number (c : Cursor) : Except ParseError (Read Tree c) :=
  match h : literalRun false c.rest c.position with
  | .error e => .error e
  | .ok (run, next) =>
    match hv : Decimal.literal? run with
    | none => .error (.invalidNumber (String.ofList run))
    | some v =>
      have hrun : 0 < run.length := by
        cases run with
        | nil => simp [Decimal.literal?, Decimal.literalFrom?] at hv
        | cons => simp
      .ok ⟨(.leaf v, next), by
        have := length_of_literalRun h
        show next.rest.length < c.rest.length
        omega⟩

/-- The tree of a minus in front of an operand. -/
def negate : Tree → Tree
  | .leaf v => .leaf (-v)
  | t => .node .mul (.leaf (-1)) t

/-- The operator that continues a sum. -/
def sumOperator? : Option Char → Option Operator
  | some '+' => some .add
  | some '-' => some .sub
  | _ => none

/-- The operator that continues a product. -/
def productOperator? : Option Char → Option Operator
  | some '*' => some .mul
  | some '/' => some .div
  | _ => none

theorem exists_of_sumOperator? {c : Option Char} {op : Operator} (h : sumOperator? c = some op) :
    ∃ x, c = some x := by
  cases c with
  | none => cases h
  | some x => exact ⟨x, rfl⟩

theorem exists_of_productOperator? {c : Option Char} {op : Operator}
    (h : productOperator? c = some op) : ∃ x, c = some x := by
  cases c with
  | none => cases h
  | some x => exact ⟨x, rfl⟩

mutual

/-- A chain of terms. -/
def expression (c : Cursor) : Except ParseError (Read Tree c) :=
  match term c with
  | .error e => .error e
  | .ok ⟨(left, next), h⟩ =>
    match sums left next with
    | .error e => .error e
    | .ok ⟨r, hr⟩ => .ok ⟨r, Nat.lt_of_le_of_lt hr h⟩
termination_by 4 * c.rest.length + 3
decreasing_by
  · omega
  · have hnext : next.rest.length < c.rest.length := h
    omega

/-- Continues a chain of terms whose front was read. -/
def sums (left : Tree) (c : Cursor) :
    Except ParseError { r : Tree × Cursor // r.2.rest.length ≤ c.rest.length } :=
  match hop : sumOperator? c.skip.peek with
  | none => .ok ⟨(left, c.skip), c.length_skip_le⟩
  | some op =>
    have hlt : c.skip.advance.rest.length < c.rest.length :=
      let ⟨_, hx⟩ := exists_of_sumOperator? hop
      Nat.lt_of_lt_of_le (Cursor.length_advance_lt hx) c.length_skip_le
    match term c.skip.advance with
    | .error e => .error e
    | .ok ⟨(right, next), h⟩ =>
      have hnext : next.rest.length < c.rest.length := Nat.lt_trans h hlt
      match sums (.node op left right) next with
      | .error e => .error e
      | .ok ⟨r, hr⟩ => .ok ⟨r, Nat.le_trans hr (Nat.le_of_lt hnext)⟩
termination_by 4 * c.rest.length

/-- A chain of factors. -/
def term (c : Cursor) : Except ParseError (Read Tree c) :=
  match factor c with
  | .error e => .error e
  | .ok ⟨(left, next), h⟩ =>
    match products left next with
    | .error e => .error e
    | .ok ⟨r, hr⟩ => .ok ⟨r, Nat.lt_of_le_of_lt hr h⟩
termination_by 4 * c.rest.length + 2
decreasing_by
  · omega
  · have hnext : next.rest.length < c.rest.length := h
    omega

/-- Continues a chain of factors whose front was read. -/
def products (left : Tree) (c : Cursor) :
    Except ParseError { r : Tree × Cursor // r.2.rest.length ≤ c.rest.length } :=
  match hop : productOperator? c.skip.peek with
  | none => .ok ⟨(left, c.skip), c.length_skip_le⟩
  | some op =>
    have hlt : c.skip.advance.rest.length < c.rest.length :=
      let ⟨_, hx⟩ := exists_of_productOperator? hop
      Nat.lt_of_lt_of_le (Cursor.length_advance_lt hx) c.length_skip_le
    match factor c.skip.advance with
    | .error e => .error e
    | .ok ⟨(right, next), h⟩ =>
      have hnext : next.rest.length < c.rest.length := Nat.lt_trans h hlt
      match products (.node op left right) next with
      | .error e => .error e
      | .ok ⟨r, hr⟩ => .ok ⟨r, Nat.le_trans hr (Nat.le_of_lt hnext)⟩
termination_by 4 * c.rest.length

/-- A negation, a parenthesised expression, or a number. -/
def factor (c : Cursor) : Except ParseError (Read Tree c) :=
  match hp : c.skip.peek with
  | some '-' =>
    have hlt : c.skip.advance.rest.length < c.rest.length :=
      Nat.lt_of_lt_of_le (Cursor.length_advance_lt hp) c.length_skip_le
    match factor c.skip.advance with
    | .error e => .error e
    | .ok ⟨(operand, next), h⟩ => .ok ⟨(negate operand, next), Nat.lt_trans h hlt⟩
  | some '(' =>
    have hlt : c.skip.advance.rest.length < c.rest.length :=
      Nat.lt_of_lt_of_le (Cursor.length_advance_lt hp) c.length_skip_le
    match expression c.skip.advance with
    | .error e => .error e
    | .ok ⟨(inner, next), h⟩ =>
      if next.skip.peek = some ')' then
        .ok ⟨(inner, next.skip.advance), by
          have h1 := Cursor.length_advance_le next.skip
          have h2 := next.length_skip_le
          have h3 : next.rest.length < c.skip.advance.rest.length := h
          show next.skip.advance.rest.length < c.rest.length
          omega⟩
      else
        .error (.unclosedParen next.skip.position)
  | found =>
    if found.any fun x => x == '.' || x.isDigit then
      match number c.skip with
      | .error e => .error e
      | .ok ⟨r, h⟩ => .ok ⟨r, Nat.lt_of_lt_of_le h c.length_skip_le⟩
    else
      .error (.expectedOperand found c.skip.position)
termination_by 4 * c.rest.length + 1

end

/-- Parses a whole text.  A text of white space only, in the Unicode sense, is
empty; any other character that is not part of the grammar is reported where it
stands. -/
def parseChars (cs : List Char) : Except ParseError Tree :=
  if Text.allBlank cs then
    .error .empty
  else
    match expression (.start cs) with
    | .error e => .error e
    | .ok ⟨(t, next), _⟩ =>
      match next.skip.peek with
      | some found => .error (.trailingInput found next.skip.position)
      | none => .ok t

/-- The tree of an expression's text. -/
def parse (s : String) : Except ParseError Tree :=
  parseChars s.toList

end Expr

end Piecework
