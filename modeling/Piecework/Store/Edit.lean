import Piecework.Store.Basic

/-!
# Editing rows

Overwriting one column of one row from outside.  Nothing but the kind of the column
is looked at: a row may end up with a state that has no meaning, with an operator
that does not exist, or with steps that do not read.

A column of numbers takes a text that is the numeral of a number it can hold.
-/

namespace Piecework

/-- A value for a column. -/
inductive Cell where
  | null
  | integer (n : Int)
  | float (x : Float)
  | text (s : String)
deriving DecidableEq, Repr

namespace Cell

/-- A number in a text: `± digits / 10 ^ places`. -/
structure Numeral where
  negative : Bool
  digits : Nat
  places : Nat
deriving DecidableEq, Repr

/-- The characters that may stand around a numeral. -/
def isMargin (c : Char) : Bool :=
  c == ' ' || ('\t' ≤ c && c ≤ '\r')

/-- A numeral without margins: an optional sign and digits with at most one point. -/
def numeralOf? : List Char → Option Numeral
  | '-' :: rest => (Decimal.literalFrom? 0 none false rest).map fun (n, k) => ⟨true, n, k⟩
  | '+' :: rest => (Decimal.literalFrom? 0 none false rest).map fun (n, k) => ⟨false, n, k⟩
  | cs => (Decimal.literalFrom? 0 none false cs).map fun (n, k) => ⟨false, n, k⟩

/-- The numeral in a text. -/
def numeral? (s : String) : Option Numeral :=
  numeralOf? ((s.toList.dropWhile isMargin).reverse.dropWhile isMargin).reverse

namespace Numeral

/-- The integer of a numeral, if it is one and an identifier could be as large. -/
def integer? (n : Numeral) : Option Int :=
  if n.digits % Nat.pow 10 n.places = 0 then
    let size : Int := (n.digits / Nat.pow 10 n.places : Nat)
    some (if n.negative then -size else size) |>.filter fun i =>
      Text.minId ≤ i ∧ i ≤ Text.maxId
  else none

/-- The float nearest to a numeral. -/
def float (n : Numeral) : Float :=
  let size := Decimal.nearest n.digits (-(n.places : Int))
  if n.negative then -size else size

end Numeral

/-- The value as a column of texts keeps it: integers in decimal. -/
def text? : Cell → Option String
  | text s => some s
  | integer n => some (toString n)
  | null | float _ => none

/-- The value as a column of floats keeps it. -/
def float? : Cell → Option Float
  | float x => columnFloat x
  | integer n => columnFloat (Float.ofInt n)
  | text s => (numeral? s).bind fun n => columnFloat n.float
  | null => none

/-- The value as a column of integers keeps it. -/
def integer? : Cell → Option Int
  | integer n => some n
  | text s => (numeral? s).bind Numeral.integer?
  | null | float _ => none

end Cell

/-- The row with another value in a column.  `none` if there is no such column or it
cannot hold the value. -/
def TaskRow.set? (column : String) (cell : Cell) (r : TaskRow) : Option TaskRow :=
  match column with
  | "expression_id" => cell.integer?.map fun n => { r with expressionId := n }
  | "operator" => cell.text?.map fun s => { r with operator := s }
  | "operand1" => cell.float?.map fun x => { r with operand1 := x }
  | "operand2" => cell.float?.map fun x => { r with operand2 := x }
  | "node_path" => cell.text?.map fun s => { r with path := s }
  | "result" => some { r with result := cell.float? }
  | "status" => cell.text?.map fun s => { r with status := s }
  | "retries" => cell.integer?.map fun n => { r with retries := n }
  | "created_at" => cell.text?.map fun s => { r with createdAt := s }
  | "updated_at" => cell.text?.map fun s => { r with updatedAt := s }
  | _ => none

/-- The row with another value in a column.  `none` if there is no such column or it
cannot hold the value. -/
def ExpressionRow.set? (column : String) (cell : Cell) (r : ExpressionRow) :
    Option ExpressionRow :=
  match column with
  | "owner_id" => cell.text?.map fun s => { r with owner := s }
  | "source" => cell.text?.map fun s => { r with source := s }
  | "status" => cell.text?.map fun s => { r with status := s }
  | "result" => some { r with result := cell.float? }
  | "steps" => some { r with steps := cell.text? }
  | "created_at" => cell.text?.map fun s => { r with createdAt := s }
  | "updated_at" => cell.text?.map fun s => { r with updatedAt := s }
  | _ => none

namespace Store

/-- Changes the rows that are selected and can be changed.  Also counts them. -/
def editRows (selected : ρ → Bool) (change : ρ → Option ρ) : List ρ → Nat × List ρ
  | [] => (0, [])
  | r :: rest =>
    let (n, rows) := editRows selected change rest
    match if selected r then change r else none with
    | some r' => (n + 1, r' :: rows)
    | none => (n, r :: rows)

/-- Overwrites a column of a task and counts the rows that changed. -/
def editTask (id : Int) (column : String) (cell : Cell) (s : Store) : Nat × Store :=
  let (n, rows) := editRows (·.id == id) (TaskRow.set? column cell) s.tasks
  (n, { s with tasks := rows })

/-- Overwrites a column of an expression and counts the rows that changed. -/
def editExpression (id : Int) (column : String) (cell : Cell) (s : Store) : Nat × Store :=
  let (n, rows) := editRows (·.id == id) (ExpressionRow.set? column cell) s.expressions
  (n, { s with expressions := rows })

end Store

end Piecework
