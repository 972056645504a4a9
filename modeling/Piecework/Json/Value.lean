import Piecework.Decimal.Layout

/-!
# JSON values and their text

What the program says in JSON: a tree of values and its compact text.  Members
keep the order they are given in; `sorted` puts them into alphabetical order.
-/

namespace Piecework.Json

/-- A value that can be written. -/
inductive Value where
  | null
  | bool (b : Bool)
  | integer (n : Int)
  | float (x : Float)
  | text (s : String)
  | array (items : List Value)
  | object (members : List (String × Value))
deriving Repr, Inhabited

/-- The hexadecimal digit of a number below sixteen. -/
def hexDigit (n : Nat) : Char :=
  (Nat.toDigits 16 n).headD '0'

/-- A character inside a quoted text.  Quotes, backslashes and control characters
are escaped; every other character stands for itself. -/
def escapeChar (c : Char) : List Char :=
  if c = '"' then ['\\', '"']
  else if c = '\\' then ['\\', '\\']
  else if 0x20 ≤ c.toNat then [c]
  else if c = '\x08' then ['\\', 'b']
  else if c = '\t' then ['\\', 't']
  else if c = '\n' then ['\\', 'n']
  else if c = '\x0c' then ['\\', 'f']
  else if c = '\r' then ['\\', 'r']
  else ['\\', 'u', '0', '0', hexDigit (c.toNat / 16), hexDigit (c.toNat % 16)]

/-- A text between quotes. -/
def quoted (s : String) : List Char :=
  '"' :: s.toList.flatMap escapeChar ++ ['"']

/-- The decimal text of an integer. -/
def integerChars (n : Int) : List Char :=
  let digits := Decimal.digitChars n.natAbs
  if n < 0 then '-' :: digits else digits

namespace Value

/-- Texts with commas between them. -/
def separated : List (List Char) → List Char
  | [] => []
  | [one] => one
  | one :: more => one ++ ',' :: separated more

mutual

/-- The compact text of a value. -/
def chars : Value → List Char
  | .null => ['n', 'u', 'l', 'l']
  | .bool true => ['t', 'r', 'u', 'e']
  | .bool false => ['f', 'a', 'l', 's', 'e']
  | .integer n => integerChars n
  | .float x => Decimal.jsonChars x
  | .text s => quoted s
  | .array items => '[' :: separated (itemChars items) ++ [']']
  | .object members => '\x7b' :: separated (memberChars members) ++ ['\x7d']

/-- The texts of the items of an array. -/
def itemChars : List Value → List (List Char)
  | [] => []
  | v :: rest => v.chars :: itemChars rest

/-- The texts of the members of an object. -/
def memberChars : List (String × Value) → List (List Char)
  | [] => []
  | (key, v) :: rest => (quoted key ++ ':' :: v.chars) :: memberChars rest

end

/-- The compact text of a value. -/
def toText (v : Value) : String := String.ofList v.chars

/-- Puts a member in front of the first one with a larger key. -/
def insertMember (key : String) (v : Value) : List (String × Value) → List (String × Value)
  | [] => [(key, v)]
  | (k, w) :: rest =>
    if key < k then (key, v) :: (k, w) :: rest else (k, w) :: insertMember key v rest

mutual

/-- The value with the members of every object in alphabetical order. -/
def sorted : Value → Value
  | .array items => .array (sortedItems items)
  | .object members => .object (sortedMembers members)
  | v => v

/-- Sorts inside the items of an array. -/
def sortedItems : List Value → List Value
  | [] => []
  | v :: rest => v.sorted :: sortedItems rest

/-- Sorts the members of an object, and inside of them. -/
def sortedMembers : List (String × Value) → List (String × Value)
  | [] => []
  | (key, v) :: rest => insertMember key v.sorted (sortedMembers rest)

end

end Value

end Piecework.Json
