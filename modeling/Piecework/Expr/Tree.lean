import Piecework.Decimal.Layout
import Piecework.Expr.Operator

/-!
# Operation trees

An expression is a binary tree: a leaf holds a number, an interior node an
operator with two operands.  A tree has a value, found by evaluating left before
right, and a fully parenthesised text.
-/

namespace Piecework

/-- A parsed expression, or what is left of one after results were folded in. -/
inductive Tree where
  | leaf (value : Float)
  | node (op : Operator) (left right : Tree)
deriving DecidableEq, Repr, Inhabited

namespace Tree

/-- The number at a leaf. -/
def value? : Tree → Option Float
  | leaf v => some v
  | node .. => none

/-- Whether the tree is a single number. -/
def isLeaf (t : Tree) : Bool := t.value?.isSome

/-- The operation of a node whose operands are both numbers: it can be computed
at once. -/
def operation? : Tree → Option (Operator × Float × Float)
  | node op (leaf a) (leaf b) => some (op, a, b)
  | _ => none

/-- The number of interior nodes, which is the number of operations that a full
evaluation takes. -/
def operationCount : Tree → Nat
  | leaf _ => 0
  | node _ l r => 1 + l.operationCount + r.operationCount

/-- The value of the tree.  Operands are evaluated from left to right and the
first error is the tree's. -/
def evaluate : Tree → Except ComputeError Float
  | leaf v => .ok v
  | node op l r =>
    match l.evaluate with
    | .error e => .error e
    | .ok a =>
      match r.evaluate with
      | .error e => .error e
      | .ok b => op.apply a b

/-- The text of a number in a tree.  A negative number is parenthesised; negative
zero is not below zero and stands bare. -/
def numberText (v : Float) : List Char :=
  if v < 0 then '(' :: Decimal.plain.write v ++ [')'] else Decimal.plain.write v

/-- The text of the tree, with every operation in parentheses. -/
def chars : Tree → List Char
  | leaf v => numberText v
  | node op l r => '(' :: l.chars ++ op.symbol.toList ++ r.chars ++ [')']

/-- The text of the tree. -/
def text (t : Tree) : String := String.ofList t.chars

/-- The symbols of a tree in post-order: numbers at the leaves, operators at the
nodes. -/
inductive Symbol where
  | number (value : Float)
  | operator (op : Operator)
deriving DecidableEq, Repr

/-- The tree in post-order. -/
def postOrder : Tree → List Symbol
  | leaf v => [.number v]
  | node op l r => l.postOrder ++ r.postOrder ++ [.operator op]

/-- One step of rebuilding trees from post-order: a number is pushed, an operator
takes the two newest trees. -/
def push : List Tree → Symbol → Option (List Tree)
  | stack, .number v => some (leaf v :: stack)
  | r :: l :: stack, .operator op => some (node op l r :: stack)
  | _, .operator _ => none

/-- The tree with the given post-order, if there is one. -/
def ofPostOrder? (symbols : List Symbol) : Option Tree := do
  match ← symbols.foldlM push [] with
  | [t] => some t
  | _ => none

end Tree

end Piecework
