import Piecework.Expr.Tree

/-!
# The ready frontier

A node is ready when both of its operands are numbers.  The frontier of a tree
lists its ready nodes in post-order, each with the path that leads to it from the
root; these are the operations that may be handed out at the same time.
-/

namespace Piecework

/-- A step from a node to one of its operands. -/
inductive Side where
  | left
  | right
deriving DecidableEq, Repr

/-- The letter of a side in the text of a path. -/
def Side.letter : Side → Char
  | left => 'L'
  | right => 'R'

/-- The way from the root to a node; the root's own path is empty. -/
abbrev Path := List Side

/-- The text of a path, one letter a step. -/
def Path.text (p : Path) : String :=
  String.ofList (p.map Side.letter)

/-- A node whose operands are both known, with its place in the tree. -/
structure Ready where
  path : Path
  op : Operator
  lhs : Float
  rhs : Float
deriving DecidableEq, Repr

namespace Tree

/-- The subtree that a path leads to. -/
def at? : Tree → Path → Option Tree
  | t, [] => some t
  | leaf _, _ :: _ => none
  | node _ l _, .left :: p => l.at? p
  | node _ _ r, .right :: p => r.at? p

/-- The ready nodes of a tree whose own path is `p`, operands before operators. -/
def frontierAt (p : Path) : Tree → List Ready
  | leaf _ => []
  | node op l r =>
    l.frontierAt (p ++ [.left]) ++ r.frontierAt (p ++ [.right]) ++
      match (node op l r).operation? with
      | some (op, a, b) => [⟨p, op, a, b⟩]
      | none => []

/-- The ready nodes of a tree. -/
def frontier (t : Tree) : List Ready := t.frontierAt []

end Tree

end Piecework
