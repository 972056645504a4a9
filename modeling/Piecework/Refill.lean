import Piecework.Task

/-!
# Folding results into a tree

A pass starts from the text of an expression and folds in what workers have found
so far: a ready node whose task is done becomes a leaf with the result.  Operands
come first, so a whole chain of finished tasks collapses at once.
-/

namespace Piecework

/-- The finished task that computes an operation: the first one in the list. -/
def finished? (tasks : List Task) (path : String) (op : Operator) (lhs rhs : Float) :
    Option Task :=
  tasks.find? fun t => t.status == .done && t.computes path op lhs rhs

/-- The result of the finished task of an operation.  A first match without a result
hides any later one. -/
def resultOf? (tasks : List Task) (path : String) (op : Operator) (lhs rhs : Float) :
    Option Float :=
  (finished? tasks path op lhs rhs).bind Task.result

namespace Tree

/-- A node over its operands, or a leaf if the node is ready and its result known. -/
def collapse (tasks : List Task) (p : Path) (op : Operator) : Tree → Tree → Tree
  | leaf a, leaf b =>
    match resultOf? tasks p.text op a b with
    | some v => leaf v
    | none => node op (leaf a) (leaf b)
  | l, r => node op l r

/-- Folds results into a tree whose own path is `p`. -/
def refillAt (tasks : List Task) (p : Path) : Tree → Tree
  | leaf v => leaf v
  | node op l r =>
    collapse tasks p op (l.refillAt tasks (p ++ [.left])) (r.refillAt tasks (p ++ [.right]))

/-- Folds the results of finished tasks into a tree. -/
def refill (t : Tree) (tasks : List Task) : Tree := t.refillAt tasks []

end Tree

end Piecework
