import Piecework.Store.Basic

/-!
# Calls on the store

The interface of the store as data: what can be asked, what kind of reply each
question has, and how the store answers it.
-/

namespace Piecework

open Time (Instant)

/-- A call on the store. -/
inductive Call where
  | migrate
  | createTask (expressionId : Int) (op : Operator) (lhs rhs : Float) (path : String)
  | lease
  | completeTask (id : Int) (value : Float)
  | failTask (id : Int)
  | getTask (id : Int)
  | listTasks (expressionId : Int)
  | createExpression (owner source : String)
  | getExpression (id : Int)
  | getOwnedExpression (id : Int) (owner : String)
  | listOwned (owner : String)
  | listUnfinished
  | setStatus (id : Int) (status : ExpressionStatus) (result : Option Float)
      (steps : Option (List String))
deriving DecidableEq, Repr

/-- The kinds of calls. -/
inductive Method where
  | migrate
  | createTask
  | lease
  | completeTask
  | failTask
  | getTask
  | listTasks
  | createExpression
  | getExpression
  | getOwnedExpression
  | listOwned
  | listUnfinished
  | setStatus
deriving DecidableEq, Repr

namespace Call

/-- The kind of a call. -/
def method : Call → Method
  | migrate => .migrate
  | createTask .. => .createTask
  | lease => .lease
  | completeTask .. => .completeTask
  | failTask _ => .failTask
  | getTask _ => .getTask
  | listTasks _ => .listTasks
  | createExpression .. => .createExpression
  | getExpression _ => .getExpression
  | getOwnedExpression .. => .getOwnedExpression
  | listOwned _ => .listOwned
  | listUnfinished => .listUnfinished
  | setStatus .. => .setStatus

/-- What a call is answered with when it does not fail. -/
@[reducible] def Reply : Call → Type
  | migrate => Unit
  | createTask .. => Int
  | lease => Option Task
  | completeTask .. => Bool
  | failTask _ => Bool
  | getTask _ => Option Task
  | listTasks _ => List Task
  | createExpression .. => Int
  | getExpression _ => Option Expression
  | getOwnedExpression .. => Option Expression
  | listOwned _ => List Expression
  | listUnfinished => List Expression
  | setStatus .. => Unit

end Call

namespace Store

/-- Answers a call.  A call that fails changes nothing. -/
def answer (now : Instant) (s : Store) : (c : Call) → Except StoreError (c.Reply × Store)
  | .migrate => .ok ((), s)
  | .createTask expressionId op lhs rhs path => s.createTask now expressionId op lhs rhs path
  | .lease => s.lease now
  | .completeTask id value => .ok (s.complete now id value)
  | .failTask id => .ok (s.fail now id)
  | .getTask id => (s.task? id).map (·, s)
  | .listTasks expressionId => .ok (s.tasksOf expressionId, s)
  | .createExpression owner source => .ok (s.createExpression now owner source)
  | .getExpression id => (s.expression? id).map (·, s)
  | .getOwnedExpression id owner => (s.ownedExpression? id owner).map (·, s)
  | .listOwned owner => .ok (s.ownedBy owner, s)
  | .listUnfinished => .ok (s.unfinished, s)
  | .setStatus id status result steps => .ok ((), s.setStatus now id status result steps)

end Store

end Piecework
