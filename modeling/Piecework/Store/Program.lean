import Piecework.Store.Call

/-!
# Programs over the store

A program asks the store one call after another; what it asks next may depend on
the replies.  It is a tree of calls, so it can be run against any store, stopped
between two calls, or interleaved with what others ask of the same store.
-/

namespace Piecework

/-- A computation that ends in a value or an error and may call the store. -/
inductive Program (ε α : Type) where
  | done (result : Except ε α)
  | ask (call : Call) (next : Except StoreError call.Reply → Program ε α)

namespace Program

/-- Goes on with a result. -/
def andThen : Program ε α → (Except ε α → Program ε' β) → Program ε' β
  | done result, f => f result
  | ask call next, f => ask call fun reply => (next reply).andThen f

/-- Goes on with a value; an error ends the program. -/
def bind (p : Program ε α) (f : α → Program ε β) : Program ε β :=
  p.andThen fun
    | .ok a => f a
    | .error e => done (.error e)

instance : Monad (Program ε) where
  pure a := done (.ok a)
  bind := bind

/-- Ends in an error. -/
def fail (e : ε) : Program ε α := done (.error e)

/-- Hands an error on as a value. -/
def attempt (p : Program ε α) : Program ε' (Except ε α) :=
  p.andThen fun result => done (.ok result)

/-- Changes the error. -/
def mapError (f : ε → ε') (p : Program ε α) : Program ε' α :=
  p.andThen fun result => done (result.mapError f)

/-- A single call. -/
def call (c : Call) : Program StoreError c.Reply := ask c done

/-- A program that only the store can make fail, as part of a larger one. -/
instance : MonadLift (Program StoreError) (Program Error) where
  monadLift := mapError .store

/-- Runs a program against anything that answers calls. -/
def run (answer : (c : Call) → σ → Except StoreError c.Reply × σ) :
    Program ε α → σ → Except ε α × σ
  | done result, s => (result, s)
  | ask call next, s =>
    let (reply, s') := answer call s
    (next reply).run answer s'

end Program

end Piecework
