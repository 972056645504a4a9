import Piecework.Schedule.Pass
import Piecework.Settings
import Piecework.Store.Site

/-!
# The dispatcher

Completions wait in a queue until a pass is made for each.  A pass that meets a
failure of the store is repeated a bounded number of times; any other failure is
final.  Four counters say what has become of the completions: every one that was
taken from the queue counts as processed or as failed in the end, and each attempt
that is followed by another one as retried.
-/

namespace Piecework

/-- What the dispatcher has done so far. -/
structure DispatchCounts where
  enqueued : Nat
  processed : Nat
  failed : Nat
  retried : Nat
deriving DecidableEq, Repr

/-- Nothing done yet. -/
def DispatchCounts.zero : DispatchCounts := ⟨0, 0, 0, 0⟩

/-- What an attempt at a completion means for it. -/
inductive Verdict where
  | processed
  | failed
  /-- There will be another attempt. -/
  | retried
deriving DecidableEq, Repr

namespace DispatchCounts

/-- Counts an attempt. -/
def count (c : DispatchCounts) : Verdict → DispatchCounts
  | .processed => { c with processed := c.processed + 1 }
  | .failed => { c with failed := c.failed + 1 }
  | .retried => { c with retried := c.retried + 1 }

end DispatchCounts

/-- The verdict on an attempt when `left` more are allowed. -/
def Verdict.of (left : Nat) : Except Error α → Verdict
  | .ok _ => .processed
  | .error e => if e.isTransient ∧ 0 < left then .retried else .failed

/-- The queue of completions, and what has become of earlier ones. -/
structure Dispatcher where
  settings : DispatchSettings
  /-- Tasks whose completion waits for a pass, the oldest first. -/
  queue : List Int
  /-- Nothing is accepted any more. -/
  closed : Bool
  counts : DispatchCounts
deriving DecidableEq, Repr

namespace Dispatcher

/-- A dispatcher with an empty queue. -/
def start (settings : DispatchSettings) : Dispatcher := ⟨settings, [], false, .zero⟩

/-- The attempts that a completion gets, at least one. -/
def attempts (d : Dispatcher) : Nat := max 1 d.settings.maxAttempts

/-- Queues a completion, unless the dispatcher is closed.  Says whether it was. -/
def notify (taskId : Int) (d : Dispatcher) : Bool × Dispatcher :=
  if d.closed then (false, d)
  else
    (true, { d with
      queue := d.queue ++ [taskId]
      counts := { d.counts with enqueued := d.counts.enqueued + 1 } })

/-- Queues several completions. -/
def notifyAll : List Int → Dispatcher → List Bool × Dispatcher
  | [], d => ([], d)
  | id :: rest, d =>
    let (accepted, d) := d.notify id
    let (others, d) := d.notifyAll rest
    (accepted :: others, d)

/-- Closes the dispatcher.  What waits in the queue is dropped. -/
def shutdown (d : Dispatcher) : Dispatcher := { d with queue := [], closed := true }

/-- Makes one pass for a completion, with `left` more attempts allowed. -/
def tryPass (taskId : Int) (left : Nat) (counts : DispatchCounts) (site : Site) :
    Verdict × DispatchCounts × Site :=
  let (outcome, site) := site.perform (Schedule.passAfter taskId)
  let verdict := Verdict.of left outcome
  (verdict, counts.count verdict, site)

/-- Makes passes for a completion, with at most `left` attempts behind the first. -/
def attempt (taskId : Int) :
    Nat → DispatchCounts → Site → DispatchCounts × Site
  | left, counts, site =>
    match tryPass taskId left counts site, left with
    | (.retried, counts, site), left + 1 => attempt taskId left counts site
    | (_, counts, site), _ => (counts, site)

/-- Makes the passes for a list of completions, one after the other. -/
def drain (attempts : Nat) : List Int → DispatchCounts → Site → DispatchCounts × Site
  | [], counts, site => (counts, site)
  | id :: rest, counts, site =>
    let (counts, site) := attempt id (attempts - 1) counts site
    drain attempts rest counts site

/-- Makes the passes for everything in the queue. -/
def settle (d : Dispatcher) (site : Site) : Dispatcher × Site :=
  let (counts, site) := drain d.attempts d.queue d.counts site
  ({ d with queue := [], counts }, site)

end Dispatcher

end Piecework
