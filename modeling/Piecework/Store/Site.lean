import Piecework.Store.Program

/-!
# The store at work

A store together with the clock that stamps its rows and with the failures that are
planned for it.  A planned failure concerns one kind of call: it lets a number of
calls pass and then refuses some, each with the same error.
-/

namespace Piecework

/-- A planned failure. -/
structure Outage where
  /-- Calls that still pass. -/
  skip : Nat
  /-- Calls that fail after them. -/
  times : Nat
  error : StoreError
deriving DecidableEq, Repr

/-- Whether the next call fails, and what is left of the plan. -/
def Outage.next (o : Outage) : Option StoreError × Outage :=
  if 0 < o.skip then (none, { o with skip := o.skip - 1 })
  else if 0 < o.times then (some o.error, { o with times := o.times - 1 })
  else (none, o)

/-- The planned failures, at most one for each kind of call. -/
abbrev Outages := List (Method × Outage)

namespace Outages

/-- Plans a failure; it takes the place of an earlier one for the same calls. -/
def plan (m : Method) (o : Outage) (plans : Outages) : Outages :=
  (m, o) :: plans.filter (·.1 != m)

/-- Whether a call fails, and what is left of the plans. -/
def next (m : Method) : Outages → Option StoreError × Outages
  | [] => (none, [])
  | (m', o) :: rest =>
    if m' = m then
      let (failure, o') := o.next
      (failure, (m', o') :: rest)
    else
      let (failure, rest') := next m rest
      (failure, (m', o) :: rest')

end Outages

/-- A store with its clock and its planned failures. -/
structure Site where
  store : Store
  clock : Time.Instant
  outages : Outages
deriving Repr

namespace Site

/-- The first moment of the clock. -/
def dawn : Time.Instant := .ofCivil ⟨2026, 1, 1⟩ ⟨0, 0, 0, 0⟩

/-- A site with an empty store and no failures ahead. -/
def fresh : Site := ⟨.empty, dawn, []⟩

/-- Answers a call.  The clock moves on by its smallest step each time, so later
rows have later stamps. -/
def answer (c : Call) (site : Site) : Except StoreError c.Reply × Site :=
  let (failure, outages) := site.outages.next c.method
  let site := { site with outages, clock := site.clock.tick }
  match failure with
  | some e => (.error e, site)
  | none =>
    match site.store.answer site.clock c with
    | .ok (reply, store) => (.ok reply, { site with store })
    | .error e => (.error e, site)

/-- Runs a program. -/
def perform (p : Program ε α) (site : Site) : Except ε α × Site :=
  p.run answer site

end Site

end Piecework
