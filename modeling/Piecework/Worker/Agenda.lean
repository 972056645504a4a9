/-!
# Agendas

What is to be done now and what later, in virtual time.  The entries stand in the
order in which they will be done: an earlier time comes first, and of one time what
was put down first.  Time only passes when an entry is taken whose time has not come
yet, so nothing is done early and nothing that is due is passed over.
-/

namespace Piecework

/-- Entries with the times, in milliseconds, at which they are due. -/
structure Agenda (α : Type) where
  now : Nat
  entries : List (Nat × α)
deriving DecidableEq, Repr

namespace Agenda

/-- The longest wait, in milliseconds: thirty years of 365 days. -/
def longestWait : Nat := 30 * 365 * 86400 * 1000

/-- A wait as long as it is asked for, or the longest one. -/
def span (wait : Nat) : Nat := min wait longestWait

/-- Everything is due at once, in the given order. -/
def ofList (due : List α) : Agenda α := ⟨0, due.map (0, ·)⟩

/-- Puts an entry behind all that are due by its time. -/
def insert (time : Nat) (a : α) : List (Nat × α) → List (Nat × α)
  | [] => [(time, a)]
  | entry :: rest =>
    if time < entry.1 then (time, a) :: entry :: rest else entry :: insert time a rest

/-- Puts an entry behind everything that is due now. -/
def append (a : α) (g : Agenda α) : Agenda α :=
  { g with entries := insert g.now a g.entries }

/-- Puts an entry down for after a wait.  Without a wait it comes next. -/
def after (wait : Nat) (a : α) (g : Agenda α) : Agenda α :=
  if wait = 0 then { g with entries := (g.now, a) :: g.entries }
  else { g with entries := insert (g.now + span wait) a g.entries }

/-- Takes the next entry; the time moves on to when it is due. -/
def next? (g : Agenda α) : Option (α × Agenda α) :=
  match g.entries with
  | [] => none
  | (time, a) :: rest => some (a, ⟨max g.now time, rest⟩)

/-- Whether nothing more is due now. -/
def isIdle (g : Agenda α) : Bool :=
  match g.entries with
  | [] => true
  | (time, _) :: _ => g.now < time

end Agenda

end Piecework
