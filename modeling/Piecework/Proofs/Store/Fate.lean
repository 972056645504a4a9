import Piecework.Proofs.Store.Meets

/-!
# Calls that fail one by one

The failures of a site are planned for kinds of calls.  Here every single call has a fate of its
own: the time at which it is made and the failure that it meets with, if it does.  So the calls
that fail can be any of the calls of a program.

* `Fate.answer` answers a call by its number, and `Fate.perform` runs a program.
* `Fate.calls_le` and `Fate.calls_lt_ask` count the calls that were made.
* `Program.Meets.spared`: a program whose own calls are spared ends as the rules say, whatever
  happens to the calls in front of it and behind it.
-/

namespace Piecework

/-- What becomes of calls that are made one after the other, by their numbers. -/
structure Fate where
  time : Nat → Time.Instant
  failure? : Nat → Option StoreError

/-- A store with the number of calls that were made on it. -/
structure Counted where
  store : Store
  calls : Nat

namespace Fate

/-- No call fails. -/
def Kind (φ : Fate) : Prop := ∀ n, φ.failure? n = none

/-- No call between two states fails. -/
def Spares (φ : Fate) (x y : Counted) : Prop :=
  ∀ n, x.calls ≤ n → n < y.calls → φ.failure? n = none

/-- Answers a call.  A call that fails changes nothing. -/
def answer (φ : Fate) (c : Call) (x : Counted) : Except StoreError c.Reply × Counted :=
  match φ.failure? x.calls with
  | some e => (.error e, ⟨x.store, x.calls + 1⟩)
  | none =>
    match x.store.answer (φ.time x.calls) c with
    | .ok (reply, s) => (.ok reply, ⟨s, x.calls + 1⟩)
    | .error e => (.error e, ⟨x.store, x.calls + 1⟩)

/-- Runs a program. -/
def perform (φ : Fate) (p : Program ε α) (x : Counted) : Except ε α × Counted :=
  p.run φ.answer x

variable {ε ε' α β : Type} {φ : Fate} {x : Counted}

theorem perform_andThen (φ : Fate) (p : Program ε α) (f : Except ε α → Program ε' β)
    (x : Counted) :
    φ.perform (p.andThen f) x = φ.perform (f (φ.perform p x).1) (φ.perform p x).2 :=
  p.run_andThen φ.answer f x

theorem perform_ask (φ : Fate) (c : Call) (next : Except StoreError c.Reply → Program ε α)
    (x : Counted) :
    φ.perform (.ask c next) x = φ.perform (next (φ.answer c x).1) (φ.answer c x).2 := rfl

theorem answer_calls (φ : Fate) (c : Call) (x : Counted) :
    (φ.answer c x).2.calls = x.calls + 1 := by
  unfold answer
  cases φ.failure? x.calls with
  | some e => rfl
  | none => cases x.store.answer (φ.time x.calls) c <;> rfl

theorem answer_served {fails : Prop} (h : fails ∨ φ.failure? x.calls = none) (c : Call) :
    Served fails x.store c (φ.answer c x).1 (φ.answer c x).2.store := by
  unfold answer
  cases hfate : φ.failure? x.calls with
  | some e => exact .failed e (h.resolve_right (by rw [hfate]; simp))
  | none =>
    cases heq : x.store.answer (φ.time x.calls) c with
    | ok pair => exact .answered _ heq
    | error e => exact .refused _ heq

/-- Calls are not taken back. -/
theorem calls_le (φ : Fate) (p : Program ε α) (x : Counted) :
    x.calls ≤ (φ.perform p x).2.calls := by
  induction p generalizing x with
  | done result => exact Nat.le_refl _
  | ask c next ih =>
    calc x.calls ≤ x.calls + 1 := Nat.le_succ _
      _ = (φ.answer c x).2.calls := (φ.answer_calls c x).symm
      _ ≤ (φ.perform (.ask c next) x).2.calls := ih _ _

section Ask

variable {c : Call} {next : Except StoreError c.Reply → Program ε α}

theorem calls_lt_ask (φ : Fate) (c : Call) (next : Except StoreError c.Reply → Program ε α)
    (x : Counted) : x.calls < (φ.perform (.ask c next) x).2.calls :=
  calc x.calls < x.calls + 1 := Nat.lt_succ_self _
    _ = (φ.answer c x).2.calls := (φ.answer_calls c x).symm
    _ ≤ (φ.perform (.ask c next) x).2.calls := φ.calls_le (next (φ.answer c x).1) _

/-- The first call is spared, and so is the rest. -/
theorem Spares.ask (h : φ.Spares x (φ.perform (.ask c next) x).2) :
    φ.failure? x.calls = none ∧ φ.Spares (φ.answer c x).2
      (φ.perform (next (φ.answer c x).1) (φ.answer c x).2).2 := by
  refine ⟨h _ (Nat.le_refl _) (φ.calls_lt_ask c next x), fun n hn hlt => h n ?_ hlt⟩
  rw [φ.answer_calls] at hn
  exact Nat.le_of_succ_le hn

end Ask

end Fate

/-- A program that is spared ends as the rules for calls that do not fail say. -/
theorem Program.Meets.spared {ε α : Type} {ρ : Rules} {post : Except ε α → Store → Prop}
    {φ : Fate} {p : Program ε α} {x : Counted} (h : p.Meets ρ post x.store)
    (hspared : φ.Spares x (φ.perform p x).2) :
    post (φ.perform p x).1 (φ.perform p x).2.store := by
  induction p generalizing x with
  | done result => exact h _ (ρ.refl _)
  | ask c next ih =>
    obtain ⟨hcall, hrest⟩ := hspared.ask
    exact ih _ (h.ask.2 _ _ (Fate.answer_served (.inr hcall) c)) hrest

end Piecework
