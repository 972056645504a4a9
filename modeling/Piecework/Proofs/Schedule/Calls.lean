import Piecework.Proofs.Schedule.Passes

/-!
# Which calls a pass may come to

A pass depends on the answers of the store, but not every call can come up in it.
`Program.Asks` looks at all calls that a program may come to, whatever it is answered.

`firstPass_asks` says which calls a first pass may make.  They are about its own expression,
and it gives the expression up for two reasons only.
-/

namespace Piecework

/-! ## All calls of a program -/

namespace Program

variable {ε ε' α β : Type} {P Q : Call → Prop}

/-- Every call that the program may come to is of a kind. -/
def Asks (P : Call → Prop) : Program ε α → Prop
  | done _ => True
  | ask c next => P c ∧ ∀ reply, (next reply).Asks P

theorem Asks.mono {p : Program ε α} (h : p.Asks P) (himp : ∀ c, P c → Q c) : p.Asks Q := by
  induction p with
  | done result => trivial
  | ask c next ih => exact ⟨himp c h.1, fun reply => ih reply (h.2 reply)⟩

theorem Asks.andThen {p : Program ε α} {f : Except ε α → Program ε' β} (h : p.Asks P)
    (hf : ∀ result, (f result).Asks P) : (p.andThen f).Asks P := by
  induction p with
  | done result => exact hf result
  | ask c next ih => exact ⟨h.1, fun reply => ih reply (h.2 reply)⟩

theorem Asks.bind {p : Program ε α} {f : α → Program ε β} (h : p.Asks P)
    (hf : ∀ a, (f a).Asks P) : (p >>= f).Asks P := by
  refine Asks.andThen h fun result => ?_
  cases result with
  | ok a => exact hf a
  | error e => trivial

theorem Asks.attempt {p : Program ε α} (h : p.Asks P) : (p.attempt : Program ε' _).Asks P :=
  h.andThen fun _ => trivial

theorem Asks.lift {p : Program StoreError α} (h : p.Asks P) : (liftM p : Program Error α).Asks P :=
  h.andThen fun _ => trivial

theorem asks_call {c : Call} (h : P c) : (call c).Asks P := ⟨h, fun _ => trivial⟩

end Program

/-! ## Why a first pass gives up -/

/-- The steps of an expression whose tasks could not be listed or created. -/
def unscheduled (e : StoreError) : List String := ["scheduling failed: " ++ e.message]

/-- Why a first pass over a text marks its expression as being in error. -/
inductive GivesUp (text : String) : List String → Prop
  | rejected {e : ParseError} : Expr.parse text = .error e → GivesUp text (rejection e)
  | unscheduled (e : StoreError) : GivesUp text (unscheduled e)

/-! ## The calls of a first pass -/

/-- The calls that a first pass over an expression with a text may make. -/
inductive FirstPassCall (expressionId : Int) (text : String) : Call → Prop
  | list : FirstPassCall expressionId text (.listTasks expressionId)
  | create (op : Operator) (lhs rhs : Float) (path : String) :
      FirstPassCall expressionId text (.createTask expressionId op lhs rhs path)
  | done (value : Float) (steps : List String) :
      FirstPassCall expressionId text (.setStatus expressionId .done (some value) (some steps))
  | inProgress : FirstPassCall expressionId text (.setStatus expressionId .inProgress none none)
  | gaveUp {reasons : List String} : GivesUp text reasons →
      FirstPassCall expressionId text (.setStatus expressionId .error none (some reasons))

section FirstPass

open Schedule Program

variable (expressionId : Int) (text : String)

theorem giveUp_asks {reason : String} (h : GivesUp text [reason]) :
    (giveUp expressionId reason).Asks (FirstPassCall expressionId text) :=
  (asks_call (.gaveUp h)).attempt.bind fun _ => trivial

theorem createTasks_asks (xs : List Ready) :
    (createTasks expressionId xs).Asks (FirstPassCall expressionId text) := by
  induction xs with
  | nil => trivial
  | cons x rest ih =>
    exact (asks_call (.create x.op x.lhs x.rhs x.path.text)).bind fun _ => ih.bind fun _ => trivial

theorem issueTasks_asks (tree : Tree) :
    (issueTasks expressionId tree).Asks (FirstPassCall expressionId text) := by
  unfold issueTasks
  split_ifs
  · trivial
  · exact (asks_call .list).bind fun _ => createTasks_asks expressionId text _

theorem conclude_asks (tree : Tree) (steps : Float → List String) :
    (conclude expressionId tree steps).Asks (FirstPassCall expressionId text) := by
  unfold conclude
  cases tree.value? with
  | some value => exact (asks_call (.done value (steps value))).lift.bind fun _ => trivial
  | none => exact (asks_call .inProgress).lift.bind fun _ => trivial

/-- A first pass puts an expression in error only when the text does not parse or a call on the
store has failed. -/
theorem firstPass_asks :
    (firstPass expressionId text).Asks (FirstPassCall expressionId text) := by
  cases hparse : Expr.parse text with
  | error e =>
    unfold firstPass
    rw [hparse]
    exact (giveUp_asks expressionId text (.rejected hparse)).bind fun _ => trivial
  | ok tree =>
    rw [firstPass_eq hparse]
    refine (issueTasks_asks expressionId text tree).attempt.bind fun issued => ?_
    cases issued with
    | error e => exact (giveUp_asks expressionId text (.unscheduled e)).bind fun _ => trivial
    | ok n => exact conclude_asks expressionId text tree literalSteps

end FirstPass

end Piecework
