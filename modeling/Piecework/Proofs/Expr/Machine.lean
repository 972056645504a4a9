import Piecework.Proofs.Expr.Bytes

/-!
# The parser as a machine on bytes

The parser again, as a machine that looks at single bytes of a text, keeps an offset into them, and
takes the text apart only at this offset.  One step passes one byte, calls, returns, or ends a
loop; the callers wait on a stack.

* `step` is one step of the machine.  It comes to `Point.crash` where the text is taken apart at an
  offset that does not allow it.
* `act_spec` and `step_spec` say what a step does to the offset and to the `load`, the work that is
  left apart from the bytes ahead.  A byte that is passed is an ASCII character, and adds less than
  9 to the load; any other step takes from it.
* `State.Sound.reaches`: the offset stays on a boundary, so the machine never crashes.
* `work_lt` and `run_eq_of_reaches`: each step takes from the work that is left, bytes included, so
  a run that is longer than this comes to its end.
-/

namespace Piecework.Expr.Machine

/-! ## States -/

/-- Where the machine stands. -/
inductive Point where
  /-- In front of a phrase. -/
  | read (phrase : Phrase)
  /-- In front of a number. -/
  | number
  /-- In a number that starts at the offset. -/
  | digits (first : Nat) (seen : Bool)
  /-- Behind an expression in parentheses. -/
  | closing (t : Tree)
  /-- Behind the whole expression. -/
  | ending (t : Tree)
  /-- At the end of a call. -/
  | give (outcome : Except ParseError Tree)
  /-- The text was taken apart where it cannot be. -/
  | crash

/-- A caller that waits for a tree: what it reads, and what it has read so far. -/
inductive Frame where
  | expression
  | sums (op : Operator) (left : Tree)
  | term
  | products (op : Operator) (left : Tree)
  | negation
  | parentheses
  | whole

structure State where
  point : Point
  offset : Nat
  stack : List Frame

/-- A caller goes on with the tree that it waited for. -/
def Frame.resume : Frame → Tree → Point
  | expression, t => .read (.sums t)
  | sums op left, t => .read (.sums (.node op left t))
  | term, t => .read (.products t)
  | products op left, t => .read (.products (.node op left t))
  | negation, t => .give (.ok (negate t))
  | parentheses, t => .closing t
  | whole, t => .ending t

/-- White space is passed here. -/
def Point.skips : Point → Bool
  | read (.sums _) | read (.products _) | read .factor | closing _ | ending _ => true
  | _ => false

/-- What is read to its end, unlike a chain that goes on. -/
inductive Call where
  | expression
  | term
  | factor
  | number

/-- Where a call starts. -/
def Call.point : Call → Point
  | expression => .read .expression
  | term => .read .term
  | factor => .read .factor
  | number => .number

/-- What the parser makes of a call at a cursor. -/
def Call.parse (c : Cursor) : Call → Except ParseError (Tree × Cursor)
  | expression => (Expr.expression c).map Subtype.val
  | term => (Expr.term c).map Subtype.val
  | factor => (Expr.factor c).map Subtype.val
  | number => (Expr.number c).map Subtype.val

/-! ## Steps -/

/-- The number that a text stands for. -/
def numeral (text : String) : Except ParseError Tree :=
  match Decimal.literal? text.toList with
  | none => .error (.invalidNumber text)
  | some v => .ok (.leaf v)

section Steps

variable (s : String)

/-- There is no operand at the offset. -/
def missing (p : Nat) : Point :=
  match current? s p with
  | none => .crash
  | some found => .give (.error (.expectedOperand found p))

/-- The number between two offsets. -/
def literal (first p : Nat) : Point :=
  match slice? s first p with
  | none => .crash
  | some text => .give (numeral text)

/-- Nothing may follow the whole expression. -/
def ended (t : Tree) (p : Nat) : Point :=
  match current? s p with
  | none => .crash
  | some none => .give (.ok t)
  | some (some found) => .give (.error (.trailingInput found p))

/-- A step where no white space is passed. -/
def act : State → Option State
  | ⟨.read .expression, p, stack⟩ => some ⟨.read .term, p, .expression :: stack⟩
  | ⟨.read (.sums left), p, stack⟩ =>
    match sumOperator? (byteAt? s p) with
    | none => some ⟨.give (.ok left), p, stack⟩
    | some op => some ⟨.read .term, p + 1, .sums op left :: stack⟩
  | ⟨.read .term, p, stack⟩ => some ⟨.read .factor, p, .term :: stack⟩
  | ⟨.read (.products left), p, stack⟩ =>
    match productOperator? (byteAt? s p) with
    | none => some ⟨.give (.ok left), p, stack⟩
    | some op => some ⟨.read .factor, p + 1, .products op left :: stack⟩
  | ⟨.read .factor, p, stack⟩ =>
    if byteAt? s p = some '-' then some ⟨.read .factor, p + 1, .negation :: stack⟩
    else if byteAt? s p = some '(' then some ⟨.read .expression, p + 1, .parentheses :: stack⟩
    else if (byteAt? s p).any isNumeric then some ⟨.number, p, stack⟩
    else some ⟨missing s p, p, stack⟩
  | ⟨.number, p, stack⟩ => some ⟨.digits p false, p, stack⟩
  | ⟨.digits first seen, p, stack⟩ =>
    if byteAt? s p = some '.' ∧ seen then
      some ⟨.give (.error (.multipleDecimalPoints p)), p, stack⟩
    else if (byteAt? s p).any isNumeric then
      some ⟨.digits first (seen || byteAt? s p == some '.'), p + 1, stack⟩
    else some ⟨literal s first p, p, stack⟩
  | ⟨.closing t, p, stack⟩ =>
    if byteAt? s p = some ')' then some ⟨.give (.ok t), p + 1, stack⟩
    else some ⟨.give (.error (.unclosedParen p)), p, stack⟩
  | ⟨.ending t, p, stack⟩ => some ⟨ended s t p, p, stack⟩
  | ⟨.give (.ok t), p, frame :: stack⟩ => some ⟨frame.resume t, p, stack⟩
  | ⟨.give (.error e), p, _ :: stack⟩ => some ⟨.give (.error e), p, stack⟩
  | ⟨.give _, _, []⟩ => none
  | ⟨.crash, _, _⟩ => none

/-- One step of the machine, if it has not halted. -/
def step (x : State) : Option State :=
  if x.point.skips ∧ (byteAt? s x.offset).any isSpace then some { x with offset := x.offset + 1 }
  else act s x

/-- A text of white space is refused at once; any other one is read from its front. -/
def start : State :=
  if Text.blankText s then ⟨.give (.error .empty), 0, []⟩ else ⟨.read .expression, 0, [.whole]⟩

/-- The machine gets from one state to another. -/
def Reaches : State → State → Prop := Relation.ReflTransGen fun x y => step s x = some y

/-- As many steps, or fewer if the machine halts before. -/
def run : Nat → State → State
  | 0, x => x
  | n + 1, x =>
    match step s x with
    | none => x
    | some y => run n y

end Steps

/-! ## What a step does -/

section Effects

variable {s : String} {x y : State}

/-- The work that is left at a point.  A call has more of it than what it calls. -/
def Point.load : Point → Nat
  | read .expression => 10
  | read .term => 7
  | read .factor => 4
  | number => 3
  | read (.sums _) | read (.products _) | digits .. | closing _ | ending _ => 2
  | give _ => 1
  | crash => 0

/-- The work that is left, apart from the bytes ahead. -/
def State.load (x : State) : Nat := x.point.load + 2 * x.stack.length

/-- What a step does to the offset and to the load. -/
inductive Moves (s : String) (x y : State) : Prop where
  /-- An ASCII character is passed. -/
  | pass (hascii : Ascii (byteAt? s x.offset))
      (hoffset : y.offset = x.offset + 1) (hload : y.load < x.load + 9)
  | stay (hoffset : y.offset = x.offset) (hload : y.load < x.load)

/-- The point allows all that will be done there with the text. -/
def Point.Fine (s : String) (p : Nat) : Point → Prop
  | digits first _ => first ≤ p ∧ Boundary s first
  | crash => False
  | _ => True

/-- The text can be taken apart wherever this is done. -/
structure State.Sound (s : String) (x : State) : Prop where
  boundary : Boundary s x.offset
  fine : x.point.Fine s x.offset

/-! ### Points -/

theorem exists_missing {p : Nat} (h : Boundary s p) :
    ∃ found, missing s p = .give (.error (.expectedOperand found p)) := by
  unfold missing
  split
  · rename_i hnone
    exact absurd h (current?_eq_none hnone)
  · exact ⟨_, rfl⟩

theorem exists_literal {first p : Nat} (hle : first ≤ p) (hfirst : Boundary s first)
    (hp : Boundary s p) : ∃ outcome, literal s first p = .give outcome := by
  unfold literal
  split
  · rename_i hnone
    exact absurd ⟨hle, hfirst, hp⟩ (slice?_eq_none hnone)
  · exact ⟨_, rfl⟩

theorem exists_ended {p : Nat} (h : Boundary s p) (t : Tree) :
    ∃ outcome, ended s t p = .give outcome := by
  unfold ended
  split
  · rename_i hnone
    exact absurd h (current?_eq_none hnone)
  · exact ⟨_, rfl⟩
  · exact ⟨_, rfl⟩

theorem Frame.resume_spec (frame : Frame) (t : Tree) (s : String) (p : Nat) :
    (frame.resume t).load ≤ 2 ∧ (frame.resume t).Fine s p := by
  cases frame <;> simp [resume, Point.load, Point.Fine]

/-! ### Steps -/

/-- A call, behind which the caller goes on. -/
theorem Moves.call {q : Point} {frame : Frame} (h : q.load + 2 < x.point.load) :
    Moves s x ⟨q, x.offset, frame :: x.stack⟩ := by
  refine .stay rfl ?_
  simp only [State.load, List.length_cons]
  omega

/-- A call behind a character. -/
theorem Moves.passCall {q : Point} {frame : Frame}
    (hascii : Ascii (byteAt? s x.offset))
    (h : q.load + 2 < x.point.load + 9) : Moves s x ⟨q, x.offset + 1, frame :: x.stack⟩ := by
  refine .pass hascii rfl ?_
  simp only [State.load, List.length_cons]
  omega

theorem Moves.turn {q : Point} (h : q.load < x.point.load) : Moves s x ⟨q, x.offset, x.stack⟩ :=
  .stay rfl (Nat.add_lt_add_right h _)

theorem Moves.passTurn {q : Point} (hascii : Ascii (byteAt? s x.offset))
    (h : q.load < x.point.load + 9) : Moves s x ⟨q, x.offset + 1, x.stack⟩ := by
  refine .pass hascii rfl ?_
  simp only [State.load]
  omega

/-- A step that passes no white space stays sound. -/
theorem act_spec (hx : x.Sound s) (h : act s x = some y) :
    Moves s x y ∧ y.point.Fine s y.offset := by
  obtain ⟨point, p, stack⟩ := x
  obtain ⟨hboundary, hfine⟩ := hx
  cases point with
  | read phrase =>
    cases phrase with
    | expression | term =>
      cases h
      exact ⟨.call (by simp [Point.load]), trivial⟩
    | sums left =>
      simp only [act] at h
      split at h
      · cases h
        exact ⟨.turn (by simp [Point.load]), trivial⟩
      · rename_i op hop
        cases h
        exact ⟨.passCall (ascii_of_sumOperator? hop) (by simp [Point.load]), trivial⟩
    | products left =>
      simp only [act] at h
      split at h
      · cases h
        exact ⟨.turn (by simp [Point.load]), trivial⟩
      · rename_i op hop
        cases h
        exact ⟨.passCall (ascii_of_productOperator? hop) (by simp [Point.load]), trivial⟩
    | factor =>
      simp only [act] at h
      split_ifs at h with hminus hparen hnumeric
      · cases h
        exact ⟨.passCall ⟨_, hminus, by decide⟩ (by simp [Point.load]), trivial⟩
      · cases h
        exact ⟨.passCall ⟨_, hparen, by decide⟩ (by simp [Point.load]), trivial⟩
      · cases h
        exact ⟨.turn (by simp [Point.load]), trivial⟩
      · obtain ⟨found, hfound⟩ := exists_missing hboundary
        rw [hfound] at h
        cases h
        exact ⟨.turn (by simp [Point.load]), trivial⟩
  | number =>
    cases h
    exact ⟨.turn (by simp [Point.load]), le_refl _, hboundary⟩
  | digits first seen =>
    simp only [act] at h
    split_ifs at h with hpoint hnumeric
    · cases h
      exact ⟨.turn (by simp [Point.load]), trivial⟩
    · cases h
      exact ⟨.passTurn (ascii_of_any hnumeric lt_of_isNumeric) (by simp [Point.load]),
        Nat.le_succ_of_le hfine.1, hfine.2⟩
    · obtain ⟨outcome, houtcome⟩ := exists_literal hfine.1 hfine.2 hboundary
      rw [houtcome] at h
      cases h
      exact ⟨.turn (by simp [Point.load]), trivial⟩
  | closing t =>
    simp only [act] at h
    split_ifs at h with hclose
    · cases h
      exact ⟨.passTurn ⟨_, hclose, by decide⟩ (by simp [Point.load]), trivial⟩
    · cases h
      exact ⟨.turn (by simp [Point.load]), trivial⟩
  | ending t =>
    obtain ⟨outcome, houtcome⟩ := exists_ended hboundary t
    simp only [act, houtcome] at h
    cases h
    exact ⟨.turn (by simp [Point.load]), trivial⟩
  | give outcome =>
    cases stack with
    | nil => cases outcome <;> cases h
    | cons frame stack =>
      cases outcome with
      | ok t =>
        cases h
        obtain ⟨hload, hresume⟩ := frame.resume_spec t s p
        have hgive : (Point.give (.ok t)).load = 1 := rfl
        refine ⟨.stay rfl ?_, hresume⟩
        simp only [State.load, hgive, List.length_cons]
        omega
      | error e =>
        cases h
        refine ⟨.stay rfl ?_, trivial⟩
        simp only [State.load, Point.load, List.length_cons]
        omega
  | crash => exact absurd hfine id

/-- No step leaves what is sound. -/
theorem step_spec (hx : x.Sound s) (h : step s x = some y) : Moves s x y ∧ y.Sound s := by
  have hspec : Moves s x y ∧ y.point.Fine s y.offset := by
    unfold step at h
    split_ifs at h with hspace
    · cases h
      refine ⟨.passTurn (ascii_of_any hspace.2 lt_of_isSpace) (by omega), ?_⟩
      obtain ⟨point, p, stack⟩ := x
      cases point with
      | crash => exact hx.fine
      | digits => cases hspace.1
      | _ => trivial
    · exact act_spec hx h
  obtain ⟨hmoves, hfine⟩ := hspec
  refine ⟨hmoves, ?_, hfine⟩
  cases hmoves with
  | pass hascii hoffset =>
    rw [hoffset]
    exact hx.boundary.succ hascii
  | stay hoffset =>
    rw [hoffset]
    exact hx.boundary

theorem Moves.offset_le (h : Moves s x y) : x.offset ≤ y.offset := by
  cases h with
  | pass _ hoffset => omega
  | stay hoffset => exact hoffset.ge

/-- The work that is left.  A byte ahead counts as much as passing it may add. -/
def State.work (s : String) (x : State) : Nat := 9 * (s.utf8ByteSize - x.offset) + x.load

theorem work_lt (hx : x.Sound s) (h : step s x = some y) : y.work s < x.work s := by
  obtain ⟨hmoves, hy⟩ := step_spec hx h
  have hle := hy.boundary.le
  cases hmoves with
  | pass _ hoffset hload =>
    unfold State.work
    omega
  | stay hoffset hload =>
    unfold State.work
    omega

/-! ## Runs -/

theorem sound_start (s : String) : (start s).Sound s := by
  unfold start
  split_ifs
  · exact ⟨String.Pos.Raw.isValid_zero, trivial⟩
  · exact ⟨String.Pos.Raw.isValid_zero, trivial⟩

/-- The text can be taken apart along the whole run. -/
theorem State.Sound.reaches (hx : x.Sound s) (h : Reaches s x y) : y.Sound s := by
  induction h with
  | refl => exact hx
  | tail _ hstep ih => exact (step_spec ih hstep).2

/-- A run that is long enough comes to the end of all others.  The induction is on the length, and
each step takes from the work that is left. -/
theorem run_eq_of_reaches (hx : x.Sound s) (h : Reaches s x y) (hy : step s y = none) {n : Nat}
    (hn : x.work s ≤ n) : run s n x = y := by
  induction n generalizing x with
  | zero =>
    rcases h.cases_head with rfl | ⟨x', hstep, -⟩
    · rfl
    · have hlt := work_lt hx hstep
      omega
  | succ n ih =>
    rcases h.cases_head with rfl | ⟨x', hstep, hrest⟩
    · rw [run, hy]
    · have hlt := work_lt hx hstep
      rw [run, hstep]
      exact ih (step_spec hx hstep).2 hrest (by omega)

end Effects

end Piecework.Expr.Machine
