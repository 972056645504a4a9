import Piecework.Proofs.Expr.Machine

/-!
# The calls of the machine

Whatever the parser reads, the machine reads in the same way, below any stack of callers: a call
ends with the stack on which it started, and in between only adds to it.  `Calls` is such a run.

* `Derives.calls` and `Fails.calls`: a phrase that is read, or cannot be read, is a call that gives
  the tree or the error.  Both go by induction on how the parser does it.
* `follows_call`: each call ends as the parser does there, and further on if it gives a tree.
* `reaches_parse`: the whole run ends with the outcome of `parse`.
* `reads_safely` puts this together with what holds of every state of the run.
-/

namespace Piecework.Expr

open Machine

namespace Machine

variable {s : String} {x y : State} {k : List Frame} {q : Point} {frame : Frame} {p p' : Nat}

/-! ## Runs inside a call -/

/-- The call on top of the stack has not ended. -/
def Inside (k : List Frame) (x : State) : Prop :=
  k <:+ x.stack ∧ (x.stack = k → ∀ outcome, x.point ≠ .give outcome)

/-- A run inside the call on top of the stack, up to the end of the call or less far. -/
def Calls (s : String) (k : List Frame) : State → State → Prop :=
  Relation.ReflTransGen fun x y => Inside k x ∧ step s x = some y

theorem Calls.reaches (h : Calls s k x y) : Reaches s x y :=
  Relation.ReflTransGen.mono (fun _ _ h => h.2) _ _ h

/-- Other callers are on top of the stack. -/
theorem inside_cons : Inside k ⟨q, p, frame :: k⟩ :=
  ⟨List.suffix_cons frame k, fun h => absurd h (List.cons_ne_self frame k)⟩

theorem Inside.of_cons (h : Inside (frame :: k) x) : Inside k x := by
  obtain ⟨hsuffix, -⟩ := h
  refine ⟨(List.suffix_cons frame k).trans hsuffix, ?_⟩
  intro heq
  have hlength := hsuffix.length_le
  rw [heq, List.length_cons] at hlength
  omega

/-- What is inside a call is inside its caller. -/
theorem Calls.of_cons (h : Calls s (frame :: k) x y) : Calls s k x y :=
  Relation.ReflTransGen.mono (fun _ _ h => ⟨h.1.of_cons, h.2⟩) _ _ h

/-- The call that stands at the point has not ended. -/
theorem inside_of_ne_give (h : ∀ outcome, q ≠ .give outcome) : Inside k ⟨q, p, k⟩ :=
  ⟨List.suffix_rfl, fun _ => h⟩

theorem step_eq_act (h : x.point.skips = false) : step s x = act s x := by
  simp [step, h]

/-- A call gives a tree, and the caller goes on with it. -/
theorem Calls.resume {t : Tree} (hcall : Calls s k x ⟨q, p, frame :: k⟩)
    (h : Calls s (frame :: k) ⟨q, p, frame :: k⟩ ⟨.give (.ok t), p', frame :: k⟩) :
    Calls s k x ⟨frame.resume t, p', k⟩ :=
  hcall.trans (h.of_cons.tail ⟨inside_cons, step_eq_act rfl⟩)

/-- A call gives an error, and so does the caller. -/
theorem Calls.refuse {e : ParseError} (hcall : Calls s k x ⟨q, p, frame :: k⟩)
    (h : Calls s (frame :: k) ⟨q, p, frame :: k⟩ ⟨.give (.error e), p', frame :: k⟩) :
    Calls s k x ⟨.give (.error e), p', k⟩ :=
  hcall.trans (h.of_cons.tail ⟨inside_cons, step_eq_act rfl⟩)

/-! ## White space and tokens -/

theorem ne_give_of_skips (hq : q.skips = true) (outcome : Except ParseError Tree) :
    q ≠ .give outcome := by
  rintro rfl
  cases hq

/-- White space is passed byte by byte.  The induction is on the text behind the cursor. -/
theorem calls_skip (hq : q.skips = true) {c : Cursor} (hc : c.Within s) :
    Calls s k ⟨q, c.position, k⟩ ⟨q, c.skip.position, k⟩ := by
  obtain ⟨cs, p⟩ := c
  induction cs generalizing p with
  | nil => exact .refl
  | cons x rest ih =>
    by_cases hspace : isSpace x = true
    · have hskip : Cursor.skip ⟨x :: rest, p⟩ = Cursor.skip ⟨rest, p + x.utf8Size⟩ := if_pos hspace
      have hnext : Cursor.Within ⟨rest, p + x.utf8Size⟩ s := hc.advance (x := x) rfl
      have hany : (byteAt? s p).any isSpace = true := (hc.any_byteAt? lt_of_isSpace).trans hspace
      have hstep : step s ⟨q, p, k⟩ = some ⟨q, p + x.utf8Size, k⟩ := by
        rw [step, if_pos ⟨hq, hany⟩, utf8Size_of_lt (lt_of_isSpace hspace)]
      rw [hskip]
      exact .head ⟨inside_of_ne_give (ne_give_of_skips hq), hstep⟩ (ih _ hnext)
    · have hskip : Cursor.skip ⟨x :: rest, p⟩ = ⟨x :: rest, p⟩ := if_neg hspace
      rw [hskip]
      exact .refl

/-- Behind white space the machine does something else. -/
theorem step_skip {c : Cursor} (hc : c.Within s) :
    step s ⟨q, c.skip.position, k⟩ = act s ⟨q, c.skip.position, k⟩ := by
  have hany : (byteAt? s c.skip.position).any isSpace = false := by
    rw [hc.skip.any_byteAt? lt_of_isSpace]
    cases hpeek : c.skip.peek with
    | none => rfl
    | some x => exact c.flush_skip x hpeek
  rw [step, if_neg]
  rw [hany]
  exact fun h => Bool.false_ne_true h.2

/-- Where white space is passed, the machine does what it does behind it. -/
theorem calls_act (hq : q.skips = true) {c : Cursor} (hc : c.Within s)
    (h : act s ⟨q, c.skip.position, k⟩ = some y) : Calls s k ⟨q, c.position, k⟩ y :=
  (calls_skip hq hc).tail ⟨inside_of_ne_give (ne_give_of_skips hq), (step_skip hc).trans h⟩

section Tokens

variable {c : Cursor} {l : Tree} {op : Operator} (hc : c.Within s)

include hc

theorem calls_sums_none (hop : sumOperator? c.skip.peek = none) :
    Calls s k ⟨.read (.sums l), c.position, k⟩ ⟨.give (.ok l), c.skip.position, k⟩ := by
  apply calls_act rfl hc
  simp only [act, hc.skip.operator_byteAt? ascii_of_sumOperator?, hop]

theorem calls_sums_some (hop : sumOperator? c.skip.peek = some op) :
    Calls s k ⟨.read (.sums l), c.position, k⟩
      ⟨.read .term, c.skip.advance.position, .sums op l :: k⟩ := by
  obtain ⟨x, hpeek, hx⟩ := ascii_of_sumOperator? hop
  apply calls_act rfl hc
  simp only [act, hc.skip.operator_byteAt? ascii_of_sumOperator?, hop,
    Cursor.position_advance_of_lt hpeek hx]

theorem calls_products_none (hop : productOperator? c.skip.peek = none) :
    Calls s k ⟨.read (.products l), c.position, k⟩ ⟨.give (.ok l), c.skip.position, k⟩ := by
  apply calls_act rfl hc
  simp only [act, hc.skip.operator_byteAt? ascii_of_productOperator?, hop]

theorem calls_products_some (hop : productOperator? c.skip.peek = some op) :
    Calls s k ⟨.read (.products l), c.position, k⟩
      ⟨.read .factor, c.skip.advance.position, .products op l :: k⟩ := by
  obtain ⟨x, hpeek, hx⟩ := ascii_of_productOperator? hop
  apply calls_act rfl hc
  simp only [act, hc.skip.operator_byteAt? ascii_of_productOperator?, hop,
    Cursor.position_advance_of_lt hpeek hx]

theorem calls_minus (hpeek : c.skip.peek = some '-') :
    Calls s k ⟨.read .factor, c.position, k⟩
      ⟨.read .factor, c.skip.advance.position, .negation :: k⟩ := by
  have hbyte := (hc.skip.byteAt?_eq_some_iff (b := '-') (by decide)).2 hpeek
  apply calls_act rfl hc
  rw [act, if_pos hbyte, Cursor.position_advance_of_lt hpeek (by decide)]

theorem calls_open (hpeek : c.skip.peek = some '(') :
    Calls s k ⟨.read .factor, c.position, k⟩
      ⟨.read .expression, c.skip.advance.position, .parentheses :: k⟩ := by
  have hbyte := (hc.skip.byteAt?_eq_some_iff (b := '(') (by decide)).2 hpeek
  apply calls_act rfl hc
  rw [act, hbyte, if_neg (by decide), if_pos rfl,
    Cursor.position_advance_of_lt hpeek (by decide)]

theorem calls_close (hpeek : c.skip.peek = some ')') :
    Calls s k ⟨.closing l, c.position, k⟩ ⟨.give (.ok l), c.skip.advance.position, k⟩ := by
  have hbyte := (hc.skip.byteAt?_eq_some_iff (b := ')') (by decide)).2 hpeek
  apply calls_act rfl hc
  rw [act, if_pos hbyte, Cursor.position_advance_of_lt hpeek (by decide)]

theorem calls_unclosed (hpeek : c.skip.peek ≠ some ')') :
    Calls s k ⟨.closing l, c.position, k⟩
      ⟨.give (.error (.unclosedParen c.skip.position)), c.skip.position, k⟩ := by
  have hbyte := mt (hc.skip.byteAt?_eq_some_iff (b := ')') (by decide)).1 hpeek
  apply calls_act rfl hc
  rw [act, if_neg hbyte]

/-- Neither a minus nor a parenthesis is next. -/
theorem act_other (hnot : ∀ x, c.peek = some x → x ≠ '-' ∧ x ≠ '(') :
    act s ⟨.read .factor, c.position, k⟩ =
      if c.peek.any isNumeric then some ⟨.number, c.position, k⟩
      else some ⟨.give (.error (.expectedOperand c.peek c.position)), c.position, k⟩ := by
  have hminus : byteAt? s c.position ≠ some '-' := by
    rw [ne_eq, hc.byteAt?_eq_some_iff (by decide)]
    exact fun hpeek => (hnot _ hpeek).1 rfl
  have hopen : byteAt? s c.position ≠ some '(' := by
    rw [ne_eq, hc.byteAt?_eq_some_iff (by decide)]
    exact fun hpeek => (hnot _ hpeek).2 rfl
  rw [act, if_neg hminus, if_neg hopen, hc.any_byteAt? lt_of_isNumeric, missing, hc.current?]

/-- A number is next. -/
theorem calls_numeric {x : Char} (hpeek : c.skip.peek = some x) (hx : isNumeric x = true) :
    Calls s k ⟨.read .factor, c.position, k⟩ ⟨.number, c.skip.position, k⟩ := by
  apply calls_act rfl hc
  have hnot : ∀ y, c.skip.peek = some y → y ≠ '-' ∧ y ≠ '(' := by
    intro y hy
    cases hpeek.symm.trans hy
    exact isNumeric_ne hx
  rw [act_other hc.skip hnot, hpeek, Option.any_some, if_pos hx]

/-- No operand is next. -/
theorem calls_operand (hnot : ∀ x, c.skip.peek = some x → x ≠ '-' ∧ x ≠ '(' ∧ isNumeric x = false) :
    Calls s k ⟨.read .factor, c.position, k⟩
      ⟨.give (.error (.expectedOperand c.skip.peek c.skip.position)), c.skip.position, k⟩ := by
  apply calls_act rfl hc
  have hany : c.skip.peek.any isNumeric = false := by
    cases hpeek : c.skip.peek with
    | none => rfl
    | some x => exact (hnot x hpeek).2.2
  rw [act_other hc.skip fun x hx => ⟨(hnot x hx).1, (hnot x hx).2.1⟩, hany,
    if_neg Bool.false_ne_true]

end Tokens

/-! ## Numbers -/

section Numbers

variable {c : Cursor} {first : Nat} {seen : Bool} {x : Char}

theorem act_digits_point (hc : c.Within s) (hpeek : c.peek = some '.') :
    act s ⟨.digits first true, c.position, k⟩ =
      some ⟨.give (.error (.multipleDecimalPoints c.position)), c.position, k⟩ := by
  have hbyte := (hc.byteAt?_eq_some_iff (b := '.') (by decide)).2 hpeek
  rw [act, if_pos ⟨hbyte, rfl⟩]

theorem act_digits_numeric (hc : c.Within s) (hpeek : c.peek = some x) (hx : isNumeric x = true)
    (hseen : ¬ (x = '.' ∧ seen = true)) :
    act s ⟨.digits first seen, c.position, k⟩ =
      some ⟨.digits first (seen || x == '.'), c.advance.position, k⟩ := by
  have hbyte := (hc.byteAt?_eq_some_iff (lt_of_isNumeric hx)).2 hpeek
  have hpoint : ¬ (byteAt? s c.position = some '.' ∧ seen = true) := by
    rw [hbyte, Option.some.injEq]
    exact hseen
  rw [act, if_neg hpoint, hbyte, Option.any_some, if_pos hx,
    Cursor.position_advance_of_lt hpeek (lt_of_isNumeric hx)]
  rfl

theorem act_digits_end (hc : c.Within s) (hpeek : c.peek.any isNumeric = false) :
    act s ⟨.digits first seen, c.position, k⟩ =
      some ⟨literal s first c.position, c.position, k⟩ := by
  have hany := hc.any_byteAt? lt_of_isNumeric
  have hpoint : byteAt? s c.position ≠ some '.' := by
    intro hbyte
    rw [hbyte, hpeek] at hany
    cases hany
  rw [act, if_neg (fun h => hpoint h.1), hany, hpeek, if_neg Bool.false_ne_true]

/-- Where the machine stands behind a run of digits and points. -/
def afterRun (s : String) (first : Nat) : Except ParseError (List Char × Cursor) → Point
  | .ok (_, n) => literal s first n.position
  | .error e => .give (.error e)

theorem Calls.digits {p : Nat} (h : act s ⟨.digits first seen, p, k⟩ = some y)
    (hrest : Calls s k y z) : Calls s k ⟨.digits first seen, p, k⟩ z :=
  .head ⟨inside_of_ne_give nofun, (step_eq_act rfl).trans h⟩ hrest

/-- Digits and points are passed as they are read.  The induction is on the text. -/
theorem calls_digits (k : List Frame) (first : Nat) (seen : Bool) {cs : List Char} {p : Nat}
    (hc : Cursor.Within ⟨cs, p⟩ s) :
    ∃ p', Calls s k ⟨.digits first seen, p, k⟩ ⟨afterRun s first (literalRun seen cs p), p', k⟩ ∧
      ∀ run n, literalRun seen cs p = .ok (run, n) → p' = n.position := by
  induction cs generalizing p seen with
  | nil =>
    refine ⟨p, .digits (act_digits_end hc rfl) .refl, ?_⟩
    intro run n hrun
    cases hrun
    rfl
  | cons x cs ih =>
    rw [literalRun]
    split_ifs with hpoint hnumeric
    · obtain ⟨rfl, rfl⟩ := hpoint
      refine ⟨p, .digits (act_digits_point hc rfl) .refl, ?_⟩
      intro run n hrun
      cases hrun
    · have hx : isNumeric x = true := by simpa [isNumeric] using hnumeric
      obtain ⟨p', hcalls, hp'⟩ := ih (seen || x == '.') (hc.advance (x := x) rfl)
      refine ⟨p', .digits (act_digits_numeric hc rfl hx hpoint) ?_, ?_⟩
      · cases hrun : literalRun (seen || x == '.') cs (p + x.utf8Size) with
        | error e =>
          rw [hrun] at hcalls
          exact hcalls
        | ok r =>
          rw [hrun] at hcalls
          exact hcalls
      · intro run n hrun
        cases hrun' : literalRun (seen || x == '.') cs (p + x.utf8Size) with
        | error e =>
          rw [hrun'] at hrun
          cases hrun
        | ok r =>
          rw [hrun'] at hrun
          cases hrun
          exact hp' _ _ hrun'
    · refine ⟨p, .digits (act_digits_end hc ?_) .refl, ?_⟩
      · simpa [isNumeric, Cursor.peek] using hnumeric
      · intro run n hrun
        cases hrun
        rfl

theorem calls_run {z : State} (h : Calls s k ⟨.digits c.position false, c.position, k⟩ z) :
    Calls s k ⟨.number, c.position, k⟩ z :=
  .head ⟨inside_of_ne_give nofun, step_eq_act rfl⟩ h

/-- A run of digits and points is what the number is taken from. -/
theorem calls_literal {run : List Char} {n : Cursor} (hc : c.Within s)
    (hrun : literalRun false c.rest c.position = .ok (run, n)) :
    n.Within s ∧ Calls s k ⟨.number, c.position, k⟩
      ⟨.give (numeral (String.ofList run)), n.position, k⟩ := by
  have hpasses : c.Passes run n := ⟨eq_append_of_literalRun hrun, (literalRun_elsewhere hrun).1⟩
  obtain ⟨p', hcalls, hp'⟩ := calls_digits k c.position false hc
  rw [hrun, afterRun, literal, hc.slice? hpasses, hp' run n hrun] at hcalls
  exact ⟨hc.passes hpasses, calls_run hcalls⟩

theorem calls_secondPoint {e : ParseError} (hc : c.Within s)
    (hrun : literalRun false c.rest c.position = .error e) :
    ∃ p', Calls s k ⟨.number, c.position, k⟩ ⟨.give (.error e), p', k⟩ := by
  obtain ⟨p', hcalls, -⟩ := calls_digits k c.position false hc
  rw [hrun, afterRun] at hcalls
  exact ⟨p', calls_run hcalls⟩

theorem numeral_ofList {run : List Char} {v : Float} (hv : Decimal.literal? run = some v) :
    numeral (String.ofList run) = .ok (.leaf v) := by
  rw [numeral, String.toList_ofList, hv]

theorem numeral_ofList_none {run : List Char} (hv : Decimal.literal? run = none) :
    numeral (String.ofList run) = .error (.invalidNumber (String.ofList run)) := by
  rw [numeral, String.toList_ofList, hv]

end Numbers

/-! ## Phrases -/

theorem calls_expression : Calls s k ⟨.read .expression, p, k⟩ ⟨.read .term, p, .expression :: k⟩ :=
  .single ⟨inside_of_ne_give nofun, step_eq_act rfl⟩

theorem calls_term : Calls s k ⟨.read .term, p, k⟩ ⟨.read .factor, p, .term :: k⟩ :=
  .single ⟨inside_of_ne_give nofun, step_eq_act rfl⟩

end Machine

/-- What can be read is a call that gives the tree. -/
theorem Derives.calls {s : String} {phrase : Phrase} {c n : Cursor} {t : Tree}
    (h : Derives phrase c t n) (hc : c.Within s) (k : List Frame) :
    n.Within s ∧ Calls s k ⟨.read phrase, c.position, k⟩ ⟨.give (.ok t), n.position, k⟩ := by
  induction h generalizing k with
  | expression _ _ ihl iht =>
    obtain ⟨hn, hterm⟩ := ihl hc (.expression :: k)
    obtain ⟨hm, hsums⟩ := iht hn k
    exact ⟨hm, (calls_expression.resume hterm).trans hsums⟩
  | sumsEnd hop => exact ⟨hc.skip, calls_sums_none hc hop⟩
  | @sumsNext c n m l r t op hop _ _ ihr iht =>
    obtain ⟨x, hx⟩ := exists_of_sumOperator? hop
    obtain ⟨hn, hterm⟩ := ihr (hc.skip.advance hx) (.sums op l :: k)
    obtain ⟨hm, hsums⟩ := iht hn k
    exact ⟨hm, ((calls_sums_some hc hop).resume hterm).trans hsums⟩
  | term _ _ ihl iht =>
    obtain ⟨hn, hfactor⟩ := ihl hc (.term :: k)
    obtain ⟨hm, hproducts⟩ := iht hn k
    exact ⟨hm, (calls_term.resume hfactor).trans hproducts⟩
  | productsEnd hop => exact ⟨hc.skip, calls_products_none hc hop⟩
  | @productsNext c n m l r t op hop _ _ ihr iht =>
    obtain ⟨x, hx⟩ := exists_of_productOperator? hop
    obtain ⟨hn, hfactor⟩ := ihr (hc.skip.advance hx) (.products op l :: k)
    obtain ⟨hm, hproducts⟩ := iht hn k
    exact ⟨hm, ((calls_products_some hc hop).resume hfactor).trans hproducts⟩
  | negation hp _ ih =>
    obtain ⟨hn, hfactor⟩ := ih (hc.skip.advance hp) (.negation :: k)
    exact ⟨hn, (calls_minus hc hp).resume hfactor⟩
  | parentheses hp _ hclose ih =>
    obtain ⟨hn, hexpression⟩ := ih (hc.skip.advance hp) (.parentheses :: k)
    have hend := (calls_open hc hp).resume hexpression
    exact ⟨hn.skip.advance hclose, hend.trans (calls_close hn hclose)⟩
  | number hnumber =>
    obtain ⟨x, hx, hnumeric⟩ := peek_of_number hnumber
    obtain ⟨run, v, hrun, hv, rfl⟩ := number_ok hnumber
    obtain ⟨hn, hcalls⟩ := calls_literal (k := k) hc.skip hrun
    rw [numeral_ofList hv] at hcalls
    exact ⟨hn, (calls_numeric hc hx hnumeric).trans hcalls⟩

/-- What cannot be read is a call that gives the error. -/
theorem Fails.calls {s : String} {phrase : Phrase} {c m : Cursor} {e : ParseError}
    (h : Fails phrase c e m) (hc : c.Within s) (k : List Frame) :
    ∃ p', Calls s k ⟨.read phrase, c.position, k⟩ ⟨.give (.error e), p', k⟩ := by
  induction h generalizing k with
  | expressionTerm _ ih =>
    obtain ⟨p', hterm⟩ := ih hc (.expression :: k)
    exact ⟨p', calls_expression.refuse hterm⟩
  | expressionSums hterm _ ih =>
    obtain ⟨hn, hcalls⟩ := hterm.calls hc (.expression :: k)
    obtain ⟨p', hsums⟩ := ih hn k
    exact ⟨p', (calls_expression.resume hcalls).trans hsums⟩
  | @sumsTerm c m l op e hop _ ih =>
    obtain ⟨x, hx⟩ := exists_of_sumOperator? hop
    obtain ⟨p', hterm⟩ := ih (hc.skip.advance hx) (.sums op l :: k)
    exact ⟨p', (calls_sums_some hc hop).refuse hterm⟩
  | @sumsNext c n m l r op e hop hterm _ ih =>
    obtain ⟨x, hx⟩ := exists_of_sumOperator? hop
    obtain ⟨hn, hcalls⟩ := hterm.calls (hc.skip.advance hx) (.sums op l :: k)
    obtain ⟨p', hsums⟩ := ih hn k
    exact ⟨p', ((calls_sums_some hc hop).resume hcalls).trans hsums⟩
  | termFactor _ ih =>
    obtain ⟨p', hfactor⟩ := ih hc (.term :: k)
    exact ⟨p', calls_term.refuse hfactor⟩
  | termProducts hfactor _ ih =>
    obtain ⟨hn, hcalls⟩ := hfactor.calls hc (.term :: k)
    obtain ⟨p', hproducts⟩ := ih hn k
    exact ⟨p', (calls_term.resume hcalls).trans hproducts⟩
  | @productsFactor c m l op e hop _ ih =>
    obtain ⟨x, hx⟩ := exists_of_productOperator? hop
    obtain ⟨p', hfactor⟩ := ih (hc.skip.advance hx) (.products op l :: k)
    exact ⟨p', (calls_products_some hc hop).refuse hfactor⟩
  | @productsNext c n m l r op e hop hfactor _ ih =>
    obtain ⟨x, hx⟩ := exists_of_productOperator? hop
    obtain ⟨hn, hcalls⟩ := hfactor.calls (hc.skip.advance hx) (.products op l :: k)
    obtain ⟨p', hproducts⟩ := ih hn k
    exact ⟨p', ((calls_products_some hc hop).resume hcalls).trans hproducts⟩
  | negation hp _ ih =>
    obtain ⟨p', hfactor⟩ := ih (hc.skip.advance hp) (.negation :: k)
    exact ⟨p', (calls_minus hc hp).refuse hfactor⟩
  | inside hp _ ih =>
    obtain ⟨p', hexpression⟩ := ih (hc.skip.advance hp) (.parentheses :: k)
    exact ⟨p', (calls_open hc hp).refuse hexpression⟩
  | unclosed hp hexpression hclose =>
    obtain ⟨hn, hcalls⟩ := hexpression.calls (hc.skip.advance hp) (.parentheses :: k)
    exact ⟨_, ((calls_open hc hp).resume hcalls).trans (calls_unclosed hn hclose)⟩
  | operand hnot => exact ⟨_, calls_operand hc hnot⟩
  | @secondPoint c run rest hrest hpoint =>
    obtain ⟨x, hx, hnumeric⟩ := hpoint.head ('.' :: rest)
    have hpeek : c.skip.peek = some x := by rw [Cursor.peek, hrest, hx]
    have hrun := literalRun_second hpoint rest c.skip.position
    rw [← hrest] at hrun
    obtain ⟨p', hcalls⟩ := calls_secondPoint hc.skip hrun
    exact ⟨p', (calls_numeric hc hpeek hnumeric).trans hcalls⟩
  | literal hx hnumeric hrun hv =>
    obtain ⟨-, hcalls⟩ := calls_literal (k := k) hc.skip hrun
    rw [numeral_ofList_none hv] at hcalls
    exact ⟨_, (calls_numeric hc hx hnumeric).trans hcalls⟩

namespace Machine

variable {s : String} {x y : State}

/-! ## Whole calls -/

/-- With less text ahead, more bytes are behind. -/
theorem position_lt {c n : Cursor} (hc : c.Within s) (hn : n.Within s)
    (h : n.rest.length < c.rest.length) : c.position < n.position := by
  obtain ⟨front, hrest, hposition⟩ := hc
  obtain ⟨front', hrest', hposition'⟩ := hn
  have hsame : front ++ c.rest = front' ++ n.rest := hrest.symm.trans hrest'
  have hlength := congrArg List.length hsame
  rw [List.length_append, List.length_append] at hlength
  obtain ⟨back, rfl⟩ : front <+: front' :=
    List.prefix_of_prefix_length_le ⟨_, hsame⟩ ⟨_, rfl⟩ (by omega)
  have hback : String.utf8Len back ≠ 0 := by
    rw [ne_eq, String.utf8Len_eq_zero]
    rintro rfl
    simp at hlength
    omega
  rw [hposition, hposition', String.utf8Len_append]
  omega

/-- The machine makes of a call what the parser made of it, and ends where the parser did, which is
further on in the text if there is a tree. -/
def Follows (s : String) (k : List Frame) (q : Point) (c : Cursor)
    (outcome : Except ParseError (Tree × Cursor)) : Prop :=
  ∃ p, Calls s k ⟨q, c.position, k⟩ ⟨.give (outcome.map Prod.fst), p, k⟩ ∧
    ∀ t n, outcome = .ok (t, n) → p = n.position ∧ c.position < n.position

theorem follows_ok {q : Point} {k : List Frame} {c n : Cursor} {t : Tree} (hc : c.Within s)
    (hlt : n.rest.length < c.rest.length)
    (h : n.Within s ∧ Calls s k ⟨q, c.position, k⟩ ⟨.give (.ok t), n.position, k⟩) :
    Follows s k q c (.ok (t, n)) := by
  refine ⟨n.position, h.2, ?_⟩
  intro t' n' heq
  cases heq
  exact ⟨rfl, position_lt hc h.1 hlt⟩

theorem follows_error {q : Point} {k : List Frame} {c : Cursor} {e : ParseError}
    (h : ∃ p, Calls s k ⟨q, c.position, k⟩ ⟨.give (.error e), p, k⟩) :
    Follows s k q c (.error e) := by
  obtain ⟨p, hcalls⟩ := h
  exact ⟨p, hcalls, nofun⟩

/-- The machine follows the parser of a phrase. -/
theorem follows_read {phrase : Phrase} {c : Cursor} (hc : c.Within s) (k : List Frame)
    {r : Except ParseError (Read Tree c)}
    (hok : ∀ {t n h}, r = .ok ⟨(t, n), h⟩ → Derives phrase c t n)
    (herror : ∀ {e}, r = .error e → ∃ m, Fails phrase c e m) :
    Follows s k (.read phrase) c (r.map Subtype.val) := by
  cases r with
  | ok r => exact follows_ok hc r.2 ((hok rfl).calls hc k)
  | error e =>
    obtain ⟨m, hfails⟩ := herror rfl
    exact follows_error (hfails.calls hc k)

theorem follows_number {c : Cursor} (hc : c.Within s) (k : List Frame) :
    Follows s k .number c ((number c).map Subtype.val) := by
  cases h : number c with
  | ok r =>
    obtain ⟨⟨t, n⟩, hn⟩ := r
    obtain ⟨run, v, hrun, hv, rfl⟩ := number_ok h
    have hcalls := calls_literal (k := k) hc hrun
    rw [numeral_ofList hv] at hcalls
    exact follows_ok hc hn hcalls
  | error e =>
    rcases number_error h with hrun | ⟨run, n, hrun, hv, rfl⟩
    · exact follows_error (calls_secondPoint hc hrun)
    · have hcalls := (calls_literal (k := k) hc hrun).2
      rw [numeral_ofList_none hv] at hcalls
      exact follows_error ⟨_, hcalls⟩

/-- The machine follows the parser call by call. -/
theorem follows_call {c : Cursor} (hc : c.Within s) (k : List Frame) (call : Call) :
    Follows s k call.point c (call.parse c) := by
  cases call with
  | expression => exact follows_read hc k derives_of_expression fails_of_expression
  | term => exact follows_read hc k ((derivable _).2.2.1 rfl) ((fallible _).2.2.1 rfl)
  | factor => exact follows_read hc k ((derivable _).2.2.2.2 rfl) ((fallible _).2.2.2.2 rfl)
  | number => exact follows_number hc k

/-! ## The whole run -/

/-- The whole run ends with what the parser makes of the text. -/
theorem reaches_parse (s : String) : ∃ p, Reaches s (start s) ⟨.give (parse s), p, []⟩ := by
  have hstart := Cursor.within_start s
  unfold start parse parseChars
  by_cases hblank : Text.blankText s = true
  · rw [if_pos hblank, if_pos (show Text.allBlank s.toList = true from hblank)]
    exact ⟨0, .refl⟩
  · rw [if_neg hblank, if_neg (show ¬ Text.allBlank s.toList = true from hblank)]
    cases h : expression (.start s.toList) with
    | error e =>
      obtain ⟨m, hfails⟩ := fails_of_expression h
      obtain ⟨p, hcalls⟩ := hfails.calls hstart [.whole]
      exact ⟨p, hcalls.reaches.tail (step_eq_act rfl)⟩
    | ok r =>
      obtain ⟨⟨t, n⟩, hn⟩ := r
      obtain ⟨hwithin, hcalls⟩ := (derives_of_expression h).calls hstart [.whole]
      have hending : Calls s [] ⟨.ending t, n.position, []⟩
          ⟨ended s t n.skip.position, n.skip.position, []⟩ := calls_act rfl hwithin rfl
      have hrun := (hcalls.reaches.tail (step_eq_act rfl)).trans hending.reaches
      rw [ended, hwithin.skip.current?] at hrun
      dsimp only
      cases hpeek : n.skip.peek with
      | none =>
        rw [hpeek] at hrun
        exact ⟨_, hrun⟩
      | some found =>
        rw [hpeek] at hrun
        exact ⟨_, hrun⟩

/-- Without a caller nothing is left to do. -/
theorem step_halted (outcome : Except ParseError Tree) (p : Nat) :
    step s ⟨.give outcome, p, []⟩ = none := by
  rw [step_eq_act rfl]
  cases outcome <;> rfl

theorem work_start_le (s : String) : (start s).work s ≤ 9 * s.utf8ByteSize + 12 := by
  unfold start
  split_ifs
  · simp only [State.work, State.load, Point.load, List.length_nil]
    omega
  · simp only [State.work, State.load, Point.load, List.length_cons, List.length_nil]
    omega

/-- The parser, looking at bytes, takes a text apart only at boundaries between its characters, and
ends on every text.  Nothing that the machine reaches is a crash; the offset, and the place where
a number starts, are boundaries within the text; no step goes back; each call ends with what the
parser makes of it there, and further on if this is a tree; and the whole run comes to the outcome
of `parse` within a number of steps that is linear in the length of the text. -/
theorem reads_safely (s : String) :
    (∀ x, Reaches s (start s) x →
      x.point ≠ .crash ∧ x.offset ≤ s.utf8ByteSize ∧ Boundary s x.offset ∧
      (∀ first seen, x.point = .digits first seen → first ≤ x.offset ∧ Boundary s first) ∧
      (∀ y, step s x = some y → x.offset ≤ y.offset) ∧
      (∀ call : Call, x.point = call.point → ∃ c : Cursor, c.Within s ∧ c.position = x.offset ∧
        ∃ p, Calls s x.stack x ⟨.give ((call.parse c).map Prod.fst), p, x.stack⟩ ∧
          ∀ t n, call.parse c = .ok (t, n) → p = n.position ∧ x.offset < p)) ∧
    ∃ p, ∀ n, 9 * s.utf8ByteSize + 12 ≤ n → run s n (start s) = ⟨.give (parse s), p, []⟩ := by
  constructor
  · intro x hreaches
    have hx := (sound_start s).reaches hreaches
    have hfine := hx.fine
    refine ⟨?_, hx.boundary.le, hx.boundary, ?_, ?_, ?_⟩
    · intro hcrash
      rw [hcrash] at hfine
      exact hfine
    · intro first seen hdigits
      rw [hdigits] at hfine
      exact hfine
    · exact fun y hstep => (step_spec hx hstep).1.offset_le
    · intro call hcall
      obtain ⟨c, hc, hposition⟩ := hx.boundary.exists_within
      obtain ⟨p, hcalls, hp⟩ := follows_call hc x.stack call
      rw [← hcall, hposition] at hcalls
      refine ⟨c, hc, hposition, p, hcalls, ?_⟩
      intro t n hparse
      obtain ⟨rfl, hlt⟩ := hp t n hparse
      exact ⟨rfl, hposition ▸ hlt⟩
  · obtain ⟨p, hreaches⟩ := reaches_parse s
    refine ⟨p, ?_⟩
    intro n hn
    exact run_eq_of_reaches (sound_start s) hreaches (step_halted _ p) ((work_start_le s).trans hn)

/-- In the middle of this text is a character of two bytes. -/
theorem accented_reads_safely :
    (∃ c : Cursor, c.Within "2*(3+é)" ∧ c.position = 0 ∧
        ∃ p, Calls "2*(3+é)" [.whole] ⟨.read .expression, 0, [.whole]⟩
            ⟨.give ((Call.expression.parse c).map Prod.fst), p, [.whole]⟩ ∧
          ∀ t n, Call.expression.parse c = .ok (t, n) → p = n.position ∧ 0 < p) ∧
      ∃ p, run "2*(3+é)" 84 (start "2*(3+é)") = ⟨.give (parse "2*(3+é)"), p, []⟩ := by
  obtain ⟨hreached, p, hrun⟩ := reads_safely "2*(3+é)"
  have hstart : start "2*(3+é)" = ⟨.read .expression, 0, [.whole]⟩ := by
    rw [start, if_neg (by decide)]
  obtain ⟨-, -, -, -, -, hcalls⟩ := hreached ⟨.read .expression, 0, [.whole]⟩ (hstart ▸ .refl)
  exact ⟨hcalls .expression rfl, p, hrun 84 (by decide)⟩

end Machine

end Piecework.Expr
