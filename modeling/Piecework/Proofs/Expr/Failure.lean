import Piecework.Proofs.Expr.Grammar

/-!
# Where the parser fails

A run of the parser that ends in an error, told step by step as `Derives` tells the successful
ones.  `Fails` has one constructor for each way in which one of the five parsers can fail, and
keeps the cursor at which it gives up, so that what holds of every failure is proved by induction,
without looking at the parser again.

* `fails_of_expression` turns an error of the parser into a failure.
* `Fails.refuses` goes back: the parser ends in the error of every failure.
* `literalRun_error` and `literalRun_second` say what a number with two points looks like.
-/

namespace Piecework.Expr

open Decimal (Digital)
open String (utf8Len utf8Len_cons)

/-! ## Numbers that cannot be read -/

/-- A digit or a point: what a number starts with, and what it goes on with. -/
def isNumeric (x : Char) : Bool := x == '.' || x.isDigit

theorem isNumeric_of_isDigit {x : Char} (h : x.isDigit = true) : isNumeric x = true := by
  simp [isNumeric, h]

/-- Digits that are read behind a point, or digits with one point among them. -/
def OnePoint (seen : Bool) (run : List Char) : Prop :=
  if seen = true then Digital run
  else ∃ ds fs, run = ds ++ '.' :: fs ∧ Digital ds ∧ Digital fs

/-- A run of digits and points ends in an error at its second point. -/
theorem literalRun_error {seen : Bool} {cs : List Char} {p : Nat} {e : ParseError}
    (h : literalRun seen cs p = .error e) :
    ∃ run rest, cs = run ++ '.' :: rest ∧ OnePoint seen run ∧
      e = .multipleDecimalPoints (p + utf8Len run) := by
  induction cs generalizing seen p with
  | nil => cases h
  | cons c cs ih =>
    rw [literalRun] at h
    split_ifs at h with hpoint hnumeric
    · -- this is the second point
      cases h
      refine ⟨[], cs, ?_, ?_, rfl⟩
      · rw [hpoint.1]
        rfl
      · simp [OnePoint, hpoint.2]
    · have hrest : literalRun (seen || c == '.') cs (p + c.utf8Size) = .error e := by
        cases hr : literalRun (seen || c == '.') cs (p + c.utf8Size) with
        | error e' =>
          rw [hr] at h
          exact h
        | ok r =>
          rw [hr] at h
          cases h
      obtain ⟨run, rest, hcs, hrun, he⟩ := ih hrest
      refine ⟨c :: run, rest, by rw [hcs]; rfl, ?_, ?_⟩
      · cases seen with
        | true =>
          have hc : c.isDigit = true := by
            simp only [and_true] at hpoint
            exact hnumeric.resolve_left hpoint
          exact Decimal.digital_cons.2 ⟨hc, hrun⟩
        | false =>
          by_cases hc : c = '.'
          · -- the first point: what follows are digits
            subst hc
            exact ⟨[], run, rfl, Decimal.digital_nil, hrun⟩
          · have hseen : (false || c == '.') = false := by simp [hc]
            rw [hseen] at hrun
            obtain ⟨ds, fs, hsplit, hds, hfs⟩ := hrun
            have hdigit := hnumeric.resolve_left hc
            exact ⟨c :: ds, fs, by rw [hsplit]; rfl, Decimal.digital_cons.2 ⟨hdigit, hds⟩, hfs⟩
      · rw [he, utf8Len_cons]
        congr 1
        omega

/-- What follows the second point makes no difference. -/
theorem literalRun_second {seen : Bool} {run : List Char} (h : OnePoint seen run)
    (rest : List Char) (p : Nat) :
    literalRun seen (run ++ '.' :: rest) p = .error (.multipleDecimalPoints (p + utf8Len run)) := by
  induction run generalizing seen p with
  | nil =>
    cases seen with
    | true => simp [literalRun]
    | false =>
      obtain ⟨ds, fs, hsplit, -⟩ := h
      cases ds <;> cases hsplit
  | cons c run ih =>
    -- whichever character comes first, the same error comes of what is behind it
    have hstep : ∀ seen', OnePoint seen' run → (seen || c == '.') = seen' →
        ¬(c = '.' ∧ seen = true) → (c = '.' ∨ c.isDigit = true) →
        literalRun seen (c :: run ++ '.' :: rest) p =
          .error (.multipleDecimalPoints (p + utf8Len (c :: run))) := by
      intro seen' hrun hseen hnot hnumeric
      rw [List.cons_append, literalRun, if_neg hnot, if_pos hnumeric, hseen,
        ih hrun (p + c.utf8Size), utf8Len_cons]
      show Except.error _ = Except.error _
      congr 2
      omega
    cases seen with
    | true =>
      obtain ⟨hdigit, hrun⟩ := Decimal.digital_cons.1 h
      have hne := Decimal.ne_point_of_isDigit hdigit
      exact hstep true hrun rfl (fun hc => hne hc.1) (.inr hdigit)
    | false =>
      obtain ⟨ds, fs, hsplit, hds, hfs⟩ := h
      cases ds with
      | nil =>
        cases hsplit
        exact hstep true hfs rfl (by simp) (.inl rfl)
      | cons d ds =>
        cases hsplit
        obtain ⟨hdigit, hds⟩ := Decimal.digital_cons.1 hds
        have hne := Decimal.ne_point_of_isDigit hdigit
        exact hstep false ⟨ds, fs, rfl, hds, hfs⟩ (by simp [hne]) (by simp) (.inr hdigit)

/-- A number cannot be read because of a second point, or because its digits have no finite
value. -/
theorem number_error {c : Cursor} {e : ParseError} (h : number c = .error e) :
    literalRun false c.rest c.position = .error e ∨
      ∃ run n, literalRun false c.rest c.position = .ok (run, n) ∧
        Decimal.literal? run = none ∧ e = .invalidNumber (String.ofList run) := by
  unfold number at h
  split at h
  · rename_i e' hrun
    cases h
    exact .inl hrun
  · rename_i run next hrun
    split at h
    · rename_i hv
      cases h
      exact .inr ⟨run, next, hrun, hv, rfl⟩
    · cases h

/-! ## Failures -/

/-- From the first cursor on, the phrase cannot be read: that ends in the error, at the second
cursor. -/
inductive Fails : Phrase → Cursor → ParseError → Cursor → Prop
  | expressionTerm {c m : Cursor} {e : ParseError} : Fails .term c e m → Fails .expression c e m
  | expressionSums {c n m : Cursor} {l : Tree} {e : ParseError} :
      Derives .term c l n → Fails (.sums l) n e m → Fails .expression c e m
  | sumsTerm {c m : Cursor} {l : Tree} {op : Operator} {e : ParseError} :
      sumOperator? c.skip.peek = some op → Fails .term c.skip.advance e m → Fails (.sums l) c e m
  | sumsNext {c n m : Cursor} {l r : Tree} {op : Operator} {e : ParseError} :
      sumOperator? c.skip.peek = some op → Derives .term c.skip.advance r n →
      Fails (.sums (.node op l r)) n e m → Fails (.sums l) c e m
  | termFactor {c m : Cursor} {e : ParseError} : Fails .factor c e m → Fails .term c e m
  | termProducts {c n m : Cursor} {l : Tree} {e : ParseError} :
      Derives .factor c l n → Fails (.products l) n e m → Fails .term c e m
  | productsFactor {c m : Cursor} {l : Tree} {op : Operator} {e : ParseError} :
      productOperator? c.skip.peek = some op → Fails .factor c.skip.advance e m →
      Fails (.products l) c e m
  | productsNext {c n m : Cursor} {l r : Tree} {op : Operator} {e : ParseError} :
      productOperator? c.skip.peek = some op → Derives .factor c.skip.advance r n →
      Fails (.products (.node op l r)) n e m → Fails (.products l) c e m
  | negation {c m : Cursor} {e : ParseError} :
      c.skip.peek = some '-' → Fails .factor c.skip.advance e m → Fails .factor c e m
  | inside {c m : Cursor} {e : ParseError} :
      c.skip.peek = some '(' → Fails .expression c.skip.advance e m → Fails .factor c e m
  | unclosed {c n : Cursor} {t : Tree} :
      c.skip.peek = some '(' → Derives .expression c.skip.advance t n →
      n.skip.peek ≠ some ')' → Fails .factor c (.unclosedParen n.skip.position) n.skip
  | operand {c : Cursor} :
      (∀ x, c.skip.peek = some x → x ≠ '-' ∧ x ≠ '(' ∧ isNumeric x = false) →
      Fails .factor c (.expectedOperand c.skip.peek c.skip.position) c.skip
  | secondPoint {c : Cursor} {run rest : List Char} :
      c.skip.rest = run ++ '.' :: rest → OnePoint false run →
      Fails .factor c (.multipleDecimalPoints (c.skip.position + utf8Len run))
        ⟨'.' :: rest, c.skip.position + utf8Len run⟩
  | literal {c n : Cursor} {run : List Char} {x : Char} :
      c.skip.peek = some x → isNumeric x = true →
      literalRun false c.skip.rest c.skip.position = .ok (run, n) →
      Decimal.literal? run = none → Fails .factor c (.invalidNumber (String.ofList run)) n

/-! ## From the parser to failures -/

section Errors

variable {c : Cursor} {e : ParseError}

theorem expression_error (h : expression c = .error e) :
    term c = .error e ∨ ∃ l n hn, term c = .ok ⟨(l, n), hn⟩ ∧ sums l n = .error e := by
  rw [expression] at h
  split at h
  · rename_i e' hterm
    cases h
    exact .inl hterm
  · rename_i l n hn hterm
    split at h
    · rename_i e' hsums
      cases h
      exact .inr ⟨l, n, hn, hterm, hsums⟩
    · cases h

theorem sums_error {l : Tree} (h : sums l c = .error e) :
    ∃ op, sumOperator? c.skip.peek = some op ∧ (term c.skip.advance = .error e ∨
      ∃ r n hn, term c.skip.advance = .ok ⟨(r, n), hn⟩ ∧ sums (.node op l r) n = .error e) := by
  rw [sums] at h
  split at h
  · cases h
  · rename_i op hop
    refine ⟨op, hop, ?_⟩
    dsimp only at h
    split at h
    · rename_i e' hterm
      cases h
      exact .inl hterm
    · rename_i r n hn hterm
      split at h
      · rename_i e' hsums
        cases h
        exact .inr ⟨r, n, hn, hterm, hsums⟩
      · cases h

theorem term_error (h : term c = .error e) :
    factor c = .error e ∨ ∃ l n hn, factor c = .ok ⟨(l, n), hn⟩ ∧ products l n = .error e := by
  rw [term] at h
  split at h
  · rename_i e' hfactor
    cases h
    exact .inl hfactor
  · rename_i l n hn hfactor
    split at h
    · rename_i e' hproducts
      cases h
      exact .inr ⟨l, n, hn, hfactor, hproducts⟩
    · cases h

theorem products_error {l : Tree} (h : products l c = .error e) :
    ∃ op, productOperator? c.skip.peek = some op ∧ (factor c.skip.advance = .error e ∨
      ∃ r n hn, factor c.skip.advance = .ok ⟨(r, n), hn⟩ ∧
        products (.node op l r) n = .error e) := by
  rw [products] at h
  split at h
  · cases h
  · rename_i op hop
    refine ⟨op, hop, ?_⟩
    dsimp only at h
    split at h
    · rename_i e' hfactor
      cases h
      exact .inl hfactor
    · rename_i r n hn hfactor
      split at h
      · rename_i e' hproducts
        cases h
        exact .inr ⟨r, n, hn, hfactor, hproducts⟩
      · cases h

theorem factor_error (h : factor c = .error e) :
    (c.skip.peek = some '-' ∧ factor c.skip.advance = .error e) ∨
    (c.skip.peek = some '(' ∧ expression c.skip.advance = .error e) ∨
    (∃ t n hn, c.skip.peek = some '(' ∧ expression c.skip.advance = .ok ⟨(t, n), hn⟩ ∧
      n.skip.peek ≠ some ')' ∧ e = .unclosedParen n.skip.position) ∨
    (∃ x, c.skip.peek = some x ∧ isNumeric x = true ∧ number c.skip = .error e) ∨
    ((∀ x, c.skip.peek = some x → x ≠ '-' ∧ x ≠ '(' ∧ isNumeric x = false) ∧
      e = .expectedOperand c.skip.peek c.skip.position) := by
  rw [factor] at h
  split at h
  · rename_i hp
    dsimp only at h
    split at h
    · rename_i e' hfactor
      cases h
      exact .inl ⟨hp, hfactor⟩
    · cases h
  · rename_i hp
    dsimp only at h
    split at h
    · rename_i e' hexpression
      cases h
      exact .inr (.inl ⟨hp, hexpression⟩)
    · rename_i t n hn hexpression
      split at h
      · cases h
      · rename_i hclose
        cases h
        exact .inr (.inr (.inl ⟨t, n, hn, hp, hexpression, hclose, rfl⟩))
  · rename_i hminus hparen
    split at h
    · rename_i hany
      obtain ⟨x, hx, hnumeric⟩ := (Option.any_eq_true _ _).1 hany
      split at h
      · rename_i e' hnumber
        cases h
        exact .inr (.inr (.inr (.inl ⟨x, hx, hnumeric, hnumber⟩)))
      · cases h
    · rename_i hany
      cases h
      refine .inr (.inr (.inr (.inr ⟨?_, rfl⟩)))
      intro x hx
      refine ⟨?_, ?_, ?_⟩
      · intro heq
        exact hminus (heq ▸ hx)
      · intro heq
        exact hparen (heq ▸ hx)
      · rw [hx, Option.any_some, Bool.not_eq_true] at hany
        exact hany

end Errors

/-- An error of each of the five parsers on a text of a given length is a failure. -/
def Fallible (k : Nat) : Prop :=
  (∀ {c e}, c.rest.length = k → expression c = .error e → ∃ m, Fails .expression c e m) ∧
  (∀ {l c e}, c.rest.length = k → sums l c = .error e → ∃ m, Fails (.sums l) c e m) ∧
  (∀ {c e}, c.rest.length = k → term c = .error e → ∃ m, Fails .term c e m) ∧
  (∀ {l c e}, c.rest.length = k → products l c = .error e → ∃ m, Fails (.products l) c e m) ∧
  (∀ {c e}, c.rest.length = k → factor c = .error e → ∃ m, Fails .factor c e m)

/-- The reader of a number gives up where it stands. -/
theorem fails_of_number {c : Cursor} {e : ParseError} {x : Char} (hx : c.skip.peek = some x)
    (hnumeric : isNumeric x = true) (h : number c.skip = .error e) : ∃ m, Fails .factor c e m := by
  rcases number_error h with hrun | ⟨run, n, hrun, hv, he⟩
  · obtain ⟨run, rest, hcs, hpoint, he⟩ := literalRun_error hrun
    rw [he]
    exact ⟨_, .secondPoint hcs hpoint⟩
  · rw [he]
    exact ⟨n, .literal hx hnumeric hrun hv⟩

/-- The induction follows the calls of the parsers, as for `derivable`. -/
theorem fallible (k : Nat) : Fallible k := by
  induction k using Nat.strongRecOn with
  | _ k ih =>
    have hfactor : ∀ {c e}, c.rest.length = k → factor c = .error e →
        ∃ m, Fails .factor c e m := by
      intro c e hk h
      rcases factor_error h with ⟨hp, hf⟩ | ⟨hp, he⟩ | ⟨t, n, hn, hp, hok, hclose, he⟩ |
        ⟨x, hx, hnumeric, hnumber⟩ | ⟨hnot, he⟩
      · have hlt := Cursor.length_next_lt hp
        obtain ⟨m, hm⟩ := (ih _ (by omega)).2.2.2.2 rfl hf
        exact ⟨m, .negation hp hm⟩
      · have hlt := Cursor.length_next_lt hp
        obtain ⟨m, hm⟩ := (ih _ (by omega)).1 rfl he
        exact ⟨m, .inside hp hm⟩
      · rw [he]
        exact ⟨n.skip, .unclosed hp (derives_of_expression hok) hclose⟩
      · exact fails_of_number hx hnumeric hnumber
      · rw [he]
        exact ⟨c.skip, .operand hnot⟩
    have hproducts : ∀ {l c e}, c.rest.length = k → products l c = .error e →
        ∃ m, Fails (.products l) c e m := by
      intro l c e hk h
      obtain ⟨op, hop, hf | ⟨r, n, hn, hok, hp⟩⟩ := products_error h
      · obtain ⟨x, hx⟩ := exists_of_productOperator? hop
        have hlt := Cursor.length_next_lt hx
        obtain ⟨m, hm⟩ := (ih _ (by omega)).2.2.2.2 rfl hf
        exact ⟨m, .productsFactor hop hm⟩
      · obtain ⟨x, hx⟩ := exists_of_productOperator? hop
        have hlt := Cursor.length_next_lt hx
        have hnext : n.rest.length < c.skip.advance.rest.length := hn
        obtain ⟨m, hm⟩ := (ih _ (by omega)).2.2.2.1 rfl hp
        exact ⟨m, .productsNext hop ((derivable _).2.2.2.2 rfl hok) hm⟩
    have hterm : ∀ {c e}, c.rest.length = k → term c = .error e → ∃ m, Fails .term c e m := by
      intro c e hk h
      rcases term_error h with hf | ⟨l, n, hn, hok, hp⟩
      · obtain ⟨m, hm⟩ := hfactor hk hf
        exact ⟨m, .termFactor hm⟩
      · have hnext : n.rest.length < c.rest.length := hn
        obtain ⟨m, hm⟩ := (ih _ (by omega)).2.2.2.1 rfl hp
        exact ⟨m, .termProducts ((derivable _).2.2.2.2 rfl hok) hm⟩
    have hsums : ∀ {l c e}, c.rest.length = k → sums l c = .error e →
        ∃ m, Fails (.sums l) c e m := by
      intro l c e hk h
      obtain ⟨op, hop, ht | ⟨r, n, hn, hok, hs⟩⟩ := sums_error h
      · obtain ⟨x, hx⟩ := exists_of_sumOperator? hop
        have hlt := Cursor.length_next_lt hx
        obtain ⟨m, hm⟩ := (ih _ (by omega)).2.2.1 rfl ht
        exact ⟨m, .sumsTerm hop hm⟩
      · obtain ⟨x, hx⟩ := exists_of_sumOperator? hop
        have hlt := Cursor.length_next_lt hx
        have hnext : n.rest.length < c.skip.advance.rest.length := hn
        obtain ⟨m, hm⟩ := (ih _ (by omega)).2.1 rfl hs
        exact ⟨m, .sumsNext hop ((derivable _).2.2.1 rfl hok) hm⟩
    refine ⟨?_, hsums, hterm, hproducts, hfactor⟩
    intro c e hk h
    rcases expression_error h with ht | ⟨l, n, hn, hok, hs⟩
    · obtain ⟨m, hm⟩ := hterm hk ht
      exact ⟨m, .expressionTerm hm⟩
    · have hnext : n.rest.length < c.rest.length := hn
      obtain ⟨m, hm⟩ := (ih _ (by omega)).2.1 rfl hs
      exact ⟨m, .expressionSums ((derivable _).2.2.1 rfl hok) hm⟩

/-- An error of the parser is a failure. -/
theorem fails_of_expression {c : Cursor} {e : ParseError} (h : expression c = .error e) :
    ∃ m, Fails .expression c e m :=
  (fallible c.rest.length).1 rfl h

/-! ## From failures to the parser -/

/-- The parser of a phrase ends in the error. -/
def Phrase.Refuses : Phrase → Cursor → ParseError → Prop
  | expression, c, e => Expr.expression c = .error e
  | sums l, c, e => Expr.sums l c = .error e
  | term, c, e => Expr.term c = .error e
  | products l, c, e => Expr.products l c = .error e
  | factor, c, e => Expr.factor c = .error e

namespace Phrase.Refuses

variable {c n : Cursor} {l r t : Tree} {op : Operator} {e : ParseError}

theorem expressionTerm (h : term.Refuses c e) : expression.Refuses c e := by
  show Expr.expression c = .error e
  have h' : Expr.term c = .error e := h
  rw [Expr.expression, h']

theorem expressionSums (hterm : term.Reads c l n) (h : (sums l).Refuses n e) :
    expression.Refuses c e := by
  obtain ⟨hn, hok⟩ := hterm
  have h' : Expr.sums l n = .error e := h
  show Expr.expression c = .error e
  rw [Expr.expression, hok]
  dsimp only
  rw [h']

theorem sumsTerm (hop : sumOperator? c.skip.peek = some op) (h : term.Refuses c.skip.advance e) :
    (sums l).Refuses c e := by
  have h' : Expr.term c.skip.advance = .error e := h
  show Expr.sums l c = .error e
  rw [Expr.sums]
  split
  · rename_i hop'
    exact absurd (hop'.symm.trans hop) (by simp)
  · dsimp only
    rw [h']

theorem sumsNext (hop : sumOperator? c.skip.peek = some op) (hterm : term.Reads c.skip.advance r n)
    (h : (sums (.node op l r)).Refuses n e) : (sums l).Refuses c e := by
  obtain ⟨hn, hok⟩ := hterm
  have h' : Expr.sums (.node op l r) n = .error e := h
  show Expr.sums l c = .error e
  rw [Expr.sums]
  split
  · rename_i hop'
    exact absurd (hop'.symm.trans hop) (by simp)
  · rename_i op' hop'
    cases hop.symm.trans hop'
    dsimp only
    rw [hok]
    dsimp only
    rw [h']

theorem termFactor (h : factor.Refuses c e) : term.Refuses c e := by
  show Expr.term c = .error e
  have h' : Expr.factor c = .error e := h
  rw [Expr.term, h']

theorem termProducts (hfactor : factor.Reads c l n) (h : (products l).Refuses n e) :
    term.Refuses c e := by
  obtain ⟨hn, hok⟩ := hfactor
  have h' : Expr.products l n = .error e := h
  show Expr.term c = .error e
  rw [Expr.term, hok]
  dsimp only
  rw [h']

theorem productsFactor (hop : productOperator? c.skip.peek = some op)
    (h : factor.Refuses c.skip.advance e) : (products l).Refuses c e := by
  have h' : Expr.factor c.skip.advance = .error e := h
  show Expr.products l c = .error e
  rw [Expr.products]
  split
  · rename_i hop'
    exact absurd (hop'.symm.trans hop) (by simp)
  · dsimp only
    rw [h']

theorem productsNext (hop : productOperator? c.skip.peek = some op)
    (hfactor : factor.Reads c.skip.advance r n) (h : (products (.node op l r)).Refuses n e) :
    (products l).Refuses c e := by
  obtain ⟨hn, hok⟩ := hfactor
  have h' : Expr.products (.node op l r) n = .error e := h
  show Expr.products l c = .error e
  rw [Expr.products]
  split
  · rename_i hop'
    exact absurd (hop'.symm.trans hop) (by simp)
  · rename_i op' hop'
    cases hop.symm.trans hop'
    dsimp only
    rw [hok]
    dsimp only
    rw [h']

theorem negation (hp : c.skip.peek = some '-') (h : factor.Refuses c.skip.advance e) :
    factor.Refuses c e := by
  have h' : Expr.factor c.skip.advance = .error e := h
  show Expr.factor c = .error e
  rw [Expr.factor]
  split
  · dsimp only
    rw [h']
  · rename_i hp'
    exact absurd (hp'.symm.trans hp) (by decide)
  · rename_i hnot _
    exact absurd hp hnot

/-- Behind an opening parenthesis there is an expression, or nothing that can be read. -/
theorem parentheses (hp : c.skip.peek = some '(')
    (h : expression.Refuses c.skip.advance e ∨
      expression.Reads c.skip.advance t n ∧ n.skip.peek ≠ some ')' ∧
        e = .unclosedParen n.skip.position) : factor.Refuses c e := by
  show Expr.factor c = .error e
  rw [Expr.factor]
  split
  · rename_i hp'
    exact absurd (hp'.symm.trans hp) (by decide)
  · dsimp only
    rcases h with h | ⟨⟨hn, hok⟩, hclose, he⟩
    · have h' : Expr.expression c.skip.advance = .error e := h
      rw [h']
    · rw [hok]
      dsimp only
      rw [if_neg hclose, he]
  · rename_i _ hnot
    exact absurd hp hnot

/-- Anything but a minus and a parenthesis starts a number or nothing. -/
theorem other (hnot : ∀ x, c.skip.peek = some x → x ≠ '-' ∧ x ≠ '(')
    (h : (∃ x, c.skip.peek = some x ∧ isNumeric x = true ∧ Expr.number c.skip = .error e) ∨
      (∀ x, c.skip.peek = some x → isNumeric x = false) ∧
        e = .expectedOperand c.skip.peek c.skip.position) : factor.Refuses c e := by
  show Expr.factor c = .error e
  rw [Expr.factor]
  split
  · rename_i hp
    exact absurd rfl (hnot _ hp).1
  · rename_i hp
    exact absurd rfl (hnot _ hp).2
  · rcases h with ⟨x, hx, hnumeric, hnumber⟩ | ⟨hother, he⟩
    · have hany : (c.skip.peek.any fun x => x == '.' || x.isDigit) = true := by
        rw [hx]
        exact hnumeric
      rw [if_pos hany, hnumber]
    · have hany : (c.skip.peek.any fun x => x == '.' || x.isDigit) = false := by
        cases hx : c.skip.peek with
        | none => rfl
        | some x => exact hother x hx
      rw [hany, if_neg Bool.false_ne_true, he]

end Phrase.Refuses

theorem isNumeric_ne {x : Char} (h : isNumeric x = true) : x ≠ '-' ∧ x ≠ '(' := by
  constructor
  · intro heq
    rw [heq] at h
    exact absurd h (by decide)
  · intro heq
    rw [heq] at h
    exact absurd h (by decide)

/-- Digits with a point among them start with one or the other. -/
theorem OnePoint.head {run : List Char} (h : OnePoint false run) (rest : List Char) :
    ∃ x, (run ++ rest).head? = some x ∧ isNumeric x = true := by
  obtain ⟨ds, fs, rfl, hds, -⟩ := h
  cases ds with
  | nil => exact ⟨'.', rfl, rfl⟩
  | cons d ds => exact ⟨d, rfl, isNumeric_of_isDigit (Decimal.digital_cons.1 hds).1⟩

/-- The parser ends in the error of every failure. -/
theorem Fails.refuses {phrase : Phrase} {c m : Cursor} {e : ParseError} (h : Fails phrase c e m) :
    phrase.Refuses c e := by
  induction h with
  | expressionTerm _ ih => exact .expressionTerm ih
  | expressionSums hterm _ ih => exact .expressionSums hterm.reads ih
  | sumsTerm hop _ ih => exact .sumsTerm hop ih
  | sumsNext hop hterm _ ih => exact .sumsNext hop hterm.reads ih
  | termFactor _ ih => exact .termFactor ih
  | termProducts hfactor _ ih => exact .termProducts hfactor.reads ih
  | productsFactor hop _ ih => exact .productsFactor hop ih
  | productsNext hop hfactor _ ih => exact .productsNext hop hfactor.reads ih
  | negation hp _ ih => exact .negation hp ih
  | inside hp _ ih => exact .parentheses (t := .leaf 0) (n := .start []) hp (.inl ih)
  | unclosed hp hexpression hclose => exact .parentheses hp (.inr ⟨hexpression.reads, hclose, rfl⟩)
  | operand hnot =>
    apply Phrase.Refuses.other
    · intro x hx
      exact ⟨(hnot x hx).1, (hnot x hx).2.1⟩
    · exact .inr ⟨fun x hx => (hnot x hx).2.2, rfl⟩
  | @secondPoint c run rest hrest hpoint =>
    obtain ⟨x, hx, hnumeric⟩ := hpoint.head ('.' :: rest)
    have hpeek : c.skip.peek = some x := by rw [Cursor.peek, hrest, hx]
    have hrun := literalRun_second hpoint rest c.skip.position
    rw [← hrest] at hrun
    apply Phrase.Refuses.other
    · intro y hy
      cases hpeek.symm.trans hy
      exact isNumeric_ne hnumeric
    · refine .inl ⟨x, hpeek, hnumeric, ?_⟩
      unfold number
      split
      · rename_i e he
        cases hrun.symm.trans he
        rfl
      · rename_i run' next he
        cases hrun.symm.trans he
  | @literal c n run x hx hnumeric hrun hv =>
    apply Phrase.Refuses.other
    · intro y hy
      cases hx.symm.trans hy
      exact isNumeric_ne hnumeric
    · refine .inl ⟨x, hx, hnumeric, ?_⟩
      unfold number
      split
      · rename_i e he
        cases hrun.symm.trans he
      · rename_i run' next he
        cases hrun.symm.trans he
        split
        · rfl
        · rename_i v hv'
          cases hv.symm.trans hv'

end Piecework.Expr
