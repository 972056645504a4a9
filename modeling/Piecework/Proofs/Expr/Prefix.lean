import Piecework.Proofs.Expr.Elsewhere

/-!
# How far a text goes on as an expression

A text is viable if it can be continued to an expression.  The parser stops at the first place
where a text is not viable any more, and says where that is.

* `Fails.completable`: a text in front of a missing operand or parenthesis can be completed there,
  by an operand and by as many parentheses as are open.
* `Fails.interrupted`: in front of a second point there is a number with one point.
* `Fails.breaks` and `Derives.breaks` carry this over to whole texts, and
  `parse_error_pinpoints` says where each error points.
-/

namespace Piecework.Expr

open String (utf8Len utf8Len_cons)

/-! ## What stands in front of a failure -/

/-- What an error says about the place where the parser gives up. -/
def PointsAt : ParseError → Cursor → Prop
  | .expectedOperand found p, m => found = m.peek ∧ p = m.position
  | .unclosedParen p, m => p = m.position
  | .multipleDecimalPoints p, m => p = m.position ∧ m.peek = some '.'
  | .invalidNumber _, _ => True
  | .empty, _ | .trailingInput .., _ => False

theorem Fails.pointsAt {phrase : Phrase} {c m : Cursor} {e : ParseError} (h : Fails phrase c e m) :
    PointsAt e m := by
  induction h with
  | unclosed => rfl
  | operand | secondPoint => exact ⟨rfl, rfl⟩
  | literal => trivial
  | _ => assumption

/-- The phrase goes on behind an operand. -/
def Phrase.IsChain : Phrase → Prop
  | sums _ | products _ => True
  | _ => False

/-- A chain fails behind a sign. -/
theorem Fails.front_ne_nil {phrase : Phrase} {c m : Cursor} {e : ParseError} {front : List Char}
    (h : Fails phrase c e m) (hchain : phrase.IsChain) (hpasses : c.Passes front m) :
    front ≠ [] := by
  -- a sign and what follows it stand in front of the failure
  have hsign : ∀ {x back}, c.skip.peek = some x → c.skip.advance.Passes back m → front ≠ [] := by
    intro x back hx hback
    obtain ⟨token, hlast, htoken, -⟩ := Cursor.token_elsewhere hx
    rw [hpasses.unique (htoken.trans hback)]
    intro hnil
    rw [(List.append_eq_nil_iff.1 hnil).1] at hlast
    cases hlast
  cases h with
  | sumsTerm hop hterm =>
    obtain ⟨x, hx⟩ := exists_of_sumOperator? hop
    obtain ⟨back, hback, -⟩ := hterm.elsewhere
    exact hsign hx hback
  | productsFactor hop hfactor =>
    obtain ⟨x, hx⟩ := exists_of_productOperator? hop
    obtain ⟨back, hback, -⟩ := hfactor.elsewhere
    exact hsign hx hback
  | sumsNext hop hterm hsums =>
    obtain ⟨x, hx⟩ := exists_of_sumOperator? hop
    obtain ⟨back, hback, -⟩ := hterm.elsewhere
    obtain ⟨back', hback', -⟩ := hsums.elsewhere
    exact hsign hx (hback.trans hback')
  | productsNext hop hfactor hproducts =>
    obtain ⟨x, hx⟩ := exists_of_productOperator? hop
    obtain ⟨back, hback, -⟩ := hfactor.elsewhere
    obtain ⟨back', hback', -⟩ := hproducts.elsewhere
    exact hsign hx (hback.trans hback')
  | _ => cases hchain

/-- The errors that say what is missing. -/
def Missing : ParseError → Prop
  | .expectedOperand .. | .unclosedParen _ => True
  | _ => False

/-- The text goes on with a completion, and then with something that ends every phrase. -/
def Completed (completion rest' : List Char) : Prop :=
  ∃ rest, rest' = completion ++ rest ∧ Closing rest

/-- Behind the second cursor the completion, with anything that ends a phrase, makes the phrase
complete. -/
def Completes (phrase : Phrase) (completion : List Char) (a b : Cursor) : Prop :=
  ∀ rest, b.rest = completion ++ rest → Closing rest → ∃ t q, Derives phrase a t ⟨rest, q⟩

theorem Closing.skip {rest : List Char} (h : Closing rest) (q : Nat) :
    Cursor.skip ⟨rest, q⟩ = ⟨rest, q⟩ := by
  have hflush : Cursor.Flush rest := by
    intro x hx
    rw [h x hx]
    rfl
  exact Cursor.skip_of_flush blank_nil hflush q

section Completions

variable {completion : List Char} {a b n : Cursor} {l r : Tree} {op : Operator}

/-- A chain of sums may end. -/
theorem sums_end {rest : List Char} (h : Closing rest) (l : Tree) (q : Nat) :
    Derives (.sums l) ⟨rest, q⟩ l ⟨rest, q⟩ := by
  have hend : sumOperator? (Cursor.skip ⟨rest, q⟩).peek = none := by
    rw [sumOperator?_eq_none_iff, h.skip]
    intro x hx
    rw [h x hx]
    rfl
  have hderives := Derives.sumsEnd (l := l) hend
  rwa [h.skip] at hderives

/-- A chain of products may end. -/
theorem products_end {rest : List Char} (h : Closing rest) (l : Tree) (q : Nat) :
    Derives (.products l) ⟨rest, q⟩ l ⟨rest, q⟩ := by
  have hend : productOperator? (Cursor.skip ⟨rest, q⟩).peek = none := by
    rw [productOperator?_eq_none_iff, h.skip]
    intro x hx
    rw [h x hx]
    rfl
  have hderives := Derives.productsEnd (l := l) hend
  rwa [h.skip] at hderives

theorem Completes.expressionTerm (h : Completes .term completion a b) :
    Completes .expression completion a b := by
  intro rest hrest hclosing
  obtain ⟨t, q, hterm⟩ := h rest hrest hclosing
  exact ⟨t, q, .expression hterm (sums_end hclosing t q)⟩

theorem Completes.expressionSums (hterm : Derives .term a l n)
    (h : Completes (.sums l) completion n b) : Completes .expression completion a b := by
  intro rest hrest hclosing
  obtain ⟨t, q, hsums⟩ := h rest hrest hclosing
  exact ⟨t, q, .expression hterm hsums⟩

theorem Completes.sumsTerm (hop : sumOperator? a.skip.peek = some op)
    (h : Completes .term completion a.skip.advance b) : Completes (.sums l) completion a b := by
  intro rest hrest hclosing
  obtain ⟨r, q, hterm⟩ := h rest hrest hclosing
  exact ⟨_, q, .sumsNext hop hterm (sums_end hclosing (.node op l r) q)⟩

theorem Completes.sumsNext (hop : sumOperator? a.skip.peek = some op)
    (hterm : Derives .term a.skip.advance r n)
    (h : Completes (.sums (.node op l r)) completion n b) : Completes (.sums l) completion a b := by
  intro rest hrest hclosing
  obtain ⟨t, q, hsums⟩ := h rest hrest hclosing
  exact ⟨t, q, .sumsNext hop hterm hsums⟩

theorem Completes.termFactor (h : Completes .factor completion a b) :
    Completes .term completion a b := by
  intro rest hrest hclosing
  obtain ⟨t, q, hfactor⟩ := h rest hrest hclosing
  exact ⟨t, q, .term hfactor (products_end hclosing t q)⟩

theorem Completes.termProducts (hfactor : Derives .factor a l n)
    (h : Completes (.products l) completion n b) : Completes .term completion a b := by
  intro rest hrest hclosing
  obtain ⟨t, q, hproducts⟩ := h rest hrest hclosing
  exact ⟨t, q, .term hfactor hproducts⟩

theorem Completes.productsFactor (hop : productOperator? a.skip.peek = some op)
    (h : Completes .factor completion a.skip.advance b) :
    Completes (.products l) completion a b := by
  intro rest hrest hclosing
  obtain ⟨r, q, hfactor⟩ := h rest hrest hclosing
  exact ⟨_, q, .productsNext hop hfactor (products_end hclosing (.node op l r) q)⟩

theorem Completes.productsNext (hop : productOperator? a.skip.peek = some op)
    (hfactor : Derives .factor a.skip.advance r n)
    (h : Completes (.products (.node op l r)) completion n b) :
    Completes (.products l) completion a b := by
  intro rest hrest hclosing
  obtain ⟨t, q, hproducts⟩ := h rest hrest hclosing
  exact ⟨t, q, .productsNext hop hfactor hproducts⟩

theorem Completes.negation (hp : a.skip.peek = some '-')
    (h : Completes .factor completion a.skip.advance b) : Completes .factor completion a b := by
  intro rest hrest hclosing
  obtain ⟨t, q, hfactor⟩ := h rest hrest hclosing
  exact ⟨_, q, .negation hp hfactor⟩

/-- What is inside is completed first, and then closed. -/
theorem Completes.inside (hp : a.skip.peek = some '(')
    (h : Completes .expression completion a.skip.advance b) :
    Completes .factor (completion ++ [')']) a b := by
  intro rest hrest _
  have hinner := closing_parenthesis rest
  rw [List.append_assoc] at hrest
  obtain ⟨t, q, hexpression⟩ := h (')' :: rest) hrest hinner
  have hskip := hinner.skip q
  have hclose : (Cursor.skip ⟨')' :: rest, q⟩).peek = some ')' := by
    rw [hskip]
    rfl
  have hderives := Derives.parentheses hp hexpression hclose
  rw [hskip] at hderives
  exact ⟨t, _, hderives⟩

/-- A closing parenthesis behind blanks. -/
theorem Completes.unclosed {t : Tree} (hp : a.skip.peek = some '(')
    (h : Derives .expression a.skip.advance t n) (hn : n.skip = b) :
    Completes .factor [')'] a b := by
  intro rest hrest _
  subst hn
  have hclose : n.skip.peek = some ')' := by
    rw [Cursor.peek, hrest]
    rfl
  have hderives := Derives.parentheses hp h hclose
  have hadvance : n.skip.advance.rest = rest := by
    have hcons := Cursor.rest_eq_of_peek hclose
    rw [hrest] at hcons
    cases hcons
    rfl
  exact ⟨t, n.skip.advance.position, by rw [← hadvance]; exact hderives⟩

/-- A number where an operand is missing. -/
theorem Completes.operand (h : a.skip = b) : Completes .factor ['0'] a b := by
  intro rest hrest hclosing
  subst h
  have hstops : Stops rest := by
    intro x hx
    rw [hclosing x hx]
    decide
  have hzero : ∀ p, literalRun false ['0'] p = .ok (['0'], ⟨[], p + '0'.utf8Size⟩) := fun _ => rfl
  have hrun := (literalRun_elsewhere (hzero a.skip.position)).2 rest hstops
  rw [← hrest] at hrun
  have hvalue : Decimal.literal? ['0'] = some 0 := by decide +kernel
  exact ⟨.leaf 0, _, .number (number_of_literal hrun hvalue (by simp [hrest]))⟩

end Completions

/-- A completion that starts with a token is not passed over. -/
theorem Completed.flush {x : Char} {completion rest' : List Char} (hx : isSpace x = false)
    (h : Completed (x :: completion) rest') : Cursor.Flush rest' := by
  obtain ⟨rest, rfl, -⟩ := h
  intro y hy
  cases hy
  exact hx

/-- A closing parenthesis ends every phrase. -/
theorem Completed.closing {rest' : List Char} (h : Completed [')'] rest') : Closing rest' := by
  obtain ⟨rest, rfl, -⟩ := h
  exact closing_parenthesis rest

/-- What is inside of parentheses is completed, and the parenthesis too. -/
theorem Completed.inside {completion rest' : List Char}
    (h : Completed (completion ++ [')']) rest') : Completed completion rest' := by
  obtain ⟨rest, rfl, -⟩ := h
  exact ⟨')' :: rest, by simp, closing_parenthesis rest⟩

/-- Where an operand or a parenthesis is missing, the text in front can be completed. -/
theorem Fails.completable {phrase : Phrase} {c m : Cursor} {e : ParseError}
    (h : Fails phrase c e m) (he : Missing e) :
    ∃ completion, Travels (fun _ => Completed completion) (Completes phrase completion) c m := by
  -- a chain that fails starts with a sign, at which the operand in front of it ends
  have hsign : ∀ {phrase' : Phrase} {n m : Cursor} {e' : ParseError} {back rest' : List Char},
      Fails phrase' n e' m → phrase'.IsChain → n.Passes back m → Alike n.rest (back ++ rest') := by
    intro phrase' n m e' back rest' hfails hchain hback
    have hne := hfails.front_ne_nil hchain hback
    rw [hback.1]
    exact .inl (by simp [List.head?_append_of_ne_nil _ hne])
  induction h with
  | expressionTerm _ ih =>
    obtain ⟨completion, ih⟩ := ih he
    exact ⟨completion, ih.imp .expressionTerm⟩
  | expressionSums hterm hsums ih =>
    obtain ⟨completion, ih⟩ := ih he
    refine ⟨completion, (hterm.elsewhere.comp ih fun hback _ => hsign hsums trivial hback).imp ?_⟩
    exact fun ⟨_, hterm, hsums⟩ => .expressionSums hterm hsums
  | sumsTerm hop _ ih =>
    obtain ⟨x, hx⟩ := exists_of_sumOperator? hop
    obtain ⟨completion, ih⟩ := ih he
    refine ⟨completion, (ih.behind hx).imp ?_⟩
    exact fun ⟨hpeek, hterm⟩ => .sumsTerm (hpeek ▸ hop) hterm
  | sumsNext hop hterm hsums ih =>
    obtain ⟨x, hx⟩ := exists_of_sumOperator? hop
    obtain ⟨completion, ih⟩ := ih he
    have hright := hterm.elsewhere.comp ih fun hback _ => hsign hsums trivial hback
    refine ⟨completion, (hright.behind hx).imp ?_⟩
    exact fun ⟨hpeek, _, hterm, hsums⟩ => .sumsNext (hpeek ▸ hop) hterm hsums
  | termFactor _ ih =>
    obtain ⟨completion, ih⟩ := ih he
    exact ⟨completion, ih.imp .termFactor⟩
  | termProducts hfactor hproducts ih =>
    obtain ⟨completion, ih⟩ := ih he
    refine ⟨completion,
      (hfactor.elsewhere.comp ih fun hback _ => hsign hproducts trivial hback).imp ?_⟩
    exact fun ⟨_, hfactor, hproducts⟩ => .termProducts hfactor hproducts
  | productsFactor hop _ ih =>
    obtain ⟨x, hx⟩ := exists_of_productOperator? hop
    obtain ⟨completion, ih⟩ := ih he
    refine ⟨completion, (ih.behind hx).imp ?_⟩
    exact fun ⟨hpeek, hfactor⟩ => .productsFactor (hpeek ▸ hop) hfactor
  | productsNext hop hfactor hproducts ih =>
    obtain ⟨x, hx⟩ := exists_of_productOperator? hop
    obtain ⟨completion, ih⟩ := ih he
    have hright := hfactor.elsewhere.comp ih fun hback _ => hsign hproducts trivial hback
    refine ⟨completion, (hright.behind hx).imp ?_⟩
    exact fun ⟨hpeek, _, hfactor, hproducts⟩ => .productsNext (hpeek ▸ hop) hfactor hproducts
  | negation hp _ ih =>
    obtain ⟨completion, ih⟩ := ih he
    refine ⟨completion, (ih.behind hp).imp ?_⟩
    exact fun ⟨hpeek, hfactor⟩ => .negation (hpeek.trans hp) hfactor
  | inside hp _ ih =>
    obtain ⟨completion, ih⟩ := ih he
    refine ⟨completion ++ [')'], ((ih.restrict .inside).behind hp).imp ?_⟩
    exact fun ⟨hpeek, hinner⟩ => .inside (hpeek.trans hp) hinner
  | @unclosed c n t hp hexpression hclose =>
    have hblanks := @travels_blanks (fun _ => Completed [')']) n (Completed.flush rfl)
    have hfront := hexpression.elsewhere.comp hblanks fun hback h => .before hback (.inr h.closing)
    refine ⟨[')'], (hfront.behind hp).imp ?_⟩
    exact fun ⟨hpeek, _, hinner, hskip, _⟩ => .unclosed (hpeek.trans hp) hinner hskip
  | @operand c hnot =>
    have hblanks := @travels_blanks (fun _ => Completed ['0']) c (Completed.flush rfl)
    refine ⟨['0'], hblanks.imp ?_⟩
    exact fun ⟨hskip, _⟩ => .operand hskip
  | secondPoint | literal => cases he

/-! ## What stands in front of a second point -/

/-- No number goes on at the end of the text. -/
def EndsNumber (front : List Char) : Prop :=
  ∀ x, front.getLast? = some x → isNumeric x = false

theorem isNumeric_eq_false_iff {x : Char} : isNumeric x = false ↔ x.isDigit = false ∧ x ≠ '.' := by
  rw [isNumeric, Bool.or_eq_false_iff, beq_eq_false_iff_ne, and_comm]

theorem Blank.endsNumber {b : List Char} (hb : Blank b) : EndsNumber b := by
  intro x hx
  rcases hb x (List.mem_of_getLast? hx) with rfl | rfl | rfl | rfl <;> decide

/-- Only the end of a text matters, if there is one. -/
theorem EndsNumber.append {front back : List Char} (hback : EndsNumber back)
    (hfront : back = [] → EndsNumber front) : EndsNumber (front ++ back) := by
  cases back with
  | nil =>
    rw [List.append_nil]
    exact hfront rfl
  | cons y back =>
    intro x hx
    rw [List.getLast?_append_of_ne_nil _ (List.cons_ne_nil y back)] at hx
    exact hback x hx

/-- Between the two cursors there is a text, and then a whole number with one point. -/
def Interrupted (phrase : Phrase) (c m : Cursor) : Prop :=
  ∃ front run, c.Passes (front ++ run) m ∧ OnePoint false run ∧ EndsNumber front ∧
    (phrase.IsChain → front ≠ [])

/-- A token in front of a number is not a part of it. -/
theorem Interrupted.behind {phrase phrase' : Phrase} {c m : Cursor} {x : Char}
    (h : Interrupted phrase c.skip.advance m) (hx : c.skip.peek = some x)
    (hnumeric : isNumeric x = false) : Interrupted phrase' c m := by
  obtain ⟨front, run, hpasses, hrun, hfront, -⟩ := h
  obtain ⟨token, hlast, htoken, -⟩ := Cursor.token_elsewhere hx
  refine ⟨token ++ front, run, ?_, hrun, ?_, ?_⟩
  · rw [List.append_assoc]
    exact htoken.trans hpasses
  · apply hfront.append
    intro _ y hy
    cases hlast.symm.trans hy
    exact hnumeric
  · intro _ hnil
    rw [(List.append_eq_nil_iff.1 hnil).1] at hlast
    cases hlast

/-- A chain that is interrupted starts behind an operand. -/
theorem Interrupted.chain {phrase phrase' : Phrase} {c n m : Cursor} {front : List Char}
    (hpasses : c.Passes front n) (h : Interrupted phrase n m) (hchain : phrase.IsChain) :
    Interrupted phrase' c m := by
  obtain ⟨back, run, hpasses', hrun, hback, hne⟩ := h
  refine ⟨front ++ back, run, ?_, hrun, hback.append fun hnil => absurd hnil (hne hchain), ?_⟩
  · rw [List.append_assoc]
    exact hpasses.trans hpasses'
  · intro _ hnil
    exact hne hchain (List.append_eq_nil_iff.1 hnil).2

/-- In front of a second point there is a whole number with a point. -/
theorem Fails.interrupted {phrase : Phrase} {c m : Cursor} {e : ParseError} {p : Nat}
    (h : Fails phrase c e m) (he : e = .multipleDecimalPoints p) : Interrupted phrase c m := by
  have hsum : ∀ {c : Cursor} {op}, sumOperator? c.skip.peek = some op →
      ∃ x, c.skip.peek = some x ∧ isNumeric x = false := by
    intro c op hop
    obtain ⟨sign, hpeek, hsign⟩ := sumOperator?_eq_some_iff.1 hop
    exact ⟨sign, hpeek, isNumeric_eq_false_iff.2 hsign.stops⟩
  have hproduct : ∀ {c : Cursor} {op}, productOperator? c.skip.peek = some op →
      ∃ x, c.skip.peek = some x ∧ isNumeric x = false := by
    intro c op hop
    obtain ⟨sign, hpeek, hsign⟩ := productOperator?_eq_some_iff.1 hop
    exact ⟨sign, hpeek, isNumeric_eq_false_iff.2 hsign.stops⟩
  induction h with
  | expressionTerm _ ih | termFactor _ ih =>
    obtain ⟨front, run, hpasses, hrun, hfront, -⟩ := ih he
    exact ⟨front, run, hpasses, hrun, hfront, nofun⟩
  | expressionSums hterm _ ih | termProducts hterm _ ih =>
    obtain ⟨front, hpasses, -⟩ := hterm.elsewhere
    exact .chain hpasses (ih he) trivial
  | sumsTerm hop _ ih =>
    obtain ⟨x, hx, hnumeric⟩ := hsum hop
    exact (ih he).behind hx hnumeric
  | productsFactor hop _ ih =>
    obtain ⟨x, hx, hnumeric⟩ := hproduct hop
    exact (ih he).behind hx hnumeric
  | sumsNext hop hterm _ ih =>
    obtain ⟨x, hx, hnumeric⟩ := hsum hop
    obtain ⟨front, hpasses, -⟩ := hterm.elsewhere
    have hchain : Interrupted .expression _ _ := .chain hpasses (ih he) trivial
    exact hchain.behind hx hnumeric
  | productsNext hop hfactor _ ih =>
    obtain ⟨x, hx, hnumeric⟩ := hproduct hop
    obtain ⟨front, hpasses, -⟩ := hfactor.elsewhere
    have hchain : Interrupted .term _ _ := .chain hpasses (ih he) trivial
    exact hchain.behind hx hnumeric
  | negation hp _ ih | inside hp _ ih => exact (ih he).behind hp rfl
  | unclosed | operand | literal => cases he
  | @secondPoint c run rest hrest hpoint =>
    obtain ⟨b, hb, hblanks, -⟩ := c.skip_elsewhere
    exact ⟨b, run, hblanks.trans ⟨hrest, rfl⟩, hpoint, hb.endsNumber, nofun⟩

/-! ## Whole texts -/

/-- What was read as an expression is not blank. -/
theorem Derives.allBlank {c n : Cursor} {t : Tree} (h : Derives .expression c t n) :
    Text.allBlank c.rest = false := by
  obtain ⟨front, hrest, hpadded⟩ := h.generated
  have hfront : Text.allBlank front = false := Padded.allBlank hpadded
  rw [Text.allBlank] at hfront ⊢
  rw [hrest, List.all_append, hfront, Bool.false_and]

/-- A text cannot be parsed if it is blank, if it fails, or if something is left of it. -/
theorem fails_of_parse {s : String} {e : ParseError} (h : parse s = .error e) :
    e = .empty ∨ (∃ m, Fails .expression (.start s.toList) e m) ∨
      ∃ t n x, Derives .expression (.start s.toList) t n ∧ n.skip.peek = some x ∧
        e = .trailingInput x n.skip.position := by
  unfold parse parseChars at h
  split_ifs at h with hblank
  · cases h
    exact .inl rfl
  · split at h
    · rename_i e' he
      cases h
      exact .inr (.inl (fails_of_expression he))
    · rename_i t n hn hread
      split at h
      · rename_i x hx
        cases h
        exact .inr (.inr ⟨t, n, x, derives_of_expression hread, hx, rfl⟩)
      · cases h

theorem parse_of_fails {s : String} {e : ParseError} {m : Cursor}
    (hblank : Text.allBlank s.toList = false) (h : Fails .expression (.start s.toList) e m) :
    parse s = .error e := by
  have hrefuses : expression (.start s.toList) = .error e := h.refuses
  unfold parse parseChars
  rw [hblank, hrefuses, if_neg Bool.false_ne_true]

/-- What fails is not parsed. -/
theorem Fails.parse_ne {s : String} {e : ParseError} {m : Cursor}
    (h : Fails .expression (.start s.toList) e m) (t : Tree) : parse s ≠ .ok t := by
  intro hparse
  obtain ⟨n, hn, -⟩ := derives_of_parse hparse
  obtain ⟨hlt, hread⟩ := hn.reads
  have hrefuses : expression (.start s.toList) = .error e := h.refuses
  cases hread.symm.trans hrefuses

/-- A text of which something is left is not parsed. -/
theorem Derives.parse_ne {s : String} {t : Tree} {n : Cursor} {x : Char}
    (h : Derives .expression (.start s.toList) t n) (hx : n.skip.peek = some x) (t' : Tree) :
    parse s ≠ .ok t' := by
  intro hparse
  obtain ⟨n', hn', hend⟩ := derives_of_parse hparse
  obtain ⟨hlt, hread⟩ := h.reads
  obtain ⟨hlt', hread'⟩ := hn'.reads
  cases hread.symm.trans hread'
  rw [Cursor.peek, hend] at hx
  cases hx

/-! ## Viable texts -/

/-- The text can be continued to an expression. -/
def Viable (s : String) : Prop := ∃ more t, parse (s ++ more) = .ok t

/-- At the byte offset the text in front is viable, and with the character behind it is not. -/
structure Breaks (s : String) (position : Nat) (next : Option Char) (before after : String) :
    Prop where
  text : s = before ++ after
  position_eq : before.utf8ByteSize = position
  next_eq : after.toList.head? = next
  atEnd : next = none ↔ position = s.utf8ByteSize
  viable : Viable before
  impossible : ∀ x, next = some x → ¬Viable (before.push x)

/-- The error names the first place at which the text cannot be continued any more.

A number cannot be continued behind a second point.  Nothing is said about a text that is blank
or about a number without a finite value. -/
def Pinpoints (s : String) : ParseError → Prop
  | .expectedOperand found p => ∃ before after, Breaks s p found before after
  | .unclosedParen p => ∃ next before after, Breaks s p next before after
  | .trailingInput found p => ∃ before after,
      Breaks s p (some found) before after ∧ ∃ t, parse before = .ok t
  | .multipleDecimalPoints p => ∃ front run after,
      s = front ++ run ++ "." ++ after ∧ (front ++ run).utf8ByteSize = p ∧
        EndsNumber front.toList ∧ OnePoint false run.toList ∧ ¬Viable (front ++ run ++ ".")
  | .empty | .invalidNumber _ => True

/-- A text that was split at a cursor. -/
theorem Breaks.of_passes {s : String} {front : List Char} {m : Cursor}
    (hpasses : (Cursor.start s.toList).Passes front m) (hviable : Viable (String.ofList front))
    (himpossible : ∀ x, m.peek = some x → ¬Viable ((String.ofList front).push x)) :
    Breaks s m.position m.peek (String.ofList front) (String.ofList m.rest) := by
  have htext : s = String.ofList front ++ String.ofList m.rest := by
    rw [← String.ofList_append, ← hpasses.1]
    exact s.ofList_toList.symm
  have hposition : (String.ofList front).utf8ByteSize = m.position := by
    rw [String.utf8ByteSize_ofList, hpasses.2]
    exact (Nat.zero_add _).symm
  refine ⟨htext, hposition, ?_, ?_, hviable, himpossible⟩
  · rw [String.toList_ofList]
    rfl
  · rw [htext, String.utf8ByteSize_append, hposition, String.utf8ByteSize_ofList, Cursor.peek]
    cases m.rest with
    | nil => simp
    | cons x rest =>
      have hsize := x.utf8Size_pos
      simp only [List.head?_cons, utf8Len_cons]
      constructor
      · intro h
        cases h
      · intro h
        omega

theorem start_continued (front : List Char) (x : Char) (more : String) :
    Cursor.start ((String.ofList front).push x ++ more).toList =
      ⟨front ++ x :: more.toList, 0⟩ := by
  rw [String.toList_append, String.toList_push, String.toList_ofList, List.append_assoc]
  rfl

/-- In front of a missing operand or parenthesis the text is viable. -/
theorem Fails.viable {s : String} {e : ParseError} {m : Cursor} {front : List Char}
    (h : Fails .expression (.start s.toList) e m) (he : Missing e)
    (hpasses : (Cursor.start s.toList).Passes front m) : Viable (String.ofList front) := by
  obtain ⟨completion, front', hpasses', hcompletes⟩ := h.completable he
  rw [← hpasses.unique hpasses'] at hcompletes
  obtain ⟨t, q, hderives⟩ := hcompletes completion ⟨[], (List.append_nil _).symm, closing_nil⟩ []
    (List.append_nil _).symm closing_nil
  refine ⟨String.ofList completion, t, ?_⟩
  rw [← String.ofList_append]
  have hstart : Derives .expression (.start (String.ofList (front ++ completion)).toList) t
      ⟨[], q⟩ := by
    rw [String.toList_ofList]
    exact hderives
  exact parse_of_derives hstart.allBlank hstart rfl

/-- With the character at which the parser gives up, the text is not viable any more. -/
theorem Fails.not_viable {s : String} {e : ParseError} {m : Cursor} {front : List Char} {x : Char}
    (h : Fails .expression (.start s.toList) e m)
    (hpasses : (Cursor.start s.toList).Passes front m) (hx : m.peek = some x) :
    ¬Viable ((String.ofList front).push x) := by
  intro hviable
  obtain ⟨more, t, hparse⟩ := hviable
  obtain ⟨front', hpasses', hfails⟩ := h.elsewhere
  rw [← hpasses.unique hpasses'] at hfails
  have hagain := hfails (x :: more.toList) hx.symm
  have hstart : Fails .expression (.start ((String.ofList front).push x ++ more).toList) e
      ⟨x :: more.toList, m.position⟩ := by
    rw [start_continued]
    exact hagain
  exact hstart.parse_ne t hparse

/-- A failure breaks the text where the parser gives up. -/
theorem Fails.breaks {s : String} {e : ParseError} {m : Cursor}
    (h : Fails .expression (.start s.toList) e m) (he : Missing e) :
    ∃ before after, Breaks s m.position m.peek before after := by
  obtain ⟨front, hpasses, -⟩ := h.elsewhere
  exact ⟨_, _, .of_passes hpasses (h.viable he hpasses) fun x hx => h.not_viable hpasses hx⟩

/-- So does what is left behind a whole expression, which ends in front of it. -/
theorem Derives.breaks {s : String} {t : Tree} {n : Cursor} {x : Char}
    (h : Derives .expression (.start s.toList) t n) (hx : n.skip.peek = some x) :
    ∃ before after, Breaks s n.skip.position (some x) before after ∧ parse before = .ok t := by
  obtain ⟨front, hpasses, hread⟩ := h.elsewhere
  obtain ⟨b, hb, hblanks, hskip⟩ := n.skip_elsewhere
  -- the expression with its blanks, and nothing behind them
  have hparse : parse (String.ofList (front ++ b)) = .ok t := by
    have hderives := hread (b ++ []) (.before hblanks (.inr closing_nil))
    have hstart : Derives .expression (.start (String.ofList (front ++ b)).toList) t
        ⟨b ++ [], n.position⟩ := by
      rw [String.toList_ofList, ← List.append_nil (front ++ b), List.append_assoc]
      exact hderives
    apply parse_of_derives hstart.allBlank hstart
    rw [hskip [] nofun]
  have himpossible : ∀ y, n.skip.peek = some y →
      ¬Viable ((String.ofList (front ++ b)).push y) := by
    intro y hy hviable
    obtain ⟨more, t', hmore⟩ := hviable
    have hsame : SameNext n.skip.rest (y :: more.toList) := hy.symm
    have hderives := hread (b ++ y :: more.toList) (hsame.before hblanks)
    have hend := hskip (y :: more.toList) hsame.flush
    have hstart : Derives .expression
        (.start ((String.ofList (front ++ b)).push y ++ more).toList) t
        ⟨b ++ y :: more.toList, n.position⟩ := by
      rw [start_continued, List.append_assoc]
      exact hderives
    exact hstart.parse_ne (x := y) (by rw [hend]; rfl) t' hmore
  have hbreaks := Breaks.of_passes (hpasses.trans hblanks)
    ⟨"", t, by rwa [String.append_empty]⟩ himpossible
  rw [hx] at hbreaks
  exact ⟨_, _, hbreaks, hparse⟩

/-- A second point breaks the number that it stands in. -/
theorem Fails.interrupts {s : String} {p : Nat} {m : Cursor}
    (h : Fails .expression (.start s.toList) (.multipleDecimalPoints p) m) :
    Pinpoints s (.multipleDecimalPoints p) := by
  obtain ⟨front, run, hpasses, hrun, hfront, -⟩ := h.interrupted rfl
  obtain ⟨hp, hpoint⟩ : p = m.position ∧ m.peek = some '.' := h.pointsAt
  have hrest := Cursor.rest_eq_of_peek hpoint
  have himpossible := h.not_viable hpasses hpoint
  have hnumber : String.ofList front ++ String.ofList run ++ "." =
      (String.ofList (front ++ run)).push '.' := by
    apply String.toList_inj.1
    simp
  refine ⟨String.ofList front, String.ofList run, String.ofList m.advance.rest, ?_, ?_, ?_, ?_, ?_⟩
  · apply String.toList_inj.1
    have htext : s.toList = front ++ run ++ m.rest := hpasses.1
    simp [htext, hrest]
  · rw [hp, hpasses.2, ← String.ofList_append, String.utf8ByteSize_ofList]
    exact (Nat.zero_add _).symm
  · rw [String.toList_ofList]
    exact hfront
  · rw [String.toList_ofList]
    exact hrun
  · rw [hnumber]
    exact himpossible

/-- Every error names the first place at which the text cannot be continued any more. -/
theorem parse_error_pinpoints {s : String} {e : ParseError} (h : parse s = .error e) :
    Pinpoints s e := by
  rcases fails_of_parse h with rfl | ⟨m, hm⟩ | ⟨t, n, x, hn, hx, rfl⟩
  · trivial
  · cases e with
    | invalidNumber => trivial
    | empty | trailingInput => exact hm.pointsAt.elim
    | expectedOperand found p =>
      obtain ⟨rfl, rfl⟩ : found = m.peek ∧ p = m.position := hm.pointsAt
      exact hm.breaks trivial
    | unclosedParen p =>
      obtain rfl : p = m.position := hm.pointsAt
      exact ⟨m.peek, hm.breaks trivial⟩
    | multipleDecimalPoints p => exact hm.interrupts
  · obtain ⟨before, after, hbreaks, hparse⟩ := hn.breaks hx
    exact ⟨before, after, hbreaks, t, hparse⟩

/-- A letter behind a parenthesis, a minus and a blank is where the text breaks. -/
theorem letter_pinpoints : parse "(- é" = .error (.expectedOperand (some 'é') 3) ∧
    Pinpoints "(- é" (.expectedOperand (some 'é') 3) := by
  have hfactor : Fails .factor ⟨[' ', 'é'], 2⟩ (.expectedOperand (some 'é') 3) ⟨['é'], 3⟩ := by
    apply Fails.operand
    intro x hx
    cases hx
    decide
  have hparse : parse "(- é" = .error (.expectedOperand (some 'é') 3) := by
    apply parse_of_fails (m := ⟨['é'], 3⟩) (by decide)
    apply Fails.expressionTerm
    apply Fails.termFactor
    apply Fails.inside rfl
    apply Fails.expressionTerm
    apply Fails.termFactor
    exact Fails.negation rfl hfactor
  exact ⟨hparse, parse_error_pinpoints hparse⟩

end Piecework.Expr
