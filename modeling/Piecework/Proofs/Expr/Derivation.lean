import Mathlib.Data.List.TakeWhile
import Piecework.Expr.Parser
import Piecework.Proofs.Expr.Agreement

/-!
# What the parser has read

A successful run of the parser, told step by step.  `Derives` has one constructor for
each way in which one of the five parsers can succeed, so what holds of every tree
that was read is proved by induction on a derivation, without looking at the parser
again.

* `derives_of_expression` turns a success of the parser into a derivation.
* `Derives.reads` goes back: the parser reads whatever is derived.
* `Derives.spans` says that the text between two cursors holds no NUL, and
  `Derives.finite` that every number in the tree is finite.
* `finite_of_parse` and `columnText_of_parse` are both facts for whole texts.  The
  second one says that a column of texts gives an expression back as it was written.
-/

namespace Piecework

/-- Every number in the tree has a property. -/
def Tree.Every (P : Float → Prop) : Tree → Prop
  | .leaf v => P v
  | .node _ l r => l.Every P ∧ r.Every P

/-- Every number in the tree is finite. -/
abbrev Tree.Finite (t : Tree) : Prop := t.Every fun v => v.isFinite = true

theorem Tree.Every.imp {P Q : Float → Prop} (h : ∀ v, P v → Q v) {t : Tree} (ht : t.Every P) :
    t.Every Q := by
  induction t with
  | leaf v => exact h v ht
  | node op l r ihl ihr => exact ⟨ihl ht.1, ihr ht.2⟩

namespace Expr

/-- What is being read.  A chain is continued behind its front, whose tree is known. -/
inductive Phrase where
  | expression
  | sums (left : Tree)
  | term
  | products (left : Tree)
  | factor

/-- From the first cursor to the second one, the phrase reads as the tree. -/
inductive Derives : Phrase → Cursor → Tree → Cursor → Prop
  | expression {c n m : Cursor} {l t : Tree} :
      Derives .term c l n → Derives (.sums l) n t m → Derives .expression c t m
  | sumsEnd {c : Cursor} {l : Tree} :
      sumOperator? c.skip.peek = none → Derives (.sums l) c l c.skip
  | sumsNext {c n m : Cursor} {l r t : Tree} {op : Operator} :
      sumOperator? c.skip.peek = some op → Derives .term c.skip.advance r n →
      Derives (.sums (.node op l r)) n t m → Derives (.sums l) c t m
  | term {c n m : Cursor} {l t : Tree} :
      Derives .factor c l n → Derives (.products l) n t m → Derives .term c t m
  | productsEnd {c : Cursor} {l : Tree} :
      productOperator? c.skip.peek = none → Derives (.products l) c l c.skip
  | productsNext {c n m : Cursor} {l r t : Tree} {op : Operator} :
      productOperator? c.skip.peek = some op → Derives .factor c.skip.advance r n →
      Derives (.products (.node op l r)) n t m → Derives (.products l) c t m
  | negation {c n : Cursor} {t : Tree} :
      c.skip.peek = some '-' → Derives .factor c.skip.advance t n →
      Derives .factor c (negate t) n
  | parentheses {c n : Cursor} {t : Tree} :
      c.skip.peek = some '(' → Derives .expression c.skip.advance t n →
      n.skip.peek = some ')' → Derives .factor c t n.skip.advance
  | number {c n : Cursor} {t : Tree} {h : n.rest.length < c.skip.rest.length} :
      number c.skip = .ok ⟨(t, n), h⟩ → Derives .factor c t n

/-! ## From the parser to derivations -/

theorem expression_ok {c m : Cursor} {t : Tree} {h : m.rest.length < c.rest.length}
    (heq : expression c = .ok ⟨(t, m), h⟩) :
    ∃ l n hn hm, term c = .ok ⟨(l, n), hn⟩ ∧ sums l n = .ok ⟨(t, m), hm⟩ := by
  rw [expression] at heq
  split at heq
  · cases heq
  · rename_i l n hn hterm
    split at heq
    · cases heq
    · rename_i r hr hsums
      cases heq
      exact ⟨l, n, hn, hr, hterm, hsums⟩

theorem sums_ok {c m : Cursor} {l t : Tree} {h : m.rest.length ≤ c.rest.length}
    (heq : sums l c = .ok ⟨(t, m), h⟩) :
    (sumOperator? c.skip.peek = none ∧ t = l ∧ m = c.skip) ∨
      ∃ op r n hn hm, sumOperator? c.skip.peek = some op ∧
        term c.skip.advance = .ok ⟨(r, n), hn⟩ ∧ sums (.node op l r) n = .ok ⟨(t, m), hm⟩ := by
  rw [sums] at heq
  split at heq
  · rename_i hop
    cases heq
    exact .inl ⟨hop, rfl, rfl⟩
  · rename_i op hop
    dsimp only at heq
    split at heq
    · cases heq
    · rename_i r n hn hterm
      split at heq
      · cases heq
      · rename_i x hx hsums
        cases heq
        exact .inr ⟨op, r, n, hn, hx, hop, hterm, hsums⟩

theorem term_ok {c m : Cursor} {t : Tree} {h : m.rest.length < c.rest.length}
    (heq : term c = .ok ⟨(t, m), h⟩) :
    ∃ l n hn hm, factor c = .ok ⟨(l, n), hn⟩ ∧ products l n = .ok ⟨(t, m), hm⟩ := by
  rw [term] at heq
  split at heq
  · cases heq
  · rename_i l n hn hfactor
    split at heq
    · cases heq
    · rename_i r hr hproducts
      cases heq
      exact ⟨l, n, hn, hr, hfactor, hproducts⟩

theorem products_ok {c m : Cursor} {l t : Tree} {h : m.rest.length ≤ c.rest.length}
    (heq : products l c = .ok ⟨(t, m), h⟩) :
    (productOperator? c.skip.peek = none ∧ t = l ∧ m = c.skip) ∨
      ∃ op r n hn hm, productOperator? c.skip.peek = some op ∧
        factor c.skip.advance = .ok ⟨(r, n), hn⟩ ∧
        products (.node op l r) n = .ok ⟨(t, m), hm⟩ := by
  rw [products] at heq
  split at heq
  · rename_i hop
    cases heq
    exact .inl ⟨hop, rfl, rfl⟩
  · rename_i op hop
    dsimp only at heq
    split at heq
    · cases heq
    · rename_i r n hn hfactor
      split at heq
      · cases heq
      · rename_i x hx hproducts
        cases heq
        exact .inr ⟨op, r, n, hn, hx, hop, hfactor, hproducts⟩

theorem factor_ok {c m : Cursor} {t : Tree} {h : m.rest.length < c.rest.length}
    (heq : factor c = .ok ⟨(t, m), h⟩) :
    (∃ r hr, c.skip.peek = some '-' ∧ factor c.skip.advance = .ok ⟨(r, m), hr⟩ ∧ t = negate r) ∨
    (∃ n hn, c.skip.peek = some '(' ∧ expression c.skip.advance = .ok ⟨(t, n), hn⟩ ∧
      n.skip.peek = some ')' ∧ m = n.skip.advance) ∨
    (∃ hm, number c.skip = .ok ⟨(t, m), hm⟩) := by
  rw [factor] at heq
  split at heq
  · rename_i hp
    dsimp only at heq
    split at heq
    · cases heq
    · rename_i r n hn hfactor
      cases heq
      exact .inl ⟨r, hn, hp, hfactor, rfl⟩
  · rename_i hp
    dsimp only at heq
    split at heq
    · cases heq
    · rename_i r n hn hexpression
      split at heq
      · rename_i hclose
        cases heq
        exact .inr (.inl ⟨n, hn, hp, hexpression, hclose, rfl⟩)
      · cases heq
  · split at heq
    · split at heq
      · cases heq
      · rename_i r hr hnumber
        cases heq
        exact .inr (.inr ⟨hr, hnumber⟩)
    · cases heq

/-- A success of each of the five parsers on a text of a given length is a derivation. -/
def Derivable (k : Nat) : Prop :=
  (∀ {c t m h}, c.rest.length = k → expression c = .ok ⟨(t, m), h⟩ → Derives .expression c t m) ∧
  (∀ {l c t m h}, c.rest.length = k → sums l c = .ok ⟨(t, m), h⟩ → Derives (.sums l) c t m) ∧
  (∀ {c t m h}, c.rest.length = k → term c = .ok ⟨(t, m), h⟩ → Derives .term c t m) ∧
  (∀ {l c t m h}, c.rest.length = k → products l c = .ok ⟨(t, m), h⟩ →
    Derives (.products l) c t m) ∧
  (∀ {c t m h}, c.rest.length = k → factor c = .ok ⟨(t, m), h⟩ → Derives .factor c t m)

theorem Cursor.length_next_lt {c : Cursor} {x : Char} (h : c.skip.peek = some x) :
    c.skip.advance.rest.length < c.rest.length :=
  Nat.lt_of_lt_of_le (length_advance_lt h) c.length_skip_le

/-- The induction follows the calls of the parsers: each one leaves less text to the
next, or hands the same text to one further down. -/
theorem derivable (k : Nat) : Derivable k := by
  induction k using Nat.strongRecOn with
  | _ k ih =>
    have hfactor : ∀ {c t m h}, c.rest.length = k → factor c = .ok ⟨(t, m), h⟩ →
        Derives .factor c t m := by
      intro c t m h hk heq
      rcases factor_ok heq with
        ⟨r, hr, hp, hf, rfl⟩ | ⟨n, hn, hp, he, hclose, rfl⟩ | ⟨hm, hnumber⟩
      · have hlt := Cursor.length_next_lt hp
        exact .negation hp ((ih _ (by omega)).2.2.2.2 rfl hf)
      · have hlt := Cursor.length_next_lt hp
        exact .parentheses hp ((ih _ (by omega)).1 rfl he) hclose
      · exact .number hnumber
    have hproducts : ∀ {l c t m h}, c.rest.length = k → products l c = .ok ⟨(t, m), h⟩ →
        Derives (.products l) c t m := by
      intro l c t m h hk heq
      rcases products_ok heq with ⟨hop, rfl, rfl⟩ | ⟨op, r, n, hn, hm, hop, hf, hp⟩
      · exact .productsEnd hop
      · obtain ⟨x, hx⟩ := exists_of_productOperator? hop
        have hlt := Cursor.length_next_lt hx
        have hnext : n.rest.length < c.skip.advance.rest.length := hn
        exact .productsNext hop ((ih _ (by omega)).2.2.2.2 rfl hf)
          ((ih _ (by omega)).2.2.2.1 rfl hp)
    have hterm : ∀ {c t m h}, c.rest.length = k → term c = .ok ⟨(t, m), h⟩ →
        Derives .term c t m := by
      intro c t m h hk heq
      obtain ⟨l, n, hn, hm, hf, hp⟩ := term_ok heq
      have hnext : n.rest.length < c.rest.length := hn
      exact .term (hfactor hk hf) ((ih _ (by omega)).2.2.2.1 rfl hp)
    have hsums : ∀ {l c t m h}, c.rest.length = k → sums l c = .ok ⟨(t, m), h⟩ →
        Derives (.sums l) c t m := by
      intro l c t m h hk heq
      rcases sums_ok heq with ⟨hop, rfl, rfl⟩ | ⟨op, r, n, hn, hm, hop, ht, hs⟩
      · exact .sumsEnd hop
      · obtain ⟨x, hx⟩ := exists_of_sumOperator? hop
        have hlt := Cursor.length_next_lt hx
        have hnext : n.rest.length < c.skip.advance.rest.length := hn
        exact .sumsNext hop ((ih _ (by omega)).2.2.1 rfl ht) ((ih _ (by omega)).2.1 rfl hs)
    refine ⟨?_, hsums, hterm, hproducts, hfactor⟩
    intro c t m h hk heq
    obtain ⟨l, n, hn, hm, ht, hs⟩ := expression_ok heq
    have hnext : n.rest.length < c.rest.length := hn
    exact .expression (hterm hk ht) ((ih _ (by omega)).2.1 rfl hs)

/-- A success of the parser is a derivation. -/
theorem derives_of_expression {c m : Cursor} {t : Tree} {h : m.rest.length < c.rest.length}
    (heq : expression c = .ok ⟨(t, m), h⟩) : Derives .expression c t m :=
  (derivable c.rest.length).1 rfl heq

/-! ## From derivations to the parser -/

/-- The parser of a phrase reads the tree between the two cursors. -/
def Phrase.Reads : Phrase → Cursor → Tree → Cursor → Prop
  | expression, c, t, n => ∃ h, Expr.expression c = .ok ⟨(t, n), h⟩
  | sums l, c, t, n => ∃ h, Expr.sums l c = .ok ⟨(t, n), h⟩
  | term, c, t, n => ∃ h, Expr.term c = .ok ⟨(t, n), h⟩
  | products l, c, t, n => ∃ h, Expr.products l c = .ok ⟨(t, n), h⟩
  | factor, c, t, n => ∃ h, Expr.factor c = .ok ⟨(t, n), h⟩

/-- A number starts with a digit or a point. -/
theorem peek_of_number {c n : Cursor} {t : Tree} {h : n.rest.length < c.rest.length}
    (heq : number c = .ok ⟨(t, n), h⟩) :
    ∃ x, c.peek = some x ∧ (x == '.' || x.isDigit) = true := by
  rcases c with ⟨cs, p⟩
  cases cs with
  | nil => exact absurd h (by simp)
  | cons x rest =>
    refine ⟨x, rfl, ?_⟩
    unfold number at heq
    split at heq
    · cases heq
    · rename_i run next hrun
      split at heq
      · cases heq
      · cases heq
        have hlength := length_of_literalRun hrun
        by_contra hx
        rw [Bool.not_eq_true, Bool.or_eq_false_iff, beq_eq_false_iff_ne] at hx
        simp only [literalRun, hx.1, hx.2, false_and, or_self, if_false, Bool.false_eq_true,
          Except.ok.injEq, Prod.mk.injEq] at hrun
        obtain ⟨-, rfl⟩ := hrun
        exact absurd h (by simp)

/-- A run of digits and points that has a value is a number. -/
theorem number_of_literal {c n : Cursor} {run : List Char} {v : Float}
    (hrun : literalRun false c.rest c.position = .ok (run, n)) (hv : Decimal.literal? run = some v)
    (h : n.rest.length < c.rest.length) : number c = .ok ⟨(.leaf v, n), h⟩ := by
  unfold number
  split
  · rename_i e he
    cases hrun.symm.trans he
  · rename_i run' next he
    cases hrun.symm.trans he
    split
    · rename_i hv'
      cases hv.symm.trans hv'
    · rename_i v' hv'
      cases hv.symm.trans hv'
      rfl

namespace Phrase.Reads

variable {c n m : Cursor} {l r t : Tree} {op : Operator}

theorem expression (hterm : term.Reads c l n) (hsums : (sums l).Reads n t m) :
    Phrase.expression.Reads c t m := by
  obtain ⟨h1, e1⟩ := hterm
  obtain ⟨h2, e2⟩ := hsums
  refine ⟨Nat.lt_of_le_of_lt h2 h1, ?_⟩
  rw [Expr.expression, e1]
  dsimp only
  rw [e2]

/-- A chain of sums ends before anything but a sign. -/
theorem sumsEnd (hop : sumOperator? c.skip.peek = none) : (sums l).Reads c l c.skip := by
  refine ⟨Cursor.length_skip_le _, ?_⟩
  rw [Expr.sums]
  split
  · rfl
  · rename_i op hop'
    exact absurd (hop'.symm.trans hop) (by simp)

theorem sumsNext (hop : sumOperator? c.skip.peek = some op) (hterm : term.Reads c.skip.advance r n)
    (hsums : (sums (.node op l r)).Reads n t m) : (sums l).Reads c t m := by
  obtain ⟨h1, e1⟩ := hterm
  obtain ⟨h2, e2⟩ := hsums
  obtain ⟨x, hx⟩ := exists_of_sumOperator? hop
  have hlt := Cursor.length_next_lt hx
  have h1' : n.rest.length < c.skip.advance.rest.length := h1
  have h2' : m.rest.length ≤ n.rest.length := h2
  refine ⟨show m.rest.length ≤ c.rest.length by omega, ?_⟩
  rw [Expr.sums]
  split
  · rename_i hop'
    exact absurd (hop'.symm.trans hop) (by simp)
  · rename_i op' hop'
    cases hop.symm.trans hop'
    dsimp only
    rw [e1]
    dsimp only
    rw [e2]

theorem term (hfactor : factor.Reads c l n) (hproducts : (products l).Reads n t m) :
    Phrase.term.Reads c t m := by
  obtain ⟨h1, e1⟩ := hfactor
  obtain ⟨h2, e2⟩ := hproducts
  refine ⟨Nat.lt_of_le_of_lt h2 h1, ?_⟩
  rw [Expr.term, e1]
  dsimp only
  rw [e2]

theorem productsEnd (hop : productOperator? c.skip.peek = none) :
    (products l).Reads c l c.skip := by
  refine ⟨Cursor.length_skip_le _, ?_⟩
  rw [Expr.products]
  split
  · rfl
  · rename_i op hop'
    exact absurd (hop'.symm.trans hop) (by simp)

theorem productsNext (hop : productOperator? c.skip.peek = some op)
    (hfactor : factor.Reads c.skip.advance r n)
    (hproducts : (products (.node op l r)).Reads n t m) : (products l).Reads c t m := by
  obtain ⟨h1, e1⟩ := hfactor
  obtain ⟨h2, e2⟩ := hproducts
  obtain ⟨x, hx⟩ := exists_of_productOperator? hop
  have hlt := Cursor.length_next_lt hx
  have h1' : n.rest.length < c.skip.advance.rest.length := h1
  have h2' : m.rest.length ≤ n.rest.length := h2
  refine ⟨show m.rest.length ≤ c.rest.length by omega, ?_⟩
  rw [Expr.products]
  split
  · rename_i hop'
    exact absurd (hop'.symm.trans hop) (by simp)
  · rename_i op' hop'
    cases hop.symm.trans hop'
    dsimp only
    rw [e1]
    dsimp only
    rw [e2]

theorem negation (hp : c.skip.peek = some '-') (hfactor : factor.Reads c.skip.advance t n) :
    factor.Reads c (negate t) n := by
  obtain ⟨h1, e1⟩ := hfactor
  refine ⟨Nat.lt_trans h1 (Cursor.length_next_lt hp), ?_⟩
  rw [Expr.factor]
  split
  · dsimp only
    rw [e1]
  · rename_i hp'
    exact absurd (hp'.symm.trans hp) (by decide)
  · rename_i hnot _
    exact absurd hp hnot

theorem parentheses (hp : c.skip.peek = some '(')
    (hexpression : Phrase.expression.Reads c.skip.advance t n) (hclose : n.skip.peek = some ')') :
    factor.Reads c t n.skip.advance := by
  obtain ⟨h1, e1⟩ := hexpression
  have hlt := Cursor.length_next_lt hp
  have h1' : n.rest.length < c.skip.advance.rest.length := h1
  have h2 := Cursor.length_advance_le n.skip
  have h3 := n.length_skip_le
  refine ⟨show n.skip.advance.rest.length < c.rest.length by omega, ?_⟩
  rw [Expr.factor]
  split
  · rename_i hp'
    exact absurd (hp'.symm.trans hp) (by decide)
  · dsimp only
    rw [e1]
    dsimp only
    rw [if_pos hclose]
  · rename_i _ hnot
    exact absurd hp hnot

theorem number {hlt : n.rest.length < c.skip.rest.length}
    (hnumber : Expr.number c.skip = .ok ⟨(t, n), hlt⟩) : factor.Reads c t n := by
  obtain ⟨x, hx, hstart⟩ := peek_of_number hnumber
  refine ⟨Nat.lt_of_lt_of_le hlt c.length_skip_le, ?_⟩
  rw [Expr.factor]
  split
  · rename_i hp
    rw [hp] at hx
    cases hx
    exact absurd hstart (by decide)
  · rename_i hp
    rw [hp] at hx
    cases hx
    exact absurd hstart (by decide)
  · rw [hx, Option.any_some, if_pos hstart, hnumber]

end Phrase.Reads

/-- Whatever is derived is what the parser reads. -/
theorem Derives.reads {phrase : Phrase} {c n : Cursor} {t : Tree} (h : Derives phrase c t n) :
    phrase.Reads c t n := by
  induction h with
  | expression _ _ ihterm ihsums => exact .expression ihterm ihsums
  | sumsEnd hop => exact .sumsEnd hop
  | sumsNext hop _ _ ihterm ihsums => exact .sumsNext hop ihterm ihsums
  | term _ _ ihfactor ihproducts => exact .term ihfactor ihproducts
  | productsEnd hop => exact .productsEnd hop
  | productsNext hop _ _ ihfactor ihproducts => exact .productsNext hop ihfactor ihproducts
  | negation hp _ ihfactor => exact .negation hp ihfactor
  | parentheses hp _ hclose ihexpression => exact .parentheses hp ihexpression hclose
  | number hnumber => exact .number hnumber

/-! ## The text between two cursors -/

/-- The text from one cursor to another, which holds no NUL. -/
def Cursor.Spans (c n : Cursor) : Prop :=
  ∃ front, c.rest = front ++ n.rest ∧ '\x00' ∉ front

namespace Cursor

theorem Spans.trans {c n m : Cursor} (h : c.Spans n) (h' : n.Spans m) : c.Spans m := by
  obtain ⟨front, hc, hfront⟩ := h
  obtain ⟨next, hn, hnext⟩ := h'
  refine ⟨front ++ next, by rw [hc, hn, List.append_assoc], ?_⟩
  rw [List.mem_append]
  exact fun h => h.elim hfront hnext

theorem spans_skipFrom (cs : List Char) (p q : Nat) : Spans ⟨cs, q⟩ (skipFrom cs p) := by
  induction cs generalizing p q with
  | nil => exact ⟨[], rfl, List.not_mem_nil⟩
  | cons x rest ih =>
    rw [skipFrom]
    split_ifs with hx
    · obtain ⟨front, hrest, hfront⟩ := ih (p + x.utf8Size) q
      refine ⟨x :: front, congrArg (x :: ·) hrest, ?_⟩
      rw [List.mem_cons]
      rintro (rfl | h)
      · exact absurd hx (by decide)
      · exact hfront h
    · exact ⟨[], rfl, List.not_mem_nil⟩

theorem spans_skip (c : Cursor) : c.Spans c.skip := spans_skipFrom c.rest c.position c.position

theorem spans_advance {c : Cursor} {x : Char} (h : c.peek = some x) (hx : x ≠ '\x00') :
    c.Spans c.advance := by
  rcases c with ⟨_ | ⟨y, rest⟩, p⟩
  · cases h
  · cases h
    exact ⟨[x], rfl, by simpa using hx.symm⟩

/-- Past the next token, if it is one character other than NUL. -/
theorem spans_next {c : Cursor} {x : Char} (h : c.skip.peek = some x) (hx : x ≠ '\x00') :
    c.Spans c.skip.advance :=
  c.spans_skip.trans (spans_advance h hx)

end Cursor

theorem ne_nul_of_sumOperator? {x : Char} {op : Operator} (h : sumOperator? (some x) = some op) :
    x ≠ '\x00' := by
  rintro rfl
  cases h

theorem ne_nul_of_productOperator? {x : Char} {op : Operator}
    (h : productOperator? (some x) = some op) : x ≠ '\x00' := by
  rintro rfl
  cases h

theorem spans_of_literalRun {seen : Bool} {cs : List Char} {p q : Nat} {run : List Char}
    {next : Cursor} (h : literalRun seen cs p = .ok (run, next)) : Cursor.Spans ⟨cs, q⟩ next := by
  induction cs generalizing seen p q run next with
  | nil =>
    cases h
    exact ⟨[], rfl, List.not_mem_nil⟩
  | cons x rest ih =>
    rw [literalRun] at h
    split_ifs at h with hpoint hdigit
    · rcases hr : literalRun (seen || x == '.') rest (p + x.utf8Size) with e | ⟨run', next'⟩
      · rw [hr] at h
        cases h
      · rw [hr] at h
        cases h
        obtain ⟨front, hrest, hfront⟩ := ih (q := q) hr
        refine ⟨x :: front, congrArg (x :: ·) hrest, ?_⟩
        rw [List.mem_cons]
        rintro (rfl | h)
        · exact absurd hdigit (by decide)
        · exact hfront h
    · cases h
      exact ⟨[], rfl, List.not_mem_nil⟩

/-- What a number reads as. -/
theorem number_ok {c n : Cursor} {t : Tree} {h : n.rest.length < c.rest.length}
    (heq : number c = .ok ⟨(t, n), h⟩) :
    ∃ run v, literalRun false c.rest c.position = .ok (run, n) ∧
      Decimal.literal? run = some v ∧ t = .leaf v := by
  unfold number at heq
  split at heq
  · cases heq
  · rename_i run next hrun
    split at heq
    · cases heq
    · rename_i v hv
      cases heq
      exact ⟨run, v, hrun, hv, rfl⟩

/-- The text that was read holds no NUL. -/
theorem Derives.spans {phrase : Phrase} {c n : Cursor} {t : Tree} (h : Derives phrase c t n) :
    c.Spans n := by
  induction h with
  | expression _ _ ihl iht | term _ _ ihl iht => exact ihl.trans iht
  | sumsEnd _ | productsEnd _ => exact Cursor.spans_skip _
  | sumsNext hop _ _ ihr iht =>
    obtain ⟨x, hx⟩ := exists_of_sumOperator? hop
    rw [hx] at hop
    exact (Cursor.spans_next hx (ne_nul_of_sumOperator? hop)).trans (ihr.trans iht)
  | productsNext hop _ _ ihr iht =>
    obtain ⟨x, hx⟩ := exists_of_productOperator? hop
    rw [hx] at hop
    exact (Cursor.spans_next hx (ne_nul_of_productOperator? hop)).trans (ihr.trans iht)
  | negation hp _ ih => exact (Cursor.spans_next hp (by decide)).trans ih
  | parentheses hp _ hclose ih =>
    exact (Cursor.spans_next hp (by decide)).trans
      (ih.trans (Cursor.spans_next hclose (by decide)))
  | number hnumber =>
    obtain ⟨run, v, hrun, -, -⟩ := number_ok hnumber
    exact (Cursor.spans_skip _).trans (spans_of_literalRun hrun)

/-! ## The numbers in the tree -/

theorem finite_negate {t : Tree} (h : t.Finite) : (negate t).Finite := by
  cases t with
  | leaf v => exact Number.isFinite_neg h
  | node op l r => exact ⟨(by decide : (-1 : Float).isFinite = true), h⟩

theorem isFinite_of_literal? {cs : List Char} {v : Float} (h : Decimal.literal? cs = some v) :
    v.isFinite = true := by
  unfold Decimal.literal? at h
  split at h
  · dsimp only at h
    split_ifs at h with hv
    cases h
    exact hv
  · cases h

/-- The front of a chain, as far as it was read already. -/
def Phrase.Finite : Phrase → Prop
  | .sums l | .products l => l.Finite
  | .expression | .term | .factor => True

/-- Every number that was read is finite. -/
theorem Derives.finite {phrase : Phrase} {c n : Cursor} {t : Tree} (h : Derives phrase c t n)
    (hp : phrase.Finite) : t.Finite := by
  induction h with
  | expression _ _ ihl iht | term _ _ ihl iht => exact iht (ihl trivial)
  | sumsEnd _ | productsEnd _ => exact hp
  | sumsNext _ _ _ ihr iht | productsNext _ _ _ ihr iht => exact iht ⟨hp, ihr trivial⟩
  | negation _ _ ih => exact finite_negate (ih trivial)
  | parentheses _ _ _ ih => exact ih trivial
  | number hnumber =>
    obtain ⟨run, v, -, hv, rfl⟩ := number_ok hnumber
    exact isFinite_of_literal? hv

/-! ## Whole texts -/

/-- A text that parses was read from its start, and nothing but spaces is left of it. -/
theorem derives_of_parse {s : String} {t : Tree} (h : parse s = .ok t) :
    ∃ n, Derives .expression (.start s.toList) t n ∧ n.skip.rest = [] := by
  unfold parse parseChars at h
  split_ifs at h with hblank
  split at h
  · cases h
  · rename_i t' n hn heq
    split at h
    · cases h
    · rename_i hend
      cases h
      refine ⟨n, derives_of_expression heq, ?_⟩
      rw [Cursor.peek, List.head?_eq_none_iff] at hend
      exact hend

/-- A text that is derived from its start to its end parses, unless it is blank. -/
theorem parse_of_derives {s : String} {t : Tree} {n : Cursor}
    (hblank : Text.allBlank s.toList = false) (h : Derives .expression (.start s.toList) t n)
    (hend : n.skip.rest = []) : parse s = .ok t := by
  obtain ⟨hlt, heq⟩ := h.reads
  have hpeek : n.skip.peek = none := by rw [Cursor.peek, hend, List.head?_nil]
  unfold parse parseChars
  rw [hblank, heq]
  dsimp only
  rw [if_neg Bool.false_ne_true, hpeek]

/-- Every number of an expression is finite. -/
theorem finite_of_parse {s : String} {t : Tree} (h : parse s = .ok t) : t.Finite := by
  obtain ⟨n, hn, -⟩ := derives_of_parse h
  exact hn.finite trivial

/-- A column of texts gives an expression back as it was written. -/
theorem columnText_of_parse {s : String} {t : Tree} (h : parse s = .ok t) : columnText s = s := by
  obtain ⟨n, hn, hend⟩ := derives_of_parse h
  obtain ⟨front, hs, hfront⟩ := hn.spans.trans n.spans_skip
  rw [hend, List.append_nil] at hs
  have hs' : s.toList = front := hs
  have htake : front.takeWhile (· != '\x00') = front := by
    rw [List.takeWhile_eq_self_iff]
    intro x hx
    rw [bne_iff_ne]
    rintro rfl
    exact hfront hx
  rw [columnText, hs', htake, ← hs', String.ofList_toList]

/-- A sum of two numbers is derived from its start to its end. -/
theorem parse_sum : parse "1+2" = .ok (.node .add (.leaf 1) (.leaf 2)) := by
  have hone : Derives .factor ⟨['1', '+', '2'], 0⟩ (.leaf 1) ⟨['+', '2'], 1⟩ := by
    have hrun : literalRun false ['1', '+', '2'] 0 = .ok (['1'], ⟨['+', '2'], 1⟩) := rfl
    have hvalue : Decimal.literal? ['1'] = some 1 := by decide +kernel
    exact .number (number_of_literal (c := ⟨['1', '+', '2'], 0⟩) hrun hvalue (by decide))
  have htwo : Derives .factor ⟨['2'], 2⟩ (.leaf 2) ⟨[], 3⟩ := by
    have hrun : literalRun false ['2'] 2 = .ok (['2'], ⟨[], 3⟩) := rfl
    have hvalue : Decimal.literal? ['2'] = some 2 := by decide +kernel
    exact .number (number_of_literal (c := ⟨['2'], 2⟩) hrun hvalue (by decide))
  exact parse_of_derives (by decide) (.expression (.term hone (.productsEnd rfl))
    (.sumsNext rfl (.term htwo (.productsEnd rfl)) (.sumsEnd rfl))) rfl

end Expr

end Piecework
