import Piecework.Proofs.Decimal.Nearest
import Piecework.Proofs.Expr.Derivation

/-!
# The grammar of expressions

The texts of expressions and the trees that they stand for, without a parser:

```text
expression := term (('+' | '-') term)*
term       := factor (('*' | '/') factor)*
factor     := '-' factor | '(' expression ')' | numeral
```

Blanks may stand in front of each token and at the end.  A chain grows at its right end, so
that `Generates` has one rule for a chain with one operand and one for a further operand, and
the tree of a chain leans to the left.

* `Derives.generated`: what the parser reads is generated.  The parser passes over the blanks
  behind a chain, which the grammar leaves to the next token; `Padded` is a text with such
  blanks.
* `Generates.read`: what is generated is read, whatever follows, as long as it cannot continue
  the text.
* `parse_eq_ok_iff` puts both together.

The number of a numeral is the finite float that it rounds to (`Decimal.Reads`).
-/

namespace Piecework.Expr

open Decimal (Numeral)

/-- A run of the characters that may stand between tokens. -/
def Blank (cs : List Char) : Prop :=
  ∀ c ∈ cs, c = ' ' ∨ c = '\t' ∨ c = '\n' ∨ c = '\r'

/-- The signs that continue a sum. -/
inductive SumSign : Char → Operator → Prop
  | plus : SumSign '+' .add
  | minus : SumSign '-' .sub

/-- The signs that continue a product. -/
inductive ProductSign : Char → Operator → Prop
  | times : ProductSign '*' .mul
  | over : ProductSign '/' .div

/-- What a text can be generated as. -/
inductive Nonterminal where
  | expression
  | term
  | factor

/-- The grammar generates the text, which stands for the tree. -/
inductive Generates : Nonterminal → List Char → Tree → Prop
  | oneTerm {s : List Char} {t : Tree} : Generates .term s t → Generates .expression s t
  | sum {s b s' : List Char} {sign : Char} {op : Operator} {l r : Tree} :
      Generates .expression s l → Blank b → SumSign sign op → Generates .term s' r →
      Generates .expression (s ++ b ++ sign :: s') (.node op l r)
  | oneFactor {s : List Char} {t : Tree} : Generates .factor s t → Generates .term s t
  | product {s b s' : List Char} {sign : Char} {op : Operator} {l r : Tree} :
      Generates .term s l → Blank b → ProductSign sign op → Generates .factor s' r →
      Generates .term (s ++ b ++ sign :: s') (.node op l r)
  | minusNumber {b s : List Char} {v : Float} : Blank b → Generates .factor s (.leaf v) →
      Generates .factor (b ++ '-' :: s) (.leaf (-v))
  | minusOperation {b s : List Char} {op : Operator} {l r : Tree} : Blank b →
      Generates .factor s (.node op l r) →
      Generates .factor (b ++ '-' :: s) (.node .mul (.leaf (-1)) (.node op l r))
  | parentheses {b s b' : List Char} {t : Tree} : Blank b → Generates .expression s t →
      Blank b' → Generates .factor (b ++ '(' :: s ++ b' ++ [')']) t
  | number {b run : List Char} {v : Float} : Blank b → Decimal.Reads run v →
      Generates .factor (b ++ run) (.leaf v)

/-- The text is generated, with blanks at its end. -/
def Padded (symbol : Nonterminal) (cs : List Char) (t : Tree) : Prop :=
  ∃ s b, cs = s ++ b ∧ Generates symbol s t ∧ Blank b

/-! ## Blanks -/

@[simp] theorem blank_nil : Blank [] := by simp [Blank]

theorem Blank.append {b b' : List Char} (h : Blank b) (h' : Blank b') : Blank (b ++ b') := by
  intro c hc
  rcases List.mem_append.1 hc with hc | hc
  · exact h c hc
  · exact h' c hc

theorem isSpace_iff {c : Char} : isSpace c = true ↔ c = ' ' ∨ c = '\t' ∨ c = '\n' ∨ c = '\r' := by
  simp [isSpace, or_assoc]

theorem not_isSpace_of_isDigit {c : Char} (h : c.isDigit = true) : isSpace c = false := by
  rw [Char.isDigit_iff_toNat] at h
  rw [Bool.eq_false_iff]
  intro hspace
  rcases isSpace_iff.1 hspace with rfl | rfl | rfl | rfl <;> revert h <;> decide

theorem not_isBlank_of_isDigit {c : Char} (h : c.isDigit = true) : Text.isBlank c = false := by
  rw [Char.isDigit_iff_toNat] at h
  have hzero : '0'.toNat = 48 := rfl
  have hnine : '9'.toNat = 57 := rfl
  simp only [Text.isBlank, Bool.or_eq_false_iff, Bool.and_eq_false_iff, decide_eq_false_iff_not,
    beq_eq_false_iff_ne]
  omega

namespace Cursor

/-- Only blanks are passed over, and all of them. -/
theorem skipFrom_eq (cs : List Char) (p : Nat) :
    ∃ b, Blank b ∧ cs = b ++ (skipFrom cs p).rest ∧
      ∀ c, (skipFrom cs p).peek = some c → isSpace c = false := by
  induction cs generalizing p with
  | nil => exact ⟨[], blank_nil, rfl, by simp [skipFrom, peek]⟩
  | cons c rest ih =>
    rw [skipFrom]
    split_ifs with hspace
    · obtain ⟨b, hb, hrest, hpeek⟩ := ih (p + c.utf8Size)
      refine ⟨c :: b, ?_, congrArg (c :: ·) hrest, hpeek⟩
      intro x hx
      rcases List.mem_cons.1 hx with rfl | hx
      · exact isSpace_iff.1 hspace
      · exact hb x hx
    · refine ⟨[], blank_nil, rfl, fun x hx => ?_⟩
      cases hx
      simpa using hspace

theorem exists_blank (c : Cursor) : ∃ b, Blank b ∧ c.rest = b ++ c.skip.rest := by
  obtain ⟨b, hb, hrest, -⟩ := skipFrom_eq c.rest c.position
  exact ⟨b, hb, hrest⟩

/-- Blanks in front of a text are passed over. -/
theorem skip_blank {b : List Char} (hb : Blank b) (rest : List Char)
    (hrest : ∀ c, rest.head? = some c → isSpace c = false) (p : Nat) :
    ∃ q, skip ⟨b ++ rest, p⟩ = ⟨rest, q⟩ := by
  unfold skip
  dsimp only
  induction b generalizing p with
  | nil =>
    cases rest with
    | nil => exact ⟨p, rfl⟩
    | cons c rest =>
      refine ⟨p, ?_⟩
      rw [List.nil_append, skipFrom, hrest c rfl, if_neg Bool.false_ne_true]
  | cons c b ih =>
    have hspace : isSpace c = true := isSpace_iff.2 (hb c List.mem_cons_self)
    obtain ⟨q, hq⟩ := ih (fun x hx => hb x (List.mem_cons_of_mem _ hx)) (p + c.utf8Size)
    refine ⟨q, ?_⟩
    rw [List.cons_append, skipFrom, hspace, if_pos rfl, hq]

@[simp] theorem skip_skip (c : Cursor) : c.skip.skip = c.skip := by
  obtain ⟨-, -, -, hpeek⟩ := skipFrom_eq c.rest c.position
  change ∀ x, c.skip.peek = some x → isSpace x = false at hpeek
  generalize c.skip = n at hpeek ⊢
  rcases n with ⟨_ | ⟨x, rest⟩, p⟩
  · rfl
  · rw [skip, skipFrom, hpeek x rfl, if_neg Bool.false_ne_true]

/-- The text between the cursor and the next token and behind it. -/
theorem rest_eq_of_peek {c : Cursor} {x : Char} (h : c.peek = some x) :
    c.rest = x :: c.advance.rest := by
  rcases c with ⟨_ | ⟨y, rest⟩, p⟩
  · cases h
  · cases h
    rfl

theorem exists_token {c : Cursor} {x : Char} (h : c.skip.peek = some x) :
    ∃ b, Blank b ∧ c.rest = b ++ x :: c.skip.advance.rest := by
  obtain ⟨b, hb, hrest⟩ := c.exists_blank
  exact ⟨b, hb, by rw [← rest_eq_of_peek h, ← hrest]⟩

end Cursor

/-! ## Signs -/

theorem sumOperator?_eq_some_iff {c : Option Char} {op : Operator} :
    sumOperator? c = some op ↔ ∃ sign, c = some sign ∧ SumSign sign op := by
  constructor
  · intro h
    unfold sumOperator? at h
    split at h <;> cases h
    · exact ⟨'+', rfl, .plus⟩
    · exact ⟨'-', rfl, .minus⟩
  · rintro ⟨sign, rfl, hsign⟩
    cases hsign <;> rfl

theorem productOperator?_eq_some_iff {c : Option Char} {op : Operator} :
    productOperator? c = some op ↔ ∃ sign, c = some sign ∧ ProductSign sign op := by
  constructor
  · intro h
    unfold productOperator? at h
    split at h <;> cases h
    · exact ⟨'*', rfl, .times⟩
    · exact ⟨'/', rfl, .over⟩
  · rintro ⟨sign, rfl, hsign⟩
    cases hsign <;> rfl

/-! ## What is read is generated -/

theorem generates_negate {b s : List Char} {t : Tree} (hb : Blank b) (h : Generates .factor s t) :
    Generates .factor (b ++ '-' :: s) (negate t) := by
  cases t with
  | leaf v => exact .minusNumber hb h
  | node op l r => exact .minusOperation hb h

theorem Padded.oneTerm {cs : List Char} {t : Tree} (h : Padded .term cs t) :
    Padded .expression cs t := by
  obtain ⟨s, b, rfl, hs, hb⟩ := h
  exact ⟨s, b, rfl, .oneTerm hs, hb⟩

/-- A chain goes on behind its blanks. -/
theorem Padded.sum {cs b cs' : List Char} {sign : Char} {op : Operator} {l r : Tree}
    (h : Padded .expression cs l) (hb : Blank b) (hsign : SumSign sign op)
    (h' : Padded .term cs' r) : Padded .expression (cs ++ b ++ sign :: cs') (.node op l r) := by
  obtain ⟨s, pad, rfl, hs, hpad⟩ := h
  obtain ⟨s', pad', rfl, hs', hpad'⟩ := h'
  exact ⟨s ++ (pad ++ b) ++ sign :: s', pad', by simp, .sum hs (hpad.append hb) hsign hs', hpad'⟩

theorem Padded.product {cs b s' : List Char} {sign : Char} {op : Operator} {l r : Tree}
    (h : Padded .term cs l) (hb : Blank b) (hsign : ProductSign sign op)
    (h' : Generates .factor s' r) : Padded .term (cs ++ b ++ sign :: s') (.node op l r) := by
  obtain ⟨s, pad, rfl, hs, hpad⟩ := h
  exact ⟨s ++ (pad ++ b) ++ sign :: s', [], by simp, .product hs (hpad.append hb) hsign h',
    blank_nil⟩

/-- What it means for the grammar that a phrase was read.  The front of a chain may be any text
that stands for its tree. -/
def Phrase.Generated : Phrase → List Char → Tree → Prop
  | expression, cs, t => Padded .expression cs t
  | sums l, cs, t => ∀ front, Padded .expression front l → Padded .expression (front ++ cs) t
  | term, cs, t => Padded .term cs t
  | products l, cs, t => ∀ front, Padded .term front l → Padded .term (front ++ cs) t
  | factor, cs, t => Generates .factor cs t

theorem Padded.append {symbol : Nonterminal} {cs b : List Char} {t : Tree}
    (h : Padded symbol cs t) (hb : Blank b) : Padded symbol (cs ++ b) t := by
  obtain ⟨s, pad, rfl, hs, hpad⟩ := h
  exact ⟨s, pad ++ b, List.append_assoc _ _ _, hs, hpad.append hb⟩

/-- A run of digits and points ends where the rest begins. -/
theorem eq_append_of_literalRun {seen : Bool} {cs : List Char} {p : Nat} {run : List Char}
    {next : Cursor} (h : literalRun seen cs p = .ok (run, next)) : cs = run ++ next.rest := by
  induction cs generalizing seen p run next with
  | nil =>
    cases h
    rfl
  | cons c rest ih =>
    rw [literalRun] at h
    split_ifs at h with hpoint hdigit
    · rcases hr : literalRun (seen || c == '.') rest (p + c.utf8Size) with e | ⟨run', next'⟩
      · rw [hr] at h
        cases h
      · rw [hr] at h
        cases h
        exact congrArg (c :: ·) (ih hr)
    · cases h
      rfl

/-- Whatever is read is generated. -/
theorem Derives.generated {phrase : Phrase} {c n : Cursor} {t : Tree} (h : Derives phrase c t n) :
    ∃ front, c.rest = front ++ n.rest ∧ phrase.Generated front t := by
  induction h with
  | @expression c n m l t _ _ ihterm ihsums =>
    obtain ⟨front, hc, hterm⟩ := ihterm
    obtain ⟨front', hn, hsums⟩ := ihsums
    exact ⟨front ++ front', by rw [hc, hn, List.append_assoc], hsums front (Padded.oneTerm hterm)⟩
  | @sumsEnd c l _ =>
    obtain ⟨b, hb, hc⟩ := c.exists_blank
    exact ⟨b, hc, fun front hfront => hfront.append hb⟩
  | @sumsNext c n m l r t op hop _ _ ihterm ihsums =>
    obtain ⟨sign, hpeek, hsign⟩ := sumOperator?_eq_some_iff.1 hop
    obtain ⟨b, hb, hc⟩ := Cursor.exists_token hpeek
    obtain ⟨front, hnext, hterm⟩ := ihterm
    obtain ⟨front', hn, hsums⟩ := ihsums
    refine ⟨b ++ sign :: (front ++ front'), by rw [hc, hnext, hn]; simp, fun start hstart => ?_⟩
    have hchain := hsums _ (hstart.sum hb hsign hterm)
    simpa using hchain
  | @term c n m l t _ _ ihfactor ihproducts =>
    obtain ⟨front, hc, hfactor⟩ := ihfactor
    obtain ⟨front', hn, hproducts⟩ := ihproducts
    refine ⟨front ++ front', by rw [hc, hn, List.append_assoc], hproducts front ?_⟩
    exact ⟨front, [], (List.append_nil front).symm, .oneFactor hfactor, blank_nil⟩
  | @productsEnd c l _ =>
    obtain ⟨b, hb, hc⟩ := c.exists_blank
    exact ⟨b, hc, fun front hfront => hfront.append hb⟩
  | @productsNext c n m l r t op hop _ _ ihfactor ihproducts =>
    obtain ⟨sign, hpeek, hsign⟩ := productOperator?_eq_some_iff.1 hop
    obtain ⟨b, hb, hc⟩ := Cursor.exists_token hpeek
    obtain ⟨front, hnext, hfactor⟩ := ihfactor
    obtain ⟨front', hn, hproducts⟩ := ihproducts
    refine ⟨b ++ sign :: (front ++ front'), by rw [hc, hnext, hn]; simp, fun start hstart => ?_⟩
    have hchain := hproducts _ (hstart.product hb hsign hfactor)
    simpa using hchain
  | @negation c n t hp _ ih =>
    obtain ⟨b, hb, hc⟩ := Cursor.exists_token hp
    obtain ⟨front, hnext, hfactor⟩ := ih
    exact ⟨b ++ '-' :: front, by rw [hc, hnext]; simp, generates_negate hb hfactor⟩
  | @parentheses c n t hp _ hclose ih =>
    obtain ⟨b, hb, hc⟩ := Cursor.exists_token hp
    obtain ⟨front, hnext, s, pad, rfl, hs, hpad⟩ := ih
    obtain ⟨b', hb', hn⟩ := Cursor.exists_token hclose
    refine ⟨b ++ '(' :: s ++ (pad ++ b') ++ [')'], by rw [hc, hnext, hn]; simp, ?_⟩
    exact .parentheses hb hs (hpad.append hb')
  | @number c n t h hnumber =>
    obtain ⟨run, v, hrun, hv, rfl⟩ := number_ok hnumber
    obtain ⟨b, hb, hc⟩ := c.exists_blank
    refine ⟨b ++ run, by rw [hc, eq_append_of_literalRun hrun, List.append_assoc], ?_⟩
    exact .number hb (Decimal.literal?_eq_some_iff.1 hv)

/-! ## What is generated is read -/

/-- The text does not continue a numeral. -/
def Stops (rest : List Char) : Prop :=
  ∀ c, rest.head? = some c → c.isDigit = false ∧ c ≠ '.'

theorem stops_nil : Stops [] := nofun

theorem stops_cons {c : Char} {rest : List Char} :
    Stops (c :: rest) ↔ c.isDigit = false ∧ c ≠ '.' := by
  simp [Stops]

/-- Neither blanks nor what stops continue a numeral. -/
theorem stops_blank {b rest : List Char} (hb : Blank b) (hrest : Stops rest) :
    Stops (b ++ rest) := by
  cases b with
  | nil => exact hrest
  | cons c b =>
    rw [List.cons_append, stops_cons]
    rcases hb c List.mem_cons_self with rfl | rfl | rfl | rfl <;> decide

theorem literalRun_cons {seen : Bool} {c : Char} {cs run : List Char} {p : Nat} {next : Cursor}
    (hc : c.isDigit = true) (h : literalRun seen cs (p + c.utf8Size) = .ok (run, next)) :
    literalRun seen (c :: cs) p = .ok (c :: run, next) := by
  have hpoint : c ≠ '.' := Decimal.ne_point_of_isDigit hc
  have hseen : (seen || c == '.') = seen := by simp [hpoint]
  rw [literalRun, if_neg (by simp [hpoint]), if_pos (.inr hc), hseen, h]
  rfl

theorem literalRun_digital {fs rest : List Char} (hfs : Decimal.Digital fs) (hrest : Stops rest)
    (seen : Bool) (p : Nat) : ∃ q, literalRun seen (fs ++ rest) p = .ok (fs, ⟨rest, q⟩) := by
  induction fs generalizing p with
  | nil =>
    cases rest with
    | nil => exact ⟨p, rfl⟩
    | cons c rest =>
      obtain ⟨hdigit, hpoint⟩ := stops_cons.1 hrest
      exact ⟨p, by simp [literalRun, hdigit, hpoint]⟩
  | cons c fs ih =>
    obtain ⟨hdigit, hfs⟩ := Decimal.digital_cons.1 hfs
    obtain ⟨q, hq⟩ := ih hfs (p + c.utf8Size)
    exact ⟨q, literalRun_cons hdigit hq⟩

/-- The whole numeral is read, and no more. -/
theorem literalRun_numeral {run rest : List Char} {m j : Nat} (h : Numeral run m j)
    (hrest : Stops rest) (p : Nat) :
    ∃ q, literalRun false (run ++ rest) p = .ok (run, ⟨rest, q⟩) := by
  cases h with
  | whole hrun _ => exact literalRun_digital hrun hrest false p
  | @point ds fs hds hfs _ =>
    clear * - hds hfs hrest
    induction ds generalizing p with
    | nil =>
      obtain ⟨q, hq⟩ := literalRun_digital hfs hrest true (p + '.'.utf8Size)
      exact ⟨q, by simp [literalRun, hq, bind, Except.bind]⟩
    | cons c ds ih =>
      obtain ⟨hdigit, hds⟩ := Decimal.digital_cons.1 hds
      obtain ⟨q, hq⟩ := ih (p + c.utf8Size) hds
      exact ⟨q, literalRun_cons hdigit hq⟩

/-- A numeral is a factor. -/
theorem derives_number {b run rest : List Char} {v : Float} (hb : Blank b)
    (hv : Decimal.Reads run v) (hrest : Stops rest) (p : Nat) :
    ∃ q, Derives .factor ⟨b ++ run ++ rest, p⟩ (.leaf v) ⟨rest, q⟩ := by
  obtain ⟨m, j, hnumeral, -⟩ := id hv
  obtain ⟨c, run', hhead, hc⟩ := hnumeral.exists_head
  have hstart : ∀ x, (run ++ rest).head? = some x → isSpace x = false := by
    intro x hx
    rw [hhead] at hx
    cases hx
    rcases hc with hdigit | rfl
    · exact not_isSpace_of_isDigit hdigit
    · decide
  obtain ⟨q, hskip⟩ := Cursor.skip_blank hb (run ++ rest) hstart p
  obtain ⟨q', hrun⟩ := literalRun_numeral hnumeral hrest q
  have hlength : rest.length < (run ++ rest).length := by
    simp only [hhead, List.length_cons, List.length_append]
    omega
  refine ⟨q', ?_⟩
  rw [List.append_assoc]
  have hnumber : number (Cursor.skip ⟨b ++ (run ++ rest), p⟩) =
      .ok ⟨(.leaf v, ⟨rest, q'⟩), by rw [hskip]; exact hlength⟩ :=
    number_of_literal (by rw [hskip]; exact hrun) (Decimal.literal?_eq_some_iff.2 hv) _
  exact .number hnumber

/-- What it means for the parser that a text is generated, with any text behind it.  A chain is
read on behind the text. -/
def Nonterminal.Read : Nonterminal → List Char → Tree → Prop
  | expression, s, t => ∀ rest, Stops rest →
      (∀ p, productOperator? (Cursor.skip ⟨rest, p⟩).peek = none) → ∀ p, ∃ q, ∀ t' n,
        Derives (.sums t) ⟨rest, q⟩ t' n → Derives .expression ⟨s ++ rest, p⟩ t' n
  | term, s, t => ∀ rest, Stops rest → ∀ p, ∃ q, ∀ t' n,
      Derives (.products t) ⟨rest, q⟩ t' n → Derives .term ⟨s ++ rest, p⟩ t' n
  | factor, s, t => ∀ rest, Stops rest → ∀ p, ∃ q, Derives .factor ⟨s ++ rest, p⟩ t ⟨rest, q⟩

/-- A chain of sums does not see the blanks in front of its next sign. -/
theorem Derives.sums_of_skip {l t : Tree} {c n : Cursor} (h : Derives (.sums l) c t n) :
    Derives (.sums l) c.skip t n := by
  generalize hphrase : Phrase.sums l = phrase at h
  cases h with
  | sumsEnd hop =>
    cases hphrase
    have hend := Derives.sumsEnd (c := c.skip) (l := l) (by rwa [Cursor.skip_skip])
    rwa [Cursor.skip_skip] at hend
  | sumsNext hop hterm hsums =>
    cases hphrase
    exact .sumsNext (by rwa [Cursor.skip_skip]) (by rwa [Cursor.skip_skip]) hsums
  | _ => cases hphrase

/-- A sign behind blanks is the next token. -/
theorem skip_sign {b : List Char} {sign : Char} (hb : Blank b) (hsign : isSpace sign = false)
    (rest : List Char) (p : Nat) : ∃ q q', Cursor.skip ⟨b ++ sign :: rest, p⟩ = ⟨sign :: rest, q⟩ ∧
      (Cursor.skip ⟨b ++ sign :: rest, p⟩).advance = ⟨rest, q'⟩ := by
  obtain ⟨q, hskip⟩ := Cursor.skip_blank hb (sign :: rest)
    (by rintro c ⟨⟩; exact hsign) p
  exact ⟨q, q + sign.utf8Size, hskip, by rw [hskip]; rfl⟩

/-- A text in front of a sign or a parenthesis is complete. -/
theorem stops_sign {b rest : List Char} {sign : Char} (hb : Blank b)
    (hsign : sign.isDigit = false ∧ sign ≠ '.') : Stops (b ++ sign :: rest) :=
  stops_blank hb (stops_cons.2 hsign)

section Rules

variable {s b s' : List Char} {sign : Char} {op : Operator} {l r t : Tree}

theorem SumSign.not_isSpace (h : SumSign sign op) : isSpace sign = false := by
  cases h <;> rfl

theorem SumSign.stops (h : SumSign sign op) : sign.isDigit = false ∧ sign ≠ '.' := by
  cases h <;> decide

theorem ProductSign.not_isSpace (h : ProductSign sign op) : isSpace sign = false := by
  cases h <;> rfl

theorem ProductSign.stops (h : ProductSign sign op) : sign.isDigit = false ∧ sign ≠ '.' := by
  cases h <;> decide

/-- A chain of sums is read on behind a sign and a term.  The sign ends the chain of products in
front of it. -/
theorem read_sum (hl : Nonterminal.expression.Read s l) (hb : Blank b) (hsign : SumSign sign op)
    (hr : Nonterminal.term.Read s' r) :
    Nonterminal.expression.Read (s ++ b ++ sign :: s') (.node op l r) := by
  intro rest hrest hproduct p
  have hnone : ∀ p, productOperator? (Cursor.skip ⟨b ++ sign :: (s' ++ rest), p⟩).peek = none := by
    intro p
    obtain ⟨q, -, hskip, -⟩ := skip_sign hb hsign.not_isSpace (s' ++ rest) p
    rw [hskip]
    cases hsign <;> rfl
  obtain ⟨q, hchain⟩ := hl (b ++ sign :: (s' ++ rest)) (stops_sign hb hsign.stops) hnone p
  obtain ⟨q1, q2, hskip, hadvance⟩ := skip_sign hb hsign.not_isSpace (s' ++ rest) q
  obtain ⟨q3, hterm⟩ := hr rest hrest q2
  refine ⟨q3, fun t' n hsums => ?_⟩
  have hop : sumOperator? (Cursor.skip ⟨b ++ sign :: (s' ++ rest), q⟩).peek = some op := by
    rw [hskip]
    exact sumOperator?_eq_some_iff.2 ⟨sign, rfl, hsign⟩
  have hright := hterm r _ (.productsEnd (hproduct q3))
  rw [← hadvance] at hright
  have hread := hchain t' n (.sumsNext hop hright hsums.sums_of_skip)
  simpa using hread

/-- A chain of products is read on behind a sign and a factor. -/
theorem read_product (hl : Nonterminal.term.Read s l) (hb : Blank b) (hsign : ProductSign sign op)
    (hr : Nonterminal.factor.Read s' r) :
    Nonterminal.term.Read (s ++ b ++ sign :: s') (.node op l r) := by
  intro rest hrest p
  obtain ⟨q, hchain⟩ := hl (b ++ sign :: (s' ++ rest)) (stops_sign hb hsign.stops) p
  obtain ⟨q1, q2, hskip, hadvance⟩ := skip_sign hb hsign.not_isSpace (s' ++ rest) q
  obtain ⟨q3, hfactor⟩ := hr rest hrest q2
  refine ⟨q3, fun t' n hproducts => ?_⟩
  have hop : productOperator? (Cursor.skip ⟨b ++ sign :: (s' ++ rest), q⟩).peek = some op := by
    rw [hskip]
    exact productOperator?_eq_some_iff.2 ⟨sign, rfl, hsign⟩
  rw [← hadvance] at hfactor
  have hread := hchain t' n (.productsNext hop hfactor hproducts)
  simpa using hread

/-- A minus is read with the factor behind it. -/
theorem read_minus (hb : Blank b) (h : Nonterminal.factor.Read s t) :
    Nonterminal.factor.Read (b ++ '-' :: s) (negate t) := by
  intro rest hrest p
  obtain ⟨q, q1, hskip, hadvance⟩ := skip_sign hb (show isSpace '-' = false from rfl) (s ++ rest) p
  obtain ⟨q2, hfactor⟩ := h rest hrest q1
  rw [← hadvance] at hfactor
  have hread := Derives.negation (by rw [hskip]; rfl) hfactor
  exact ⟨q2, by simpa using hread⟩

/-- Between parentheses the chains of an expression end. -/
theorem read_parentheses {b' : List Char} (hb : Blank b) (h : Nonterminal.expression.Read s t)
    (hb' : Blank b') : Nonterminal.factor.Read (b ++ '(' :: s ++ b' ++ [')']) t := by
  intro rest hrest p
  obtain ⟨q, q1, hskip, hadvance⟩ :=
    skip_sign hb (show isSpace '(' = false from rfl) (s ++ (b' ++ ')' :: rest)) p
  have hclose : ∀ p, ∃ q, Cursor.skip ⟨b' ++ ')' :: rest, p⟩ = ⟨')' :: rest, q⟩ := by
    intro p
    obtain ⟨q, -, hskip, -⟩ := skip_sign hb' (show isSpace ')' = false from rfl) rest p
    exact ⟨q, hskip⟩
  have hproduct : ∀ p, productOperator? (Cursor.skip ⟨b' ++ ')' :: rest, p⟩).peek = none := by
    intro p
    obtain ⟨q, hskip⟩ := hclose p
    rw [hskip]
    rfl
  obtain ⟨q2, hchain⟩ := h (b' ++ ')' :: rest) (stops_sign hb' (by decide)) hproduct q1
  obtain ⟨q3, hskip'⟩ := hclose q2
  have hinner := hchain t _ (.sumsEnd (by rw [hskip']; rfl))
  rw [hskip', ← hadvance] at hinner
  have hread : Derives .factor ⟨b ++ '(' :: (s ++ (b' ++ ')' :: rest)), p⟩ t
      ⟨rest, q3 + ')'.utf8Size⟩ := .parentheses (by rw [hskip]; rfl) hinner rfl
  exact ⟨_, by simpa using hread⟩

end Rules

/-- Whatever is generated is read. -/
theorem Generates.read {symbol : Nonterminal} {s : List Char} {t : Tree}
    (h : Generates symbol s t) : symbol.Read s t := by
  induction h with
  | oneTerm _ ih =>
    intro rest hrest hproduct p
    obtain ⟨q, hterm⟩ := ih rest hrest p
    exact ⟨q, fun t' n hsums => .expression (hterm _ _ (.productsEnd (hproduct q)))
      hsums.sums_of_skip⟩
  | sum _ hb hsign _ ihl ihr => exact read_sum ihl hb hsign ihr
  | oneFactor _ ih =>
    intro rest hrest p
    obtain ⟨q, hfactor⟩ := ih rest hrest p
    exact ⟨q, fun t' n hproducts => .term hfactor hproducts⟩
  | product _ hb hsign _ ihl ihr => exact read_product ihl hb hsign ihr
  | minusNumber hb _ ih | minusOperation hb _ ih => exact read_minus hb ih
  | parentheses hb _ hb' ih => exact read_parentheses hb ih hb'
  | number hb hv => exact fun rest hrest p => derives_number hb hv hrest p

/-! ## Whole texts -/

/-- What is generated is not blank. -/
theorem Generates.exists_mem {symbol : Nonterminal} {s : List Char} {t : Tree}
    (h : Generates symbol s t) : ∃ c ∈ s, Text.isBlank c = false := by
  induction h with
  | oneTerm _ ih | oneFactor _ ih => exact ih
  | sum _ _ _ _ ih _ | product _ _ _ _ ih _ =>
    obtain ⟨c, hc, hblank⟩ := ih
    exact ⟨c, by simp [hc], hblank⟩
  | minusNumber => exact ⟨'-', by simp, by decide⟩
  | minusOperation => exact ⟨'-', by simp, by decide⟩
  | parentheses => exact ⟨'(', by simp, by decide⟩
  | number _ hv =>
    obtain ⟨m, j, hnumeral, -⟩ := hv
    obtain ⟨c, hc, hdigit⟩ := hnumeral.exists_digit
    exact ⟨c, by simp [hc], not_isBlank_of_isDigit hdigit⟩

theorem Padded.allBlank {symbol : Nonterminal} {cs : List Char} {t : Tree}
    (h : Padded symbol cs t) : Text.allBlank cs = false := by
  obtain ⟨s, b, rfl, hs, -⟩ := h
  obtain ⟨c, hc, hblank⟩ := hs.exists_mem
  rw [Text.allBlank, List.all_eq_false]
  exact ⟨c, List.mem_append_left _ hc, by simp [hblank]⟩

/-- What is generated as an expression is parsed. -/
theorem parse_of_padded {s : String} {t : Tree} (h : Padded .expression s.toList t) :
    parse s = .ok t := by
  have hblank := h.allBlank
  obtain ⟨body, b, htext, hbody, hb⟩ := h
  have hskip : ∀ p, ∃ q, Cursor.skip ⟨b, p⟩ = ⟨[], q⟩ := by
    intro p
    obtain ⟨q, hq⟩ := Cursor.skip_blank hb [] nofun p
    exact ⟨q, by rwa [List.append_nil] at hq⟩
  obtain ⟨q, hread⟩ := hbody.read b (by simpa using stops_blank hb stops_nil)
    (fun p => by obtain ⟨q, h⟩ := hskip p; rw [h]; rfl) 0
  obtain ⟨q', hq'⟩ := hskip q
  have hchain := hread t _ (.sumsEnd (by rw [hq']; rfl))
  rw [← htext] at hchain
  refine parse_of_derives hblank hchain ?_
  rw [Cursor.skip_skip, hq']

/-- A text is parsed exactly if it is generated as an expression with blanks at its end, and
gives the tree that it stands for.  All numbers of the tree are finite. -/
theorem parse_eq_ok_iff (s : String) (t : Tree) :
    (parse s = .ok t ↔ Padded .expression s.toList t) ∧ (parse s = .ok t → t.Finite) := by
  refine ⟨⟨fun h => ?_, parse_of_padded⟩, finite_of_parse⟩
  obtain ⟨n, hn, hend⟩ := derives_of_parse h
  obtain ⟨front, hfront, hgenerated⟩ := hn.generated
  obtain ⟨b, hb, hrest⟩ := n.exists_blank
  rw [hend, List.append_nil] at hrest
  have htext : s.toList = front ++ b := by rw [← hrest]; exact hfront
  rw [htext]
  exact Padded.append hgenerated hb

end Piecework.Expr
