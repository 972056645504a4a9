import Piecework.Proofs.Expr.Failure

/-!
# The parser in other texts

The parser looks at one character behind what it has read.  So what it does up to a place is the
same in every text that agrees up to there and has the same next character.  A success is even the
same in a text that goes on with a closing parenthesis or not at all, which ends every phrase.

* `Travels` relates two cursors, and the same places in other texts; `Travels.comp` puts two pieces
  of text together, and `Travels.behind` a token in front of one.
* `Derives.elsewhere` and `Fails.elsewhere` move a run of the parser to another text.
-/

namespace Piecework.Expr

open String (utf8Len utf8Len_append utf8Len_cons)

/-! ## From one cursor to another -/

namespace Cursor

/-- The text between two cursors. -/
def Passes (c : Cursor) (front : List Char) (n : Cursor) : Prop :=
  c.rest = front ++ n.rest ∧ n.position = c.position + utf8Len front

theorem Passes.trans {c n m : Cursor} {front back : List Char} (h : c.Passes front n)
    (h' : n.Passes back m) : c.Passes (front ++ back) m := by
  constructor
  · rw [h.1, h'.1, List.append_assoc]
  · rw [h'.2, h.2, utf8Len_append, Nat.add_assoc]

/-- Only one text stands between two cursors. -/
theorem Passes.unique {c n : Cursor} {front front' : List Char} (h : c.Passes front n)
    (h' : c.Passes front' n) : front = front' :=
  List.append_cancel_right (h.1.symm.trans h'.1)

theorem skipFrom_blank {b : List Char} (hb : Blank b) (rest : List Char) (p : Nat) :
    skipFrom (b ++ rest) p = skipFrom rest (p + utf8Len b) := by
  induction b generalizing p with
  | nil => rfl
  | cons c b ih =>
    have hspace : isSpace c = true := isSpace_iff.2 (hb c List.mem_cons_self)
    have hrest := ih (fun x hx => hb x (List.mem_cons_of_mem _ hx)) (p + c.utf8Size)
    rw [List.cons_append, skipFrom, if_pos hspace, hrest, utf8Len_cons]
    congr 1
    omega

/-- A text that does not go on with a blank. -/
def Flush (rest : List Char) : Prop := ∀ x, rest.head? = some x → isSpace x = false

/-- Exactly the blanks are passed over. -/
theorem skip_of_flush {b rest : List Char} (hb : Blank b) (hrest : Flush rest) (p : Nat) :
    skip ⟨b ++ rest, p⟩ = ⟨rest, p + utf8Len b⟩ := by
  show skipFrom (b ++ rest) p = _
  rw [skipFrom_blank hb]
  cases rest with
  | nil => rfl
  | cons x rest => rw [skipFrom, hrest x rfl, if_neg Bool.false_ne_true]

theorem flush_skip (c : Cursor) : Flush c.skip.rest := by
  obtain ⟨b, hb, hrest, hflush⟩ := skipFrom_eq c.rest c.position
  exact hflush

/-- Blanks are passed over wherever they stand. -/
theorem skip_elsewhere (c : Cursor) : ∃ b, Blank b ∧ c.Passes b c.skip ∧
    ∀ rest', Flush rest' → skip ⟨b ++ rest', c.position⟩ = ⟨rest', c.skip.position⟩ := by
  obtain ⟨b, hb, hrest⟩ := c.exists_blank
  have hskip : c.skip = ⟨c.skip.rest, c.position + utf8Len b⟩ := by
    rw [← skip_of_flush hb c.flush_skip, ← hrest]
  have hposition : c.skip.position = c.position + utf8Len b := congrArg position hskip
  refine ⟨b, hb, ⟨hrest, hposition⟩, ?_⟩
  intro rest' hflush
  rw [hposition]
  exact skip_of_flush hb hflush c.position

theorem position_advance {c : Cursor} {x : Char} (h : c.peek = some x) :
    c.advance.position = c.position + x.utf8Size := by
  obtain ⟨cs, p⟩ := c
  cases cs with
  | nil => cases h
  | cons y cs =>
    cases h
    rfl

/-- A token of one character is found wherever it stands, whatever follows it. -/
theorem token_elsewhere {c : Cursor} {x : Char} (h : c.skip.peek = some x) :
    ∃ front, front.getLast? = some x ∧ c.Passes front c.skip.advance ∧
      ∀ rest', (skip ⟨front ++ rest', c.position⟩).peek = c.skip.peek ∧
        (skip ⟨front ++ rest', c.position⟩).advance = ⟨rest', c.skip.advance.position⟩ := by
  obtain ⟨b, -, hpasses, hskip⟩ := c.skip_elsewhere
  have hrest := rest_eq_of_peek h
  have hadvance := position_advance h
  refine ⟨b ++ [x], by simp, ⟨?_, ?_⟩, ?_⟩
  · rw [hpasses.1, hrest]
    simp
  · rw [hadvance, hpasses.2]
    simp
    omega
  · intro rest'
    have hflush : Flush (x :: rest') := by
      intro y hy
      cases hy
      exact c.flush_skip x h
    rw [List.append_assoc, List.singleton_append, hskip _ hflush, hadvance, h]
    exact ⟨rfl, rfl⟩

end Cursor

/-! ## Texts that go on alike -/

/-- The text ends every phrase: nothing follows, or a closing parenthesis. -/
def Closing (rest : List Char) : Prop := ∀ x, rest.head? = some x → x = ')'

theorem closing_nil : Closing [] := nofun

theorem closing_parenthesis (rest : List Char) : Closing (')' :: rest) := by
  intro x hx
  cases hx
  rfl

/-- The second text goes on as the first one, or it ends every phrase. -/
def Alike (rest rest' : List Char) : Prop := rest'.head? = rest.head? ∨ Closing rest'

theorem head?_append_congr {rest rest' : List Char} (h : rest'.head? = rest.head?)
    (front : List Char) : (front ++ rest').head? = (front ++ rest).head? := by
  rw [List.head?_append, List.head?_append, h]

/-- The second text has the same character next. -/
def SameNext (rest rest' : List Char) : Prop := rest'.head? = rest.head?

/-- Behind one piece of text, texts go on alike. -/
theorem Alike.before {n m : Cursor} {back rest' : List Char} (hpasses : n.Passes back m)
    (h : Alike m.rest rest') : Alike n.rest (back ++ rest') := by
  rw [hpasses.1]
  cases back with
  | nil => exact h
  | cons x back => exact .inl rfl

theorem SameNext.flush {c : Cursor} {rest' : List Char} (h : SameNext c.skip.rest rest') :
    Cursor.Flush rest' :=
  fun x hx => c.flush_skip x (h ▸ hx)

theorem SameNext.before {n m : Cursor} {back rest' : List Char} (hpasses : n.Passes back m)
    (h : SameNext m.rest rest') : Alike n.rest (back ++ rest') :=
  Alike.before hpasses (.inl h)

/-- What holds of the next character, and of a closing parenthesis. -/
theorem Alike.next {rest rest' : List Char} {P : Char → Prop} (h : Alike rest rest')
    (hclosing : P ')') (hP : ∀ x, rest.head? = some x → P x) : ∀ x, rest'.head? = some x → P x := by
  intro x hx
  rcases h with h | h
  · exact hP x (h ▸ hx)
  · rw [h x hx]
    exact hclosing

theorem sumOperator?_eq_none_iff {o : Option Char} :
    sumOperator? o = none ↔ ∀ x, o = some x → sumOperator? (some x) = none := by
  cases o with
  | none => simp [sumOperator?]
  | some x => simp

theorem productOperator?_eq_none_iff {o : Option Char} :
    productOperator? o = none ↔ ∀ x, o = some x → productOperator? (some x) = none := by
  cases o with
  | none => simp [productOperator?]
  | some x => simp

/-! ## Numbers -/

/-- A run of digits and points is as long as it can be. -/
theorem stops_of_literalRun {seen : Bool} {cs run : List Char} {p : Nat} {next : Cursor}
    (h : literalRun seen cs p = .ok (run, next)) : Stops next.rest := by
  induction cs generalizing seen p run with
  | nil =>
    cases h
    exact stops_nil
  | cons c cs ih =>
    rw [literalRun] at h
    split_ifs at h with hpoint hnumeric
    · cases hr : literalRun (seen || c == '.') cs (p + c.utf8Size) with
      | error e =>
        rw [hr] at h
        cases h
      | ok r =>
        rw [hr] at h
        cases h
        exact ih hr
    · cases h
      rw [not_or, Bool.not_eq_true] at hnumeric
      exact stops_cons.2 ⟨hnumeric.2, hnumeric.1⟩

/-- The same run is read wherever it stands, if it ends there. -/
theorem literalRun_elsewhere {seen : Bool} {cs run : List Char} {p : Nat} {next : Cursor}
    (h : literalRun seen cs p = .ok (run, next)) :
    next.position = p + utf8Len run ∧
      ∀ rest', Stops rest' →
        literalRun seen (run ++ rest') p = .ok (run, ⟨rest', next.position⟩) := by
  induction cs generalizing seen p run with
  | nil =>
    cases h
    refine ⟨rfl, ?_⟩
    intro rest' hstops
    cases rest' with
    | nil => rfl
    | cons x rest' =>
      have hx := stops_cons.1 hstops
      simp [literalRun, hx]
  | cons c cs ih =>
    rw [literalRun] at h
    split_ifs at h with hpoint hnumeric
    · cases hr : literalRun (seen || c == '.') cs (p + c.utf8Size) with
      | error e =>
        rw [hr] at h
        cases h
      | ok r =>
        rw [hr] at h
        cases h
        obtain ⟨hposition, hrest⟩ := ih hr
        refine ⟨?_, ?_⟩
        · rw [hposition, utf8Len_cons]
          omega
        · intro rest' hstops
          rw [List.cons_append, literalRun, if_neg hpoint, if_pos hnumeric, hrest rest' hstops]
          rfl
    · cases h
      refine ⟨rfl, ?_⟩
      intro rest' hstops
      cases rest' with
      | nil => rfl
      | cons x rest' =>
        have hx := stops_cons.1 hstops
        simp [literalRun, hx]

theorem ne_nil_of_literal? {run : List Char} {v : Float} (h : Decimal.literal? run = some v) :
    run ≠ [] := by
  intro heq
  rw [heq] at h
  cases h

/-! ## In another text -/

/-- Two cursors are related, and also those at the same places in every text that goes on behind
the second one in an admitted way. -/
def Travels (admits : List Char → List Char → Prop) (P : Cursor → Cursor → Prop)
    (c n : Cursor) : Prop :=
  ∃ front, c.Passes front n ∧ ∀ rest', admits n.rest rest' →
    P ⟨front ++ rest', c.position⟩ ⟨rest', n.position⟩

/-- From a cursor to the next and on to a third one. -/
theorem Travels.comp {admits admits' : List Char → List Char → Prop}
    {P Q : Cursor → Cursor → Prop} {c n m : Cursor} (h : Travels admits P c n)
    (h' : Travels admits' Q n m) (hadmits : ∀ {back rest'}, n.Passes back m →
      admits' m.rest rest' → admits n.rest (back ++ rest')) :
    Travels admits' (Relation.Comp P Q) c m := by
  obtain ⟨front, hpasses, hP⟩ := h
  obtain ⟨back, hpasses', hQ⟩ := h'
  refine ⟨front ++ back, hpasses.trans hpasses', ?_⟩
  intro rest' hrest
  rw [List.append_assoc]
  exact ⟨_, hP _ (hadmits hpasses' hrest), hQ rest' hrest⟩

theorem Travels.imp {admits : List Char → List Char → Prop} {P Q : Cursor → Cursor → Prop}
    {c n : Cursor} (h : Travels admits P c n) (hQ : ∀ {a b}, P a b → Q a b) :
    Travels admits Q c n := by
  obtain ⟨front, hpasses, hP⟩ := h
  exact ⟨front, hpasses, fun rest' hrest => hQ (hP rest' hrest)⟩

theorem Travels.restrict {admits admits' : List Char → List Char → Prop}
    {P : Cursor → Cursor → Prop} {c n : Cursor} (h : Travels admits P c n)
    (hadmits : ∀ {rest'}, admits' n.rest rest' → admits n.rest rest') : Travels admits' P c n := by
  obtain ⟨front, hpasses, hP⟩ := h
  exact ⟨front, hpasses, fun rest' hrest => hP rest' (hadmits hrest)⟩

/-- A token. -/
theorem travels_token {admits : List Char → List Char → Prop} {c : Cursor} {x : Char}
    (h : c.skip.peek = some x) :
    Travels admits (fun a b => a.skip.peek = c.skip.peek ∧ a.skip.advance = b) c
      c.skip.advance := by
  obtain ⟨token, -, hpasses, htoken⟩ := Cursor.token_elsewhere h
  exact ⟨token, hpasses, fun rest' _ => htoken rest'⟩

/-- A token may stand in front of anything. -/
theorem Travels.behind {admits : List Char → List Char → Prop} {P : Cursor → Cursor → Prop}
    {c m : Cursor} {x : Char} (h : Travels admits P c.skip.advance m) (hx : c.skip.peek = some x) :
    Travels admits (fun a b => a.skip.peek = c.skip.peek ∧ P a.skip.advance b) c m := by
  have htoken := @travels_token (fun _ _ => True) c x hx
  apply (htoken.comp h fun _ _ => trivial).imp
  intro a d hall
  obtain ⟨b, ⟨hpeek, rfl⟩, hP⟩ := hall
  exact ⟨hpeek, hP⟩

/-- Blanks, behind which none follow. -/
theorem travels_blanks {admits : List Char → List Char → Prop} {c : Cursor}
    (hflush : ∀ {rest'}, admits c.skip.rest rest' → Cursor.Flush rest') :
    Travels admits (fun a b => a.skip = b ∧ b.position = c.skip.position ∧
      admits c.skip.rest b.rest) c c.skip := by
  obtain ⟨b, -, hpasses, hskip⟩ := c.skip_elsewhere
  refine ⟨b, hpasses, ?_⟩
  intro rest' hrest
  exact ⟨hskip rest' (hflush hrest), rfl, hrest⟩

/-- A piece of text behind blanks. -/
theorem travels_front {admits : List Char → List Char → Prop} {c n : Cursor} {front : List Char}
    (hpasses : c.skip.Passes front n) (hhead : ∀ {rest'}, admits n.rest rest' →
      (front ++ rest').head? = (front ++ n.rest).head?) :
    Travels admits (fun a b => a.skip = ⟨front ++ b.rest, c.skip.position⟩ ∧
      a.skip.peek = c.skip.peek ∧ b.position = n.position ∧ admits n.rest b.rest) c n := by
  obtain ⟨b, -, hblanks, hskip⟩ := c.skip_elsewhere
  refine ⟨b ++ front, hblanks.trans hpasses, ?_⟩
  intro rest' hrest
  have hnext : (front ++ rest').head? = c.skip.rest.head? := hpasses.1 ▸ hhead hrest
  have hflush : Cursor.Flush (front ++ rest') := fun x hx => c.flush_skip x (hnext ▸ hx)
  rw [List.append_assoc, hskip _ hflush]
  exact ⟨rfl, hnext, rfl, hrest⟩

/-- A run of digits and points, which does not go on. -/
theorem travels_run {admits : List Char → List Char → Prop} {c n : Cursor} {run : List Char}
    (hrun : literalRun false c.skip.rest c.skip.position = .ok (run, n))
    (hadmits : ∀ {rest rest'}, admits rest rest' → Alike rest rest')
    (hhead : ∀ {rest'}, admits n.rest rest' → (run ++ rest').head? = (run ++ n.rest).head?) :
    Travels admits (fun a b => literalRun false a.skip.rest a.skip.position = .ok (run, b) ∧
      a.skip.peek = c.skip.peek) c n := by
  obtain ⟨hposition, hread⟩ := literalRun_elsewhere hrun
  have hpasses : c.skip.Passes run n := ⟨eq_append_of_literalRun hrun, hposition⟩
  apply (travels_front hpasses hhead).imp
  intro a d hfront
  obtain ⟨hskip, hpeek, hposition', hrest⟩ := hfront
  have hstops : Stops d.rest := (hadmits hrest).next (by decide) (stops_of_literalRun hrun)
  refine ⟨?_, hpeek⟩
  rw [hskip, hread d.rest hstops, ← hposition']

/-- What was read is read in every text that starts with it and goes on alike. -/
theorem Derives.elsewhere {phrase : Phrase} {c n : Cursor} {t : Tree} (h : Derives phrase c t n) :
    Travels Alike (fun a b => Derives phrase a t b) c n := by
  induction h with
  | expression _ _ ihterm ihsums =>
    apply (ihterm.comp ihsums Alike.before).imp
    exact fun ⟨_, hterm, hsums⟩ => .expression hterm hsums
  | term _ _ ihfactor ihproducts =>
    apply (ihfactor.comp ihproducts Alike.before).imp
    exact fun ⟨_, hfactor, hproducts⟩ => .term hfactor hproducts
  | sumsEnd hop =>
    apply (travels_blanks fun h => h.next rfl (Cursor.flush_skip _)).imp
    intro a b hend
    obtain ⟨rfl, -, halike⟩ := hend
    exact .sumsEnd (sumOperator?_eq_none_iff.2 (halike.next rfl (sumOperator?_eq_none_iff.1 hop)))
  | productsEnd hop =>
    apply (travels_blanks fun h => h.next rfl (Cursor.flush_skip _)).imp
    intro a b hend
    obtain ⟨rfl, -, halike⟩ := hend
    exact .productsEnd
      (productOperator?_eq_none_iff.2 (halike.next rfl (productOperator?_eq_none_iff.1 hop)))
  | sumsNext hop _ _ ihterm ihsums =>
    obtain ⟨x, hx⟩ := exists_of_sumOperator? hop
    apply ((ihterm.comp ihsums Alike.before).behind hx).imp
    exact fun ⟨hpeek, _, hterm, hsums⟩ => .sumsNext (hpeek ▸ hop) hterm hsums
  | productsNext hop _ _ ihfactor ihproducts =>
    obtain ⟨x, hx⟩ := exists_of_productOperator? hop
    apply ((ihfactor.comp ihproducts Alike.before).behind hx).imp
    exact fun ⟨hpeek, _, hfactor, hproducts⟩ => .productsNext (hpeek ▸ hop) hfactor hproducts
  | negation hp _ ih =>
    apply (ih.behind hp).imp
    exact fun ⟨hpeek, hfactor⟩ => .negation (hpeek.trans hp) hfactor
  | parentheses hp _ hclose ih =>
    apply ((ih.comp (travels_token hclose) Alike.before).behind hp).imp
    intro a d hall
    obtain ⟨hpeek, n, hinner, hpeek', rfl⟩ := hall
    exact .parentheses (hpeek.trans hp) hinner (hpeek'.trans hclose)
  | number hnumber =>
    obtain ⟨run, v, hrun, hv, rfl⟩ := number_ok hnumber
    have hne := ne_nil_of_literal? hv
    apply (travels_run hrun id fun _ => by simp [List.head?_append_of_ne_nil _ hne]).imp
    intro a d hagain
    have hlength := length_of_literalRun hagain.1
    have hpositive := List.length_pos_of_ne_nil hne
    exact .number (number_of_literal hagain.1 hv (by omega))

/-- The failure is the same in every text that starts in the same way and has the same character
where the parser gives up. -/
theorem Fails.elsewhere {phrase : Phrase} {c m : Cursor} {e : ParseError}
    (h : Fails phrase c e m) : Travels SameNext (fun a b => Fails phrase a e b) c m := by
  induction h with
  | expressionTerm _ ih => exact ih.imp .expressionTerm
  | termFactor _ ih => exact ih.imp .termFactor
  | expressionSums hterm _ ih =>
    apply (hterm.elsewhere.comp ih SameNext.before).imp
    exact fun ⟨_, hterm, hsums⟩ => .expressionSums hterm hsums
  | termProducts hfactor _ ih =>
    apply (hfactor.elsewhere.comp ih SameNext.before).imp
    exact fun ⟨_, hfactor, hproducts⟩ => .termProducts hfactor hproducts
  | sumsTerm hop _ ih =>
    obtain ⟨x, hx⟩ := exists_of_sumOperator? hop
    apply (ih.behind hx).imp
    exact fun ⟨hpeek, hterm⟩ => .sumsTerm (hpeek ▸ hop) hterm
  | productsFactor hop _ ih =>
    obtain ⟨x, hx⟩ := exists_of_productOperator? hop
    apply (ih.behind hx).imp
    exact fun ⟨hpeek, hfactor⟩ => .productsFactor (hpeek ▸ hop) hfactor
  | sumsNext hop hterm _ ih =>
    obtain ⟨x, hx⟩ := exists_of_sumOperator? hop
    apply ((hterm.elsewhere.comp ih SameNext.before).behind hx).imp
    exact fun ⟨hpeek, _, hterm, hsums⟩ => .sumsNext (hpeek ▸ hop) hterm hsums
  | productsNext hop hfactor _ ih =>
    obtain ⟨x, hx⟩ := exists_of_productOperator? hop
    apply ((hfactor.elsewhere.comp ih SameNext.before).behind hx).imp
    exact fun ⟨hpeek, _, hfactor, hproducts⟩ => .productsNext (hpeek ▸ hop) hfactor hproducts
  | negation hp _ ih =>
    apply (ih.behind hp).imp
    exact fun ⟨hpeek, hfactor⟩ => .negation (hpeek.trans hp) hfactor
  | inside hp _ ih =>
    apply (ih.behind hp).imp
    exact fun ⟨hpeek, hinner⟩ => .inside (hpeek.trans hp) hinner
  | @unclosed c n t hp hexpression hclose =>
    have hblanks := travels_blanks (c := n) SameNext.flush
    apply ((hexpression.elsewhere.comp hblanks SameNext.before).behind hp).imp
    intro a d hall
    obtain ⟨hpeek, b, hinner, rfl, hposition, hnext⟩ := hall
    rw [← hposition]
    exact .unclosed (hpeek.trans hp) hinner (hnext.trans_ne hclose)
  | @operand c hnot =>
    apply (travels_blanks SameNext.flush).imp
    intro a d hall
    obtain ⟨rfl, hposition, hnext⟩ := hall
    have hpeek : a.skip.peek = c.skip.peek := hnext
    rw [← hposition, ← hpeek]
    exact .operand (hpeek ▸ hnot)
  | @secondPoint c run rest hrest hpoint =>
    have hpasses : c.skip.Passes run ⟨'.' :: rest, c.skip.position + utf8Len run⟩ := ⟨hrest, rfl⟩
    apply (travels_front hpasses fun h => head?_append_congr h run).imp
    intro a d hall
    obtain ⟨hskip, -, hposition, hnext⟩ := hall
    obtain ⟨rest', hrest'⟩ := List.head?_eq_some_iff.1 hnext
    have hend : d = ⟨'.' :: rest', c.skip.position + utf8Len run⟩ := by
      obtain ⟨cs, q⟩ := d
      cases hrest'
      cases hposition
      rfl
    have hfails := Fails.secondPoint (c := a) (by rw [hskip, hrest']) hpoint
    rw [hskip] at hfails
    rw [hend]
    exact hfails
  | literal hx hnumeric hrun hv =>
    apply (travels_run hrun Or.inl fun h => head?_append_congr h _).imp
    exact fun ⟨hagain, hpeek⟩ => .literal (hpeek.trans hx) hnumeric hagain hv

end Piecework.Expr
