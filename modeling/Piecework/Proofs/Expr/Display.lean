import Piecework.Proofs.Decimal.RoundTrip
import Piecework.Proofs.Expr.Grammar

/-!
# Trees from their text

The text of a tree parenthesises every operation, and every number below zero.  Negative zero
stands bare, so that its minus may follow an operator, as in `(1--0)`.  Whatever stands where,
the grammar generates the text of each subtree as a factor (`generates_chars`), and as such it
is the operand that it was: no chain takes it apart and no minus reaches into it.

`parse_text_iff` concludes that parsing gives a tree back from its text, if its numbers are
finite.
-/

namespace Piecework.Expr

open Decimal (Reads plain reads_write write_eq_cons)
open Number (parts)

theorem neg_neg_float (v : Float) : - -v = v := by
  apply Number.parts_injective
  rw [Number.parts_neg, Number.parts_neg]
  cases parts v with
  | notANumber => rfl
  | infinity s | zero s | finite s => cases s <;> rfl

/-- A negative number, negative zero among them, is generated with its minus. -/
theorem generates_minus {v : Float} (h : Decimal.Signed .negative (parts v)) :
    Generates .factor (plain.write v) (.leaf v) := by
  have hread : Reads (plain.write (-v)) (-v) := reads_write (Decimal.signed_neg h)
  have hminus := Generates.minusNumber blank_nil (.number blank_nil hread)
  rw [neg_neg_float] at hminus
  rw [write_eq_cons h]
  exact hminus

/-- A number in a tree is generated as a factor. -/
theorem generates_numberText {v : Float} (hfinite : v.isFinite = true) :
    Generates .factor (Tree.numberText v) (.leaf v) := by
  rw [Tree.numberText]
  rcases Decimal.signed_of_isFinite hfinite with hsign | hsign
  · have hnonneg : ¬ v < 0 := by
      rw [Decimal.lt_zero_iff hfinite]
      rintro ⟨m, e, hm, h⟩
      rw [h] at hsign
      simp [Decimal.Signed] at hsign
    rw [if_neg hnonneg]
    exact .number blank_nil (reads_write hsign)
  · split_ifs with hlt
    · have hinside := Generates.oneTerm (.oneFactor (generates_minus hsign))
      simpa using Generates.parentheses blank_nil hinside blank_nil
    · exact generates_minus hsign

/-- The text of a tree is generated as a factor. -/
theorem generates_chars {t : Tree} (h : t.Finite) : Generates .factor t.chars t := by
  induction t with
  | leaf v => exact generates_numberText h
  | node op l r ihl ihr =>
    have hl := ihl h.1
    have hr := ihr h.2
    have hinside : Generates .expression (l.chars ++ op.symbol.toList ++ r.chars)
        (.node op l r) := by
      cases op with
      | add =>
        simpa [Operator.symbol] using
          Generates.sum (.oneTerm (.oneFactor hl)) blank_nil .plus (.oneFactor hr)
      | sub =>
        simpa [Operator.symbol] using
          Generates.sum (.oneTerm (.oneFactor hl)) blank_nil .minus (.oneFactor hr)
      | mul =>
        simpa [Operator.symbol] using
          Generates.oneTerm (.product (.oneFactor hl) blank_nil .times hr)
      | div =>
        simpa [Operator.symbol] using
          Generates.oneTerm (.product (.oneFactor hl) blank_nil .over hr)
    simpa [Tree.chars] using Generates.parentheses blank_nil hinside blank_nil

/-- What a tree with finite numbers is displayed as is read as this tree. -/
theorem parse_of_chars {s : String} {t : Tree} (hs : s.toList = t.chars) (ht : t.Finite) :
    parse s = .ok t :=
  parse_of_padded ⟨t.chars, [], by rw [hs, List.append_nil],
    .oneTerm (.oneFactor (generates_chars ht)), blank_nil⟩

/-- Parsing gives a tree back from its text, with the same floats at its leaves, exactly if
they are finite. -/
theorem parse_text_iff (t : Tree) : parse t.text = .ok t ↔ t.Finite := by
  refine ⟨finite_of_parse, fun h => parse_of_padded ⟨t.chars, [], ?_, ?_, blank_nil⟩⟩
  · simp [Tree.text]
  · exact .oneTerm (.oneFactor (generates_chars h))

end Piecework.Expr
