import Mathlib.Tactic.Common
import Piecework.Proofs.Decimal.Numeral
import Piecework.Time.Reading

/-!
# Numbers in columns

A text of numbers, each padded with zeros to the width of its column, with a mark behind each
column.  Since every text has its marks at the same places, texts compare as their numbers do, and
a reader that knows the widths gets the numbers back.

* `padded_lt_iff`: padded to the same width, numbers compare as texts.
* `inColumns_lt_iff`: lists of numbers in the same columns compare as texts.
* `number_padded`: a padded number is read back.
-/

namespace Piecework.Time

open Decimal (Digital digital_cons digital_append digits?_eq_some_iff)

/-! ## Digits -/

/-- The first digit counts as often as the others can be written. -/
theorem ofDigitChars_cons (c : Char) (cs : List Char) :
    Nat.ofDigitChars 10 (c :: cs) 0 =
      10 ^ cs.length * (c.toNat - 48) + Nat.ofDigitChars 10 cs 0 := by
  rw [Nat.ofDigitChars_cons, Nat.ofDigitChars_eq_ofDigitChars_zero, Nat.mul_zero, Nat.zero_add]
  rfl

theorem ofDigitChars_lt {cs : List Char} (h : Digital cs) :
    Nat.ofDigitChars 10 cs 0 < 10 ^ cs.length := by
  induction cs with
  | nil => simp
  | cons c cs ih =>
    obtain ⟨hc, hcs⟩ := digital_cons.1 h
    have hrange : 48 ≤ c.toNat ∧ c.toNat ≤ 57 := Char.isDigit_iff_toNat.1 hc
    have hrest := ih hcs
    have hdigit : 10 ^ cs.length * (c.toNat - 48) ≤ 10 ^ cs.length * 9 :=
      Nat.mul_le_mul_left _ (by omega)
    rw [ofDigitChars_cons, List.length_cons, Nat.pow_succ]
    omega

/-- As many digits compare as the numbers that they stand for. -/
theorem digital_lt_iff {cs ds : List Char} (hcs : Digital cs) (hds : Digital ds)
    (hlength : cs.length = ds.length) :
    cs < ds ↔ Nat.ofDigitChars 10 cs 0 < Nat.ofDigitChars 10 ds 0 := by
  induction cs generalizing ds with
  | nil =>
    cases ds with
    | nil => simp
    | cons d ds => cases hlength
  | cons c cs ih =>
    cases ds with
    | nil => cases hlength
    | cons d ds =>
      obtain ⟨hc, hcs⟩ := digital_cons.1 hcs
      obtain ⟨hd, hds⟩ := digital_cons.1 hds
      have hlength : cs.length = ds.length := Nat.succ.inj hlength
      have hc' : 48 ≤ c.toNat ∧ c.toNat ≤ 57 := Char.isDigit_iff_toNat.1 hc
      have hd' : 48 ≤ d.toNat ∧ d.toNat ≤ 57 := Char.isDigit_iff_toNat.1 hd
      have hlow := ofDigitChars_lt hcs
      have hhigh := ofDigitChars_lt hds
      have hlt : c < d ↔ c.toNat < d.toNat := Iff.rfl
      have heq : c = d ↔ c.toNat = d.toNat := Char.toNat_inj.symm
      rw [List.cons_lt_cons_iff, ih hcs hds hlength, ofDigitChars_cons, ofDigitChars_cons, hlength,
        hlt, heq]
      rw [hlength] at hlow
      obtain hless | hsame | hmore := Nat.lt_trichotomy c.toNat d.toNat
      · have hstep := Nat.mul_le_mul_left (10 ^ ds.length)
          (show c.toNat - 48 + 1 ≤ d.toNat - 48 by omega)
        rw [Nat.mul_add] at hstep
        omega
      · rw [hsame]
        omega
      · have hstep := Nat.mul_le_mul_left (10 ^ ds.length)
          (show d.toNat - 48 + 1 ≤ c.toNat - 48 by omega)
        rw [Nat.mul_add] at hstep
        omega

/-! ## Padded numbers -/

section Padded

variable {width n m : Nat}

theorem digital_padded (width n : Nat) : Digital (padded width n) := by
  rw [padded, digital_append]
  refine ⟨fun c hc => ?_, fun c hc => Nat.isDigit_of_mem_toDigits (by decide) (by decide) hc⟩
  rw [List.eq_of_mem_replicate hc]
  decide

theorem length_padded (hwidth : 0 < width) (hn : n < 10 ^ width) :
    (padded width n).length = width := by
  have hdigits := (Nat.length_toDigits_le_iff (b := 10) (by decide) hwidth).2 hn
  rw [padded, List.length_append, List.length_replicate]
  omega

theorem ofDigitChars_padded (width n : Nat) : Nat.ofDigitChars 10 (padded width n) 0 = n := by
  rw [padded, Nat.ofDigitChars_append, Nat.ofDigitChars_replicate_zero, Nat.mul_zero,
    Nat.ofDigitChars_ten_toDigits]

/-- Padded to the same width, numbers compare as texts. -/
theorem padded_lt_iff (hwidth : 0 < width) (hn : n < 10 ^ width) (hm : m < 10 ^ width) :
    padded width n < padded width m ↔ n < m := by
  rw [digital_lt_iff (digital_padded _ _) (digital_padded _ _)
    ((length_padded hwidth hn).trans (length_padded hwidth hm).symm), ofDigitChars_padded,
    ofDigitChars_padded]

theorem padded_inj : padded width n = padded width m ↔ n = m := by
  refine ⟨fun h => ?_, fun h => h ▸ rfl⟩
  rw [← ofDigitChars_padded width n, h, ofDigitChars_padded]

/-- A padded number is read back by a reader that takes its width, and either no more or nothing
that could follow. -/
theorem number_padded {least most : Nat} {rest : List Char} (hwidth : 0 < width)
    (hn : n < 10 ^ width) (hleast : least ≤ width) (hmost : width ≤ most)
    (hrest : width = most ∨ ∀ c ∈ rest.head?, c.isDigit = false) :
    Scan.number least most (padded width n ++ rest) = some (n, rest) := by
  have hlength := length_padded hwidth hn
  have hstops : (rest.take (most - width)).takeWhile Char.isDigit = [] := by
    rcases hrest with heq | hnot
    · rw [heq, Nat.sub_self, List.take_zero, List.takeWhile_nil]
    · cases hcs : rest.take (most - width) with
      | nil => rfl
      | cons c cs =>
        refine List.takeWhile_cons_of_neg ?_
        rw [hnot c ?_]
        · exact Bool.false_ne_true
        · cases rest with
          | nil => simp at hcs
          | cons d ds =>
            cases hk : most - width with
            | zero => simp [hk] at hcs
            | succ k =>
              rw [hk, List.take_succ_cons, List.cons.injEq] at hcs
              rw [List.head?_cons, hcs.1]
              rfl
  have hrun : ((padded width n ++ rest).take most).takeWhile Char.isDigit = padded width n := by
    rw [List.take_append, hlength, List.take_of_length_le (by omega),
      List.takeWhile_append_of_pos (digital_padded width n), hstops, List.append_nil]
  have hne : padded width n ≠ [] := by
    intro hnil
    rw [hnil, List.length_nil] at hlength
    omega
  have hread : Text.digits? (padded width n) = some n :=
    digits?_eq_some_iff.2 ⟨digital_padded width n, hne, ofDigitChars_padded width n⟩
  rw [Scan.number, hrun, hlength, if_neg (by omega), hread, Option.map_some,
    List.drop_append_of_le_length (by omega), List.drop_of_length_le (by omega), List.nil_append]

end Padded

/-! ## Columns -/

/-- Numbers in columns of given widths, each with the mark of its column behind it. -/
def inColumns : List (Nat × Char) → List Nat → List Char
  | (width, mark) :: columns, n :: ns => padded width n ++ mark :: inColumns columns ns
  | _, _ => []

/-- In columns there are only digits and the marks. -/
theorem not_mem_inColumns {c : Char} (hdigit : c.isDigit = false)
    {columns : List (Nat × Char)} (hmarks : c ∉ columns.map Prod.snd) {ns : List Nat} :
    c ∉ inColumns columns ns := by
  induction columns generalizing ns with
  | nil => exact List.not_mem_nil
  | cons column columns ih =>
    obtain ⟨width, mark⟩ := column
    rw [List.map_cons, List.mem_cons, not_or] at hmarks
    cases ns with
    | nil => exact List.not_mem_nil
    | cons n ns =>
      rw [inColumns, List.mem_append, List.mem_cons]
      rintro (hpadded | hmark | hrest)
      · rw [digital_padded width n c hpadded] at hdigit
        cases hdigit
      · exact hmarks.1 hmark
      · exact ih hmarks.2 hrest

/-- There is one column for each number, and it is wide enough. -/
def Fit (columns : List (Nat × Char)) (ns : List Nat) : Prop :=
  List.Forall₂ (fun column n => 0 < column.1 ∧ n < 10 ^ column.1) columns ns

/-- Texts with fronts of the same length compare by their fronts first. -/
theorem append_lt_append_iff {as bs cs ds : List Char} (hlength : as.length = bs.length) :
    as ++ cs < bs ++ ds ↔ as < bs ∨ as = bs ∧ cs < ds := by
  induction as generalizing bs with
  | nil =>
    cases bs with
    | nil => simp
    | cons b bs => cases hlength
  | cons a as ih =>
    cases bs with
    | nil => cases hlength
    | cons b bs =>
      rw [List.cons_append, List.cons_append, List.cons_lt_cons_iff, List.cons_lt_cons_iff,
        ih (Nat.succ.inj hlength), List.cons.injEq]
      tauto

/-- In the same columns, lists of numbers compare as texts. -/
theorem inColumns_lt_iff {columns : List (Nat × Char)} {ns ms : List Nat} (hns : Fit columns ns)
    (hms : Fit columns ms) : inColumns columns ns < inColumns columns ms ↔ ns < ms := by
  induction hns generalizing ms with
  | nil =>
    cases hms
    simp [inColumns]
  | @cons column n columns ns hn hns ih =>
    obtain ⟨width, mark⟩ := column
    cases hms with
    | @cons _ m _ ms hm hms =>
      have hlength : (padded width n).length = (padded width m).length :=
        (length_padded hn.1 hn.2).trans (length_padded hm.1 hm.2).symm
      rw [inColumns, inColumns, append_lt_append_iff hlength, padded_lt_iff hn.1 hn.2 hm.2,
        padded_inj, List.cons_lt_cons_iff, List.cons_lt_cons_iff, ih hms]
      simp

end Piecework.Time
