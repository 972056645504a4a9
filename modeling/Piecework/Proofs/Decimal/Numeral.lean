import Mathlib
import Piecework.Decimal.Reading

/-!
# Numerals

A numeral is a run of digits with at most one point and at least one digit.  `Numeral` says
so without a reader: the text is given by the digits in front of the point and those behind
it.  `literalFrom?_eq_some_iff` says that the reader finds the same number in the text.
-/

namespace Piecework.Decimal

/-- Every character is a digit. -/
def Digital (cs : List Char) : Prop := ∀ c ∈ cs, c.isDigit = true

@[simp] theorem digital_nil : Digital [] := by simp [Digital]

@[simp] theorem digital_cons {c : Char} {cs : List Char} :
    Digital (c :: cs) ↔ c.isDigit = true ∧ Digital cs := by
  simp [Digital]

@[simp] theorem digital_append {cs ds : List Char} :
    Digital (cs ++ ds) ↔ Digital cs ∧ Digital ds := by
  simp [Digital, or_imp, forall_and]

/-- The text is `digits / 10 ^ places`, written with digits and at most one point. -/
inductive Numeral : List Char → Nat → Nat → Prop
  | whole {ds : List Char} : Digital ds → ds ≠ [] → Numeral ds (Nat.ofDigitChars 10 ds 0) 0
  | point {ds fs : List Char} : Digital ds → Digital fs → ds ++ fs ≠ [] →
      Numeral (ds ++ '.' :: fs) (Nat.ofDigitChars 10 (ds ++ fs) 0) fs.length

theorem Numeral.exists_head {cs : List Char} {m j : Nat} (h : Numeral cs m j) :
    ∃ c rest, cs = c :: rest ∧ (c.isDigit = true ∨ c = '.') := by
  cases h with
  | whole hds hne =>
    obtain ⟨c, rest, rfl⟩ := List.exists_cons_of_ne_nil hne
    exact ⟨c, rest, rfl, .inl (digital_cons.1 hds).1⟩
  | @point ds fs hds _ _ =>
    cases ds with
    | nil => exact ⟨'.', fs, rfl, .inr rfl⟩
    | cons c ds => exact ⟨c, ds ++ '.' :: fs, rfl, .inl (digital_cons.1 hds).1⟩

theorem Numeral.exists_digit {cs : List Char} {m j : Nat} (h : Numeral cs m j) :
    ∃ c ∈ cs, c.isDigit = true := by
  cases h with
  | whole hds hne =>
    obtain ⟨c, rest, rfl⟩ := List.exists_cons_of_ne_nil hne
    exact ⟨c, List.mem_cons_self, (digital_cons.1 hds).1⟩
  | @point ds fs hds hfs hne =>
    obtain ⟨c, hc⟩ := List.exists_mem_of_ne_nil _ hne
    exact ⟨c, by simp only [List.mem_append, List.mem_cons] at hc ⊢; tauto,
      (digital_append.2 ⟨hds, hfs⟩) c hc⟩

/-! ## One character -/

theorem digit?_of_isDigit {c : Char} (h : c.isDigit = true) :
    Text.digit? c = some (c.toNat - '0'.toNat) := by
  have hrange : '0' ≤ c ∧ c ≤ '9' := by
    simpa [Char.isDigit, Char.le_def] using h
  rw [Text.digit?, if_pos hrange]

theorem digit?_of_not_isDigit {c : Char} (h : c.isDigit = false) : Text.digit? c = none := by
  have hrange : ¬('0' ≤ c ∧ c ≤ '9') := by
    simpa [Char.isDigit, Char.le_def] using h
  rw [Text.digit?, if_neg hrange]

theorem ne_point_of_isDigit {c : Char} (h : c.isDigit = true) : c ≠ '.' := by
  rintro rfl
  exact absurd h (by decide)

/-! ## Digits alone -/

theorem digitsFrom?_eq_some_iff {cs : List Char} {value n : Nat} :
    Text.digitsFrom? value cs = some n ↔ Digital cs ∧ Nat.ofDigitChars 10 cs value = n := by
  induction cs generalizing value with
  | nil => simp [Text.digitsFrom?]
  | cons c cs ih =>
    rw [Text.digitsFrom?, digital_cons]
    cases hdigit : c.isDigit with
    | false => simp [digit?_of_not_isDigit hdigit]
    | true => simp [digit?_of_isDigit hdigit, ih, Nat.ofDigitChars_cons]

/-- A run of digits is read as its number, and nothing else is. -/
theorem digits?_eq_some_iff {cs : List Char} {n : Nat} :
    Text.digits? cs = some n ↔ Digital cs ∧ cs ≠ [] ∧ Nat.ofDigitChars 10 cs 0 = n := by
  cases cs with
  | nil => simp [Text.digits?]
  | cons c cs => simp [Text.digits?, digitsFrom?_eq_some_iff]

/-! ## Reading behind the point -/

/-- Behind the point there are only digits. -/
theorem literalFrom?_some_iff {cs : List Char} {n k m j : Nat} {seen : Bool} :
    literalFrom? n (some k) seen cs = some (m, j) ↔
      Digital cs ∧ (seen = true ∨ cs ≠ []) ∧ m = Nat.ofDigitChars 10 cs n ∧
        j = k + cs.length := by
  induction cs generalizing n k seen with
  | nil => cases seen <;> simp [literalFrom?, eq_comm]
  | cons c rest ih =>
    rw [literalFrom?]
    by_cases hpoint : c = '.'
    · subst hpoint
      simp
    rw [if_neg hpoint]
    cases hdigit : c.isDigit with
    | false => simp [digit?_of_not_isDigit hdigit, hdigit]
    | true =>
      rw [digit?_of_isDigit hdigit]
      have hlength : k + 1 + rest.length = k + (rest.length + 1) := by omega
      simp [ih, hdigit, Nat.ofDigitChars_cons, hlength]

/-! ## Reading in front of the point -/

/-- Digits up to a point, from the first character on. -/
theorem exists_point_cons {c : Char} {rest : List Char} {P : List Char → List Char → Prop} :
    (∃ ds fs, c :: rest = ds ++ '.' :: fs ∧ Digital ds ∧ P ds fs) ↔
      (c = '.' ∧ P [] rest) ∨
        c.isDigit = true ∧ ∃ ds fs, rest = ds ++ '.' :: fs ∧ Digital ds ∧ P (c :: ds) fs := by
  constructor
  · rintro ⟨_ | ⟨d, ds⟩, fs, heq, hds, h⟩
    · obtain ⟨rfl, rfl⟩ := List.cons.inj heq
      exact .inl ⟨rfl, h⟩
    · obtain ⟨rfl, rfl⟩ := List.cons.inj heq
      obtain ⟨hdigit, hds⟩ := digital_cons.1 hds
      exact .inr ⟨hdigit, ds, fs, rfl, hds, h⟩
  · rintro (⟨rfl, h⟩ | ⟨hdigit, ds, fs, rfl, hds, h⟩)
    · exact ⟨[], rest, rfl, digital_nil, h⟩
    · exact ⟨c :: ds, fs, rfl, digital_cons.2 ⟨hdigit, hds⟩, h⟩

/-- In front of the point there are digits, and behind it, if there is one. -/
theorem literalFrom?_none_iff {cs : List Char} {n m j : Nat} {seen : Bool} :
    literalFrom? n none seen cs = some (m, j) ↔
      (Digital cs ∧ (seen = true ∨ cs ≠ []) ∧ m = Nat.ofDigitChars 10 cs n ∧ j = 0) ∨
        ∃ ds fs, cs = ds ++ '.' :: fs ∧ Digital ds ∧ Digital fs ∧
          (seen = true ∨ ds ++ fs ≠ []) ∧ m = Nat.ofDigitChars 10 (ds ++ fs) n ∧
          j = fs.length := by
  induction cs generalizing n seen with
  | nil => cases seen <;> simp [literalFrom?, eq_comm]
  | cons c rest ih =>
    rw [literalFrom?, exists_point_cons]
    by_cases hpoint : c = '.'
    · have hdigit : ('.' : Char).isDigit = false := by decide
      subst hpoint
      simp [literalFrom?_some_iff, hdigit]
    rw [if_neg hpoint]
    cases hdigit : c.isDigit with
    | false => simp [digit?_of_not_isDigit hdigit, hdigit, hpoint]
    | true =>
      rw [digit?_of_isDigit hdigit]
      simp [ih, hdigit, hpoint, Nat.ofDigitChars_cons]

/-- The reader finds a number in a text exactly if the text is a numeral of it. -/
theorem literalFrom?_eq_some_iff {cs : List Char} {m j : Nat} :
    literalFrom? 0 none false cs = some (m, j) ↔ Numeral cs m j := by
  rw [literalFrom?_none_iff]
  constructor
  · rintro (⟨hcs, hne, rfl, rfl⟩ | ⟨ds, fs, rfl, hds, hfs, hne, rfl, rfl⟩)
    · exact .whole hcs (hne.resolve_left Bool.false_ne_true)
    · exact .point hds hfs (hne.resolve_left Bool.false_ne_true)
  · intro h
    cases h with
    | whole hcs hne => exact .inl ⟨hcs, .inr hne, rfl, rfl⟩
    | @point ds fs hds hfs hne => exact .inr ⟨ds, fs, rfl, hds, hfs, .inr hne, rfl, rfl⟩

end Piecework.Decimal
