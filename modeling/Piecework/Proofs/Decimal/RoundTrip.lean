import Piecework.Decimal.Layout
import Piecework.Proofs.Decimal.Digits
import Piecework.Proofs.Decimal.Nearest

/-!
# Written decimals are read back

The plain text of a float that is not negative is a numeral, and the float is the one nearest to
its number: the digits round to the float, and wherever the point comes to stand among them, the
numeral has their number.  A negative float, negative zero among them, is written as its
opposite with a minus in front.

`reads_write` is the one half and `write_eq_cons` the other.
-/

namespace Piecework.Decimal

open Number (parts ofParts)
open Float.Model (UnpackedFloat)
open Float.Model.UnpackedFloat (Sign)

/-! ## Digits and the point -/

theorem digital_digitChars (n : Nat) : Digital (digitChars n) :=
  fun _ hc => Nat.isDigit_of_mem_toDigits (by norm_num) (by norm_num) hc

theorem digital_replicate (n : Nat) : Digital (List.replicate n '0') := by
  intro c hc
  rw [(List.mem_replicate.1 hc).2]
  decide

theorem digital_zero : Digital ['0'] := by simp [Digital]

theorem ofDigitChars_digitChars (n : Nat) : Nat.ofDigitChars 10 (digitChars n) 0 = n :=
  Nat.ofDigitChars_ten_toDigits

/-- Digits with the point in place are a numeral of their number. -/
theorem numeral_inPlace (n : Nat) (k : Int) :
    ∃ m j, Numeral (plain.inPlace (digitChars n) k) m j ∧
      (m / 10 ^ j : ℚ) = n * 10 ^ k := by
  have hdigits := digital_digitChars n
  have hne : digitChars n ≠ [] := Nat.toDigits_ne_nil
  rw [Layout.inPlace]
  by_cases hk : 0 ≤ k
  · -- zeros behind the digits
    obtain ⟨zeros, rfl⟩ := Int.eq_ofNat_of_zero_le hk
    rw [if_pos hk]
    simp only [plain, Int.toNat_natCast, String.toList_empty, List.append_nil]
    refine ⟨_, _, .whole (digital_append.2 ⟨hdigits, digital_replicate zeros⟩) (by simp [hne]), ?_⟩
    rw [Nat.ofDigitChars_append, Nat.ofDigitChars_replicate_zero, ofDigitChars_digitChars]
    push_cast
    rw [zpow_natCast, pow_zero, div_one, mul_comm]
  obtain ⟨places, rfl⟩ : ∃ places : Nat, k = -places := ⟨k.natAbs, by omega⟩
  simp only [if_neg hk, neg_neg, Int.toNat_natCast]
  by_cases hinside : places < (digitChars n).length
  · -- the point among the digits
    rw [if_pos hinside]
    generalize hcut : (digitChars n).length - places = cut
    have happend := List.take_append_drop cut (digitChars n)
    have hparts := hdigits
    rw [← happend, digital_append] at hparts
    have hnumeral := Numeral.point hparts.1 hparts.2 (by rw [happend]; exact hne)
    rw [happend, ofDigitChars_digitChars, List.length_drop] at hnumeral
    refine ⟨_, _, hnumeral, ?_⟩
    rw [zpow_neg, zpow_natCast, div_eq_mul_inv]
    congr 3
    omega
  · -- zeros between the point and the digits
    rw [if_neg hinside]
    have hzeros := digital_append.2 ⟨digital_replicate (places - (digitChars n).length), hdigits⟩
    have hnumeral := Numeral.point digital_zero hzeros (by simp)
    rw [Nat.ofDigitChars_append, Nat.ofDigitChars_append, Nat.ofDigitChars_replicate_zero]
      at hnumeral
    have hvalue : Nat.ofDigitChars 10 (digitChars n) (10 ^ (places - (digitChars n).length) *
        Nat.ofDigitChars 10 ['0'] 0) = n := ofDigitChars_digitChars n
    rw [hvalue, List.length_append, List.length_replicate] at hnumeral
    refine ⟨_, _, hnumeral, ?_⟩
    rw [zpow_neg, zpow_natCast, div_eq_mul_inv]
    congr 3
    omega

/-- The text of digits is a numeral of their number. -/
theorem numeral_magnitude (d : Digits) :
    ∃ m j, Numeral (plain.magnitude d) m j ∧
      (m / 10 ^ j : ℚ) = d.digits * 10 ^ d.exponent := by
  simpa [Layout.magnitude, Layout.writesInPlace, plain] using numeral_inPlace d.digits d.exponent

/-! ## Signs -/

/-- The parts of a finite float with this sign. -/
def Signed (s : Sign) (u : UnpackedFloat) : Prop :=
  u = .zero s ∨ ∃ m e h, u = .finite s m e h

theorem signed_of_isFinite {v : Float} (h : v.isFinite = true) :
    Signed .positive (parts v) ∨ Signed .negative (parts v) := by
  rw [Number.isFinite_eq] at h
  cases hv : parts v with
  | notANumber | infinity => rw [hv] at h; cases h
  | zero s => cases s <;> simp [Signed]
  | finite s m e hm => cases s <;> simp [Signed, hm]

theorem signed_neg {v : Float} {s : Sign} (h : Signed s (parts v)) : Signed (-s) (parts (-v)) := by
  rw [Number.parts_neg]
  rcases h with h | ⟨m, e, hm, h⟩ <;> rw [h]
  · exact .inl rfl
  · exact .inr ⟨m, e, hm, rfl⟩

/-- A negative float is written as its opposite with a minus in front. -/
theorem write_eq_cons {v : Float} (h : Signed .negative (parts v)) :
    plain.write v = '-' :: plain.write (-v) := by
  rw [Layout.write, Layout.write, Number.classify_eq, Number.classify_eq, Number.parts_neg]
  rcases h with h | ⟨m, e, hm, h⟩ <;> rw [h] <;> rfl

/-- The numbers that are parenthesised in trees: negative zero is not below zero. -/
theorem lt_zero_iff {v : Float} (hfinite : v.isFinite = true) :
    v < 0 ↔ ∃ m e h, parts v = .finite .negative m e h := by
  have hlt : v < 0 ↔ (parts v).compare (parts 0) = some .lt :=
    decide_eq_true_iff.trans beq_iff_eq
  rw [hlt, Number.parts_zero]
  rcases signed_of_isFinite hfinite with (h | ⟨m, e, hm, h⟩) | (h | ⟨m, e, hm, h⟩) <;> rw [h]
  · simp [UnpackedFloat.compare]
  · simp [UnpackedFloat.compare]
  · simp [UnpackedFloat.compare]
  · simp [UnpackedFloat.compare, hm]

/-! ## The round trip -/

/-- A float that is not negative is read back from its text. -/
theorem reads_write {v : Float} (h : Signed .positive (parts v)) : Reads (plain.write v) v := by
  rw [Layout.write, Number.classify_eq, Reads]
  have hgrid := Number.parts_canonical v
  rcases h with h | ⟨m, e, hm, h⟩ <;> rw [h] at hgrid ⊢
  · exact ⟨0, 0, .whole digital_zero (List.cons_ne_nil _ _), .zero (by simp)⟩
  · obtain ⟨n, j, hnumeral, hvalue⟩ := numeral_magnitude ((Number.binary m e).shortest .away)
    refine ⟨n, j, hnumeral, .finite hm hgrid.toNormalized ?_⟩
    rw [hvalue]
    exact Binary.shortest_covers .away hm hgrid

end Piecework.Decimal
