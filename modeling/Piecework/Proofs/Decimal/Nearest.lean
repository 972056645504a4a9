import Piecework.Proofs.Decimal.Numeral
import Piecework.Proofs.Decimal.Rounding

/-!
# Nearest floats

`nearest` has two ways to a float.  A number with few digits and a small power of ten are both
floats, and one product or quotient of them is rounded.  Everything else goes by exact
arithmetic to the same rounding, except that numbers with a very large or very small exponent
are cut short.

`nearest_eq_iff` says that a finite float comes out exactly if the number rounds to it.
`literal?_eq_some_iff` carries this to texts.
-/

namespace Piecework

namespace Number

open Decimal (Binary)
open Float.Model (UnpackedFloat Format)
open Float.Model.UnpackedFloat

/-! ## Numbers that are floats -/

/-- The mantissa of a number, shifted to 53 bits. -/
def fullMantissa (m : Nat) : Nat := m * 2 ^ (52 - m.log2)

theorem fullMantissa_bounds {m : Nat} (hpos : 0 < m) (hlt : m < 2 ^ 53) :
    2 ^ 52 ≤ fullMantissa m ∧ fullMantissa m < 2 ^ 53 := by
  have hlog : m.log2 < 53 := (Nat.log2_lt hpos.ne').2 hlt
  have hlow : 2 ^ 52 = 2 ^ m.log2 * 2 ^ (52 - m.log2) := by
    rw [← pow_add]
    congr 1
    omega
  have hhigh : 2 ^ 53 = 2 ^ (m.log2 + 1) * 2 ^ (52 - m.log2) := by
    rw [← pow_add]
    congr 1
    omega
  rw [fullMantissa, hlow, hhigh]
  exact ⟨Nat.mul_le_mul_right _ (Nat.log2_self_le hpos.ne'),
    Nat.mul_lt_mul_of_pos_right Nat.lt_log2_self (by positivity)⟩

/-- The parts of `m * 2 ^ k`. -/
def exact (m : Nat) (k : Int) (hpos : 0 < fullMantissa m) : UnpackedFloat :=
  .finite .positive (fullMantissa m) (m.log2 - 52 + k) hpos

theorem fullMantissa_mul {m : Nat} (hpos : 0 < m) (hlt : m < 2 ^ 53) (k : Int) :
    (fullMantissa m : ℚ) * 2 ^ ((m.log2 : Int) - 52 + k) = m * 2 ^ k := by
  have hlog : m.log2 < 53 := (Nat.log2_lt hpos.ne').2 hlt
  have hcancel : ((52 - m.log2 : Nat) : Int) + (m.log2 - 52 + k) = k := by omega
  rw [fullMantissa]
  push_cast
  rw [mul_assoc, ← zpow_natCast, ← zpow_add₀ (by norm_num), hcancel]

theorem canonical_exact {m : Nat} {k : Int} (hpos : 0 < m) (hlt : m < 2 ^ 53) (hk : 0 ≤ k)
    (hk' : k ≤ 971) : Canonical (exact m k (by have := fullMantissa_bounds hpos hlt; omega)) := by
  have hlog : m.log2 < 53 := (Nat.log2_lt hpos.ne').2 hlt
  have hbounds := fullMantissa_bounds hpos hlt
  exact ⟨⟨hbounds.2, by omega, .inl hbounds.1⟩, by omega⟩

theorem parts_toFloat {m : Nat} (hpos : 0 < m) (hlt : m < 2 ^ 53)
    (hfull : 0 < fullMantissa m) : parts m.toUInt64.toFloat = exact m 0 hfull := by
  have hlog : m.log2 < 53 := (Nat.log2_lt hpos.ne').2 hlt
  have hbounds := fullMantissa_bounds hpos hlt
  have hm : m.toUInt64.toNat = m := Nat.mod_eq_of_lt (by omega)
  have htarget : max ((m.log2 : Int) + 0 - 52) (-1074) = m.log2 - 52 := by omega
  have hshift : (0 - ((m.log2 : Int) - 52)).toNat = 52 - m.log2 := by omega
  have hexponent : (0 : Int) - (52 - m.log2 : Nat) = m.log2 - 52 + 0 := by omega
  have hcompare : compare (m : Int) 0 = .gt := Int.compare_eq_gt.2 (by omega)
  have hcanonical := canonical_exact hpos hlt (le_refl 0) (by omega)
  rw [← parts_ofParts hcanonical]
  change parts (ofParts (UnpackedFloat.normalize Format.binary64 (m.toUInt64.toNat : Int) 0
    .positive)) = _
  simp only [hm, UnpackedFloat.normalize, hcompare, UnpackedFloat.round, targetExponent_eq, htarget,
    decreaseExponent, hshift, hexponent, Int.toNat_natCast, Nat.shiftLeft_eq]
  congr 2
  have hround : Rounds .positive (fullMantissa m * 2 ^ ((m.log2 : Int) - 52 + 0))
      (roundWithAccuracy Format.binary64 .positive (fullMantissa m) (m.log2 - 52 + 0) .exact) :=
    roundWithAccuracy_rounds .positive rfl (.inl ((Nat.le_log2 hfull.ne').2 hbounds.1))
  exact hround.unique (rounds_self .positive hfull hcanonical.toNormalized)

theorem five_pow_lt {e : Nat} (he : e ≤ 22) : 5 ^ e < 2 ^ 53 :=
  (Nat.pow_le_pow_right (by omega) he).trans_lt (by norm_num)

theorem fullMantissa_power {e : Nat} (he : e ≤ 22) :
    (fullMantissa (5 ^ e) : ℚ) * 2 ^ (((5 ^ e).log2 : Int) - 52 + e) = 10 ^ e := by
  rw [fullMantissa_mul (by positivity) (five_pow_lt he), zpow_natCast]
  push_cast
  rw [← mul_pow]
  norm_num

theorem power_eq {e : Nat} (he : e < Float.exactlyRepresentablePowersOfTen.size)
    (hfull : 0 < fullMantissa (5 ^ e)) :
    Float.exactlyRepresentablePowersOfTen[e] = ofParts (exact (5 ^ e) e hfull) := by
  change e < 23 at he
  interval_cases e <;> rfl

/-- Every power in the table is exact. -/
theorem parts_power {e : Nat} (he : e < Float.exactlyRepresentablePowersOfTen.size)
    (hfull : 0 < fullMantissa (5 ^ e)) :
    parts Float.exactlyRepresentablePowersOfTen[e] = exact (5 ^ e) e hfull := by
  have hsize : e < 23 := he
  have hcanonical := canonical_exact (k := e) (by positivity) (five_pow_lt (by omega : e ≤ 22))
    (by omega) (by omega)
  rw [power_eq he hfull, parts_ofParts hcanonical]

/-! ## The two ways -/

/-- Few digits and a small power of ten: one operation on floats that are exact. -/
theorem ofScientific_small {m e : Nat} (hm : m < 2 ^ 53) (he : e ≤ 22) (negative : Bool) :
    ∃ u, Float.ofScientific m negative e = ofParts u ∧
      Rounds .positive (m * 10 ^ (if negative then -(e : Int) else e)) u := by
  have hpower := fullMantissa_bounds (by positivity : 0 < 5 ^ e) (five_pow_lt he)
  have hright := parts_power (lt_of_le_of_lt he (by decide)) (by omega)
  rw [Float.ofScientific, dif_pos ⟨hm, he⟩]
  by_cases hzero : m = 0
  · have hleft : parts m.toUInt64.toFloat = .zero .positive := by
      rw [hzero]
      rfl
    refine ⟨.zero .positive, ?_, .zero (by rw [hzero]; simp)⟩
    cases negative with
    | true =>
      change ofParts (div Format.binary64 (parts _) (parts _)) = _
      rw [hleft, hright]
      rfl
    | false =>
      change ofParts (mul Format.binary64 (parts _) (parts _)) = _
      rw [hleft, hright]
      rfl
  have hpos := Nat.pos_of_ne_zero hzero
  have hdigits := fullMantissa_bounds hpos hm
  have hleft := parts_toFloat hpos hm (by omega)
  have hvalue := fullMantissa_mul hpos hm 0
  rw [zpow_zero, mul_one] at hvalue
  cases negative with
  | true =>
    refine ⟨div Format.binary64 (parts _) (parts _), rfl, ?_⟩
    rw [if_pos rfl, zpow_neg, ← div_eq_mul_inv, zpow_natCast, ← hvalue, ← fullMantissa_power he,
      hleft, hright]
    exact div_rounds .positive .positive _ _
  | false =>
    refine ⟨mul Format.binary64 (parts _) (parts _), rfl, ?_⟩
    rw [if_neg Bool.false_ne_true, zpow_natCast, ← hvalue, ← fullMantissa_power he, hleft, hright]
    refine mul_rounds .positive .positive _ _ (.inl ?_)
    rw [Nat.le_log2 (Nat.mul_ne_zero (by omega) (by omega))]
    exact hdigits.1.trans (Nat.le_mul_of_pos_right _ (by omega))

theorem ten_zpow (k : Int) : (10 : ℚ) ^ k = 2 ^ k * 5 ^ k := by
  rw [← mul_zpow]
  norm_num

/-- A number that is cut short as too small is less than half of the smallest float. -/
theorem mul_pow_le_of_lt {m : Nat} {e : Int} (h : e < -(2048 + (m.log2 : Int))) :
    (m * 10 ^ e : ℚ) ≤ 2 ^ (-1075 : Int) := by
  have hbits : (m : ℚ) ≤ 2 ^ ((m.log2 : Int) + 1) := by
    exact_mod_cast (Nat.lt_log2_self : m < 2 ^ (m.log2 + 1)).le
  have hpower : (10 : ℚ) ^ e ≤ 2 ^ e := by
    rw [ten_zpow]
    apply mul_le_of_le_one_right (by positivity)
    exact zpow_le_one_of_nonpos₀ (by norm_num) (by omega)
  calc (m : ℚ) * 10 ^ e ≤ 2 ^ ((m.log2 : Int) + 1) * 2 ^ e :=
        mul_le_mul hbits hpower (by positivity) (by positivity)
    _ = 2 ^ ((m.log2 : Int) + 1 + e) := (zpow_add₀ (by norm_num) _ _).symm
    _ ≤ 2 ^ (-1075 : Int) := zpow_le_zpow_right₀ (by norm_num) (by omega)

/-- A number that is cut short as too large is beyond the largest float. -/
theorem le_mul_pow_of_gt {m : Nat} {e : Int} (hpos : 0 < m) (h : 2048 < e) :
    2 ^ (1024 : Int) ≤ (m * 10 ^ e : ℚ) := by
  have hm : (1 : ℚ) ≤ m := by exact_mod_cast hpos
  calc (2 : ℚ) ^ (1024 : Int) ≤ 2 ^ e := zpow_le_zpow_right₀ (by norm_num) (by omega)
    _ ≤ 2 ^ e * 5 ^ e :=
        le_mul_of_one_le_right (by positivity) (one_le_zpow₀ (by norm_num) (by omega))
    _ = 10 ^ e := (ten_zpow e).symm
    _ ≤ m * 10 ^ e := le_mul_of_one_le_left (by positivity) hm

/-- Exact arithmetic with powers of ten. -/
theorem ofScientific_rounds (m : Nat) (e : Int) :
    Rounds .positive (m * 10 ^ e) (ofScientific Format.binary64 m e) ∨
      ofScientific Format.binary64 m e = .infinity .positive ∧
        2 ^ (1024 : Int) ≤ (m * 10 ^ e : ℚ) := by
  have hwidth : Format.binary64.mantissaBits = 53 := rfl
  rw [ofScientific]
  split_ifs with hzero hlarge hsmall hsign
  · exact .inl (.zero (by rw [hzero]; simp))
  · exact .inr ⟨rfl, le_mul_pow_of_gt (Nat.pos_of_ne_zero hzero) hlarge⟩
  · exact .inl (.zero (mul_pow_le_of_lt hsmall))
  · left
    obtain ⟨k, rfl⟩ := Int.eq_ofNat_of_zero_le hsign
    have hpos := Nat.pos_of_ne_zero hzero
    have hscale : (m * 10 ^ (k : Int) : ℚ) = (m * 2 ^ 53 : Nat) * 2 ^ (-(53 : Nat) : Int) *
        ((10 ^ k : Nat) * 2 ^ (0 : Int)) := by
      rw [zpow_neg, zpow_natCast, zpow_natCast, zpow_zero]
      simp only [Nat.cast_mul, Nat.cast_pow, Nat.cast_ofNat]
      field_simp
    simp only [hwidth, Nat.shiftLeft_eq, Int.toNat_natCast, hscale]
    refine mul_rounds .positive .positive _ _ (.inl ?_)
    rw [Nat.le_log2 (by positivity)]
    calc 2 ^ 52 ≤ m * 2 ^ 53 := by omega
      _ ≤ m * 2 ^ 53 * 10 ^ k := Nat.le_mul_of_pos_right _ (by positivity)
  · left
    obtain ⟨k, rfl⟩ : ∃ k : Nat, e = -k := ⟨e.natAbs, by omega⟩
    have hscale : (m * 10 ^ (-k : Int) : ℚ) = m * 2 ^ (0 : Int) /
        ((10 ^ k : Nat) * 2 ^ (0 : Int)) := by
      simp [div_eq_mul_inv]
    simp only [neg_neg, Int.toNat_natCast, hscale]
    exact div_rounds .positive .positive _ _

/-! ## The nearest float -/

/-- What `nearest` gives is what the number rounds to, or an infinity for a number that is too
large. -/
theorem nearest_rounds (m : Nat) (e : Int) : ∃ u, Decimal.nearest m e = ofParts u ∧
    (Rounds .positive (m * 10 ^ e) u ∨
      u = .infinity .positive ∧ 2 ^ (1024 : Int) ≤ (m * 10 ^ e : ℚ)) := by
  have hexponent : (if decide (e < 0) = true then -(e.natAbs : Int) else e.natAbs) = e := by
    split_ifs with hsign <;> simp at hsign <;> omega
  rw [Decimal.nearest]
  by_cases hsmall : m < 2 ^ 53 ∧ e.natAbs ≤ 22
  · obtain ⟨u, hu, hrounds⟩ := ofScientific_small hsmall.1 hsmall.2 (decide (e < 0))
    rw [hexponent] at hrounds
    exact ⟨u, hu, .inl hrounds⟩
  · refine ⟨ofScientific Format.binary64 m e, ?_, ofScientific_rounds m e⟩
    have hsigned : (if decide (e < 0) = true then Int.negOfNat e.natAbs else Int.ofNat e.natAbs) =
        e := by
      rw [Int.negOfNat_eq]
      exact hexponent
    rw [Float.ofScientific, dif_neg hsmall]
    change ofParts (ofScientific Format.binary64 m _) = _
    rw [hsigned]

theorem Rounds.canonical {s : Sign} {q : ℚ} {u : UnpackedFloat} (h : Rounds s q u)
    (hfinite : (ofParts u).isFinite = true) : Canonical u := by
  cases h with
  | zero => trivial
  | @finite m e hm hgrid _ =>
    refine ⟨hgrid, ?_⟩
    by_contra hlarge
    rw [isFinite_ofParts_of_gt hm (by omega)] at hfinite
    cases hfinite

/-- A number that rounds to a float is within the range of the format. -/
theorem Rounds.lt {s : Sign} {q : ℚ} {v : Float} (h : Rounds s q (parts v)) :
    q < 2 ^ (1024 : Int) := by
  have hcanonical := parts_canonical v
  generalize parts v = u at h hcanonical
  cases h with
  | zero hq => exact hq.trans_lt (zpow_lt_zpow_right₀ (by norm_num) (by norm_num))
  | finite hm hgrid h => exact h.lt hcanonical

theorem Rounds.isFinite {s : Sign} {q : ℚ} {v : Float} (h : Rounds s q (parts v)) :
    v.isFinite = true := by
  rw [isFinite_eq]
  generalize parts v = u at h
  cases h <;> rfl

/-- A finite float is the nearest one exactly if the number rounds to it. -/
theorem nearest_eq_iff {m : Nat} {e : Int} {v : Float} :
    Decimal.nearest m e = v ∧ v.isFinite = true ↔ Rounds .positive (m * 10 ^ e) (parts v) := by
  obtain ⟨u, hu, hrounds⟩ := nearest_rounds m e
  constructor
  · rintro ⟨rfl, hfinite⟩
    rw [hu] at hfinite ⊢
    rcases hrounds with hrounds | ⟨rfl, -⟩
    · rwa [parts_ofParts (hrounds.canonical hfinite)]
    · exact absurd hfinite (by decide)
  · intro h
    refine ⟨?_, h.isFinite⟩
    rcases hrounds with hrounds | ⟨-, hlarge⟩
    · rw [hu, hrounds.unique h, ofParts_parts]
    · exact absurd h.lt hlarge.not_gt

end Number

/-! ## Literals -/

namespace Decimal

/-- The text is a numeral, and its number rounds to the float. -/
def Reads (cs : List Char) (v : Float) : Prop :=
  ∃ m j, Numeral cs m j ∧ Number.Rounds .positive (m / 10 ^ j) (Number.parts v)

/-- A literal is read exactly if it is a numeral, and gives the float that it rounds to. -/
theorem literal?_eq_some_iff {cs : List Char} {v : Float} :
    literal? cs = some v ↔ Reads cs v := by
  have hpower (m j : Nat) : (m / 10 ^ j : ℚ) = m * 10 ^ (-(j : Int)) := by
    rw [zpow_neg, zpow_natCast, div_eq_mul_inv]
  unfold literal? Reads
  constructor
  · intro h
    split at h
    · rename_i m j hnumeral
      dsimp only at h
      split_ifs at h with hfinite
      cases h
      refine ⟨m, j, literalFrom?_eq_some_iff.1 hnumeral, ?_⟩
      rw [hpower]
      exact Number.nearest_eq_iff.1 ⟨rfl, hfinite⟩
    · cases h
  · rintro ⟨m, j, hnumeral, hrounds⟩
    rw [hpower] at hrounds
    obtain ⟨rfl, hfinite⟩ := Number.nearest_eq_iff.2 hrounds
    rw [literalFrom?_eq_some_iff.2 hnumeral]
    dsimp only
    rw [if_pos hfinite]

end Decimal

end Piecework
