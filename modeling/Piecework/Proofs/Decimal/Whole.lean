import Piecework.Json.Token
import Piecework.Proofs.Decimal.Nearest

/-!
# Whole numbers as floats

A number in a text may be looked at as a float before anybody asks for an integer.  One that
fits into a word is far from the end of the range: it rounds to a float, and the multiplication
by a power of ten that follows is one by one, which changes nothing.  So it is finite
(`isFinite_ofInt`), as every number has to be that is only skipped.
-/

namespace Piecework

open Float.Model (UnpackedFloat Format)
open Float.Model.UnpackedFloat

namespace Number

/-- A number well inside the range of the format rounds to the parts of a float. -/
theorem Rounds.canonical_of_lt {s : Sign} {q : ℚ} {u : UnpackedFloat} (h : Rounds s q u)
    (hq : q < 2 ^ (1023 : Int)) : Canonical u := by
  cases h with
  | zero => trivial
  | @finite m e hm hgrid h =>
    refine ⟨hgrid, ?_⟩
    by_contra hlarge
    have hfull : (2 ^ 52 : ℚ) ≤ m := by exact_mod_cast hgrid.full.resolve_right (by omega)
    have hscale : q = q / 2 ^ e * 2 ^ e := by field_simp
    rw [hscale] at h
    have hlow := (h.isNearest hm).1.1
    have hunit : (2 : ℚ) ^ (972 : Int) ≤ 2 ^ e :=
      zpow_le_zpow_right₀ (by norm_num) (by omega)
    have hbig : (2 : ℚ) ^ (51 : Int) * 2 ^ (972 : Int) ≤ q / 2 ^ e * 2 ^ e :=
      mul_le_mul (by norm_num; linarith) hunit (by positivity) (by linarith)
    rw [← zpow_add₀ (by norm_num), ← hscale] at hbig
    exact absurd hq (not_lt_of_ge hbig)

/-- Multiplying by one leaves the parts of a float as they are. -/
theorem mul_one_parts {s : Sign} {m : Nat} {e : Int} (hm : 0 < m) (hgrid : Normalized m e) :
    mul Format.binary64 (.finite s m e hm) (.finite .positive (2 ^ 52) (-52) (by norm_num)) =
      .finite s m e hm := by
  have hfine : 52 ≤ (m * 2 ^ 52).log2 := by
    rw [Nat.le_log2 (by omega)]
    omega
  have hproduct : Rounds (s * .positive) (m * 2 ^ e * ((2 ^ 52 : Nat) * 2 ^ (-52 : Int)))
      (mul Format.binary64 (.finite s m e hm) (.finite .positive (2 ^ 52) (-52) (by norm_num))) :=
    mul_rounds s .positive hm (by norm_num) (.inl hfine)
  have hone : ((2 ^ 52 : Nat) * 2 ^ (-52 : Int) : ℚ) = 1 := by norm_num
  have hsign : s * .positive = s := by cases s <;> rfl
  rw [hone, mul_one, hsign] at hproduct
  exact hproduct.unique (rounds_self s hm hgrid)

end Number

namespace Decimal

open Number

theorem parts_power_zero : parts (power 0) = .finite .positive (2 ^ 52) (-52) (by norm_num) := by
  have hone : power 0 = ofParts (.finite .positive (2 ^ 52) (-52) (by norm_num)) := by
    decide +kernel
  rw [hone, parts_ofParts]
  exact ⟨⟨by norm_num, by norm_num, .inl (le_refl _)⟩, by norm_num⟩

/-- A whole number that fits into a word is finite as a float. -/
theorem isFinite_scaled {n : Nat} (hn : n < UInt64.size) : (scaled n 0).isFinite = true := by
  have hsmall : (n * 10 ^ (0 : Int) : ℚ) < 2 ^ (1023 : Int) := by
    have hword : (n : ℚ) < 2 ^ (64 : Int) := by exact_mod_cast hn
    rw [zpow_zero, mul_one]
    exact hword.trans (zpow_lt_zpow_right₀ (by norm_num) (by norm_num))
  rw [scaled]
  split_ifs with hzero hneg hpower
  · decide
  · obtain ⟨u, hu, hrounds⟩ := nearest_rounds n 0
    have hrounds : Rounds .positive (n * 10 ^ (0 : Int)) u := by
      refine hrounds.resolve_right fun h => absurd (hsmall.trans ?_) h.2.not_gt
      exact zpow_lt_zpow_right₀ (by norm_num) (by norm_num)
    have hcanonical := hrounds.canonical_of_lt hsmall
    have hproduct : parts (nearest n 0 * power 0) =
        parts (ofParts (mul Format.binary64 (parts (nearest n 0)) (parts (power 0)))) := rfl
    rw [isFinite_eq]
    change (parts (nearest n 0 * power 0)).isFinite = true
    rw [hproduct, hu, parts_ofParts hcanonical, parts_power_zero]
    cases hrounds with
    | zero => rfl
    | finite hm hgrid h =>
      rw [mul_one_parts hm hgrid, parts_ofParts hcanonical]
      rfl
  · exact absurd (Nat.zero_le _) hpower
  all_goals exact absurd (le_refl _) hneg

end Decimal

namespace Json

/-- An integer as it stands in a text. -/
def Number.ofInt (n : Int) : Number := ⟨n < 0, n.natAbs, 0, true⟩

theorem Number.integer?_ofInt (n : Int) : (Number.ofInt n).integer? = some n := by
  have hzero : ¬((Number.ofInt n).negative = true ∧ (Number.ofInt n).digits = 0) := by
    simp [ofInt]
    omega
  rw [integer?, if_pos ⟨rfl, hzero⟩]
  simp only [ofInt, decide_eq_true_eq, Option.some.injEq]
  split_ifs <;> omega

theorem Number.isFinite_ofInt {n : Int} (hn : n.natAbs < UInt64.size) :
    (Number.ofInt n).value.isFinite = true := by
  have hfinite := Decimal.isFinite_scaled hn
  unfold value ofInt
  dsimp only
  split_ifs
  · rw [Piecework.Number.isFinite_eq] at hfinite ⊢
    rw [Piecework.Number.parts_neg]
    cases hparts : Piecework.Number.parts (Decimal.scaled n.natAbs 0) <;>
      rw [hparts] at hfinite <;> exact hfinite
  · exact hfinite

end Json

end Piecework
