import Piecework.Proofs.Decimal.Parts

/-!
# What a number rounds to

Rounding to the nearest float, ties to even, is said here without an algorithm.  A number rounds
to a binary number if it lies in its interval (`Binary.Covers`), which reaches half of a unit
in the last place up and down, but only a quarter down at a power of two, where the floats below
are closer.  `Rounds` says so of the parts of a float, with zero for numbers that are at most
half of the smallest float.  Exponents too large for the format are left in: packing makes
infinities of them.

* `Covers.isNearest`: counted in units in the last place, what lies in the interval is nearest
  to the mantissa.
* `Rounds.unique`: a number rounds to one float only, since a number in the intervals of floats
  with different exponents would have to round to a power of two as seen from the smaller one
  (`Covers.carry`).
* `Rounds.nearest`: no float is nearer to a number than the one that it rounds to.
-/

namespace Piecework

open Float.Model (UnpackedFloat)
open Float.Model.UnpackedFloat

namespace Decimal.Binary

/-- A quarter of the unit in the last place. -/
def quarter (b : Binary) : ℚ := 2 ^ (b.exponent - 2)

/-- The number lies in the interval of `b`: between its ends, and at an end only if the mantissa
is even. -/
def Covers (b : Binary) (q : ℚ) : Prop :=
  (b.lower * b.quarter ≤ q ∧ q ≤ b.upper * b.quarter) ∧
    (b.mantissa % 2 = 1 → b.lower * b.quarter < q ∧ q < b.upper * b.quarter)

end Decimal.Binary

namespace Number

open Decimal (Binary)

/-- The parts that a number which is not negative rounds to, with this sign. -/
inductive Rounds (s : Sign) (q : ℚ) : UnpackedFloat → Prop
  | zero : q ≤ 2 ^ (-1075 : Int) → Rounds s q (.zero s)
  | finite {m : Nat} {e : Int} (hm : 0 < m) : Normalized m e → (binary m e).Covers q →
      Rounds s q (.finite s m e hm)

/-- The natural number is nearest to `x`, and of two nearest ones it is the even one. -/
def IsNearest (n : Nat) (x : ℚ) : Prop :=
  (n - 1 / 2 ≤ x ∧ x ≤ n + 1 / 2) ∧ (n % 2 = 1 → n - 1 / 2 < x ∧ x < n + 1 / 2)

theorem IsNearest.unique {n n' : Nat} {x : ℚ} (h : IsNearest n x) (h' : IsNearest n' x) :
    n = n' := by
  obtain ⟨⟨hlow, hhigh⟩, hodd⟩ := h
  obtain ⟨⟨hlow', hhigh'⟩, hodd'⟩ := h'
  have hle : (n : ℚ) ≤ n' + 1 := by linarith
  have hle' : (n' : ℚ) ≤ n + 1 := by linarith
  have hlt : n % 2 = 1 → (n : ℚ) < n' + 1 ∧ (n' : ℚ) < n + 1 := fun h =>
    ⟨by linarith [(hodd h).1], by linarith [(hodd h).2]⟩
  have hlt' : n' % 2 = 1 → (n : ℚ) < n' + 1 ∧ (n' : ℚ) < n + 1 := fun h =>
    ⟨by linarith [(hodd' h).2], by linarith [(hodd' h).1]⟩
  norm_cast at hle hle' hlt hlt'
  omega

/-- No natural number is nearer. -/
theorem IsNearest.abs_sub_le {n : Nat} {x : ℚ} (h : IsNearest n x) (n' : Nat) :
    |x - n| ≤ |x - n'| := by
  obtain ⟨hlow, hhigh⟩ := h.1
  have hhalf : |x - n| ≤ 1 / 2 := abs_le.2 ⟨by linarith, by linarith⟩
  rcases lt_trichotomy n' n with hlt | rfl | hgt
  · have : (n' : ℚ) + 1 ≤ n := by exact_mod_cast hlt
    linarith [le_abs_self (x - n')]
  · exact le_refl _
  · have : (n : ℚ) + 1 ≤ n' := by exact_mod_cast hgt
    linarith [neg_le_abs (x - n')]

end Number

/-! ## The interval of a float -/

namespace Decimal.Binary

open Number (IsNearest Normalized binary)

variable {m m' : Nat} {e e' : Int} {q : ℚ}

theorem four_quarter (b : Binary) : 4 * b.quarter = 2 ^ b.exponent := by
  rw [quarter, zpow_sub₀ (by norm_num)]
  ring

theorem quarter_pos (b : Binary) : 0 < b.quarter := by
  rw [quarter]
  positivity

/-- The interval reaches down by a quarter or half of the unit. -/
theorem lower_binary (m : Nat) (e : Int) : (binary m e).lower =
    if m = 2 ^ 52 ∧ -1074 < e then 4 * m - 1 else 4 * m - 2 := by
  simp [lower, binary]

theorem lower_bounds (hm : 0 < m) (e : Int) :
    4 * m ≤ (binary m e).lower + 2 ∧ (binary m e).lower + 1 ≤ 4 * m := by
  rw [lower_binary]
  split_ifs <;> omega

theorem upper_binary (m : Nat) (e : Int) : ((binary m e).upper : ℚ) = 4 * m + 2 := by
  simp [upper, binary]

theorem Covers.mul_unit {x : ℚ} : (binary m e).Covers (x * 2 ^ e) ↔
    ((binary m e).lower ≤ 4 * x ∧ 4 * x ≤ (binary m e).upper) ∧
      (m % 2 = 1 → (binary m e).lower < 4 * x ∧ 4 * x < (binary m e).upper) := by
  have hscale : x * 2 ^ e = 4 * x * (binary m e).quarter := by
    rw [mul_comm 4 x, mul_assoc, four_quarter]
    rfl
  have hu := (binary m e).quarter_pos
  rw [hscale, Covers]
  simp only [mul_le_mul_iff_left₀ hu, mul_lt_mul_iff_left₀ hu]
  rfl

/-- Counted in units in the last place, what rounds to a mantissa is nearest to it. -/
theorem Covers.isNearest {x : ℚ} (hm : 0 < m) (h : (binary m e).Covers (x * 2 ^ e)) :
    IsNearest m x := by
  have hlower : (4 * m : ℚ) ≤ (binary m e).lower + 2 := by
    exact_mod_cast (lower_bounds hm e).1
  rw [Covers.mul_unit, upper_binary] at h
  obtain ⟨⟨hlow, hhigh⟩, hodd⟩ := h
  refine ⟨⟨by linarith, by linarith⟩, fun hmantissa => ?_⟩
  obtain ⟨hlow, hhigh⟩ := hodd hmantissa
  exact ⟨by linarith, by linarith⟩

/-- What is nearest to a mantissa rounds to it, if it does not lie below a power of two. -/
theorem covers_of_isNearest {x : ℚ} (hm : 0 < m) (h : IsNearest m x)
    (hpower : m = 2 ^ 52 → -1074 < e → (m : ℚ) ≤ x) : (binary m e).Covers (x * 2 ^ e) := by
  obtain ⟨⟨hlow, hhigh⟩, hodd⟩ := h
  rw [Covers.mul_unit, upper_binary, lower_binary]
  split_ifs with hnarrow
  · have hx := hpower hnarrow.1 hnarrow.2
    have hlower : ((4 * m - 1 : Nat) : ℚ) = 4 * m - 1 := by
      rw [Nat.cast_sub (by omega)]
      push_cast
      ring
    rw [hlower]
    refine ⟨⟨by linarith, by linarith⟩, fun hmantissa => ?_⟩
    have := (hodd hmantissa).2
    exact ⟨by linarith, by linarith⟩
  · have hlower : ((4 * m - 2 : Nat) : ℚ) = 4 * m - 2 := by
      rw [Nat.cast_sub (by omega)]
      push_cast
      ring
    rw [hlower]
    refine ⟨⟨by linarith, by linarith⟩, fun hmantissa => ?_⟩
    obtain ⟨hlow, hhigh⟩ := hodd hmantissa
    exact ⟨by linarith, by linarith⟩

/-- A number that rounds up to a power of two lies in its interval. -/
theorem covers_of_carry {x : ℚ} {t : Int} (ht : -1074 ≤ t) (h : IsNearest (2 ^ 53) x)
    (hx : x < 2 ^ 53) : (binary (2 ^ 52) (t + 1)).Covers (x * 2 ^ t) := by
  obtain ⟨⟨hlow, -⟩, -⟩ := h
  have hscale : x * 2 ^ t = x / 2 * 2 ^ (t + 1) := by
    rw [zpow_add_one₀ (by norm_num)]
    ring
  rw [hscale, Covers.mul_unit, upper_binary, lower_binary, if_pos ⟨rfl, by omega⟩]
  push_cast at hlow ⊢
  refine ⟨⟨?_, ?_⟩, fun hodd => absurd hodd (by norm_num)⟩
  · norm_num at hlow ⊢
    linarith
  · linarith

/-- A number that rounds to a float with a larger exponent than it is cut off at is next to a
power of two: it is rounded up to the power. -/
theorem Covers.carry {x : ℚ} {t : Int} (hgrid : Normalized m e)
    (h : (binary m e).Covers (x * 2 ^ t)) (hx : x < 2 ^ 53) (ht : -1074 ≤ t) (hlt : t < e) :
    IsNearest (2 ^ 53) x := by
  have hfull := hgrid.full.resolve_right (by omega)
  obtain ⟨k, rfl⟩ : ∃ k : Nat, e = t + (k + 1 : Nat) := ⟨(e - t - 1).toNat, by omega⟩
  have hscale : x * 2 ^ t = x / 2 ^ (k + 1) * 2 ^ (t + (k + 1 : Nat)) := by
    rw [zpow_add₀ (by norm_num), zpow_natCast]
    field_simp
  rw [hscale, Covers.mul_unit] at h
  have hlow := h.1.1
  have hhalf : 4 * (x / 2 ^ (k + 1)) < 2 ^ 54 := by
    have hpower : (2 : ℚ) ≤ 2 ^ (k + 1) := le_self_pow₀ (by norm_num) (by omega)
    have : x / 2 ^ (k + 1) < 2 ^ 52 := by
      rw [div_lt_iff₀ (by positivity)]
      linarith
    linarith
  have hlower : (binary m (t + (k + 1 : Nat))).lower < 2 ^ 54 := by
    exact_mod_cast hlow.trans_lt hhalf
  have hmantissa : m = 2 ^ 52 := by
    have := lower_bounds (by omega : 0 < m) (t + (k + 1 : Nat))
    omega
  rw [lower_binary, if_pos ⟨hmantissa, by omega⟩, hmantissa] at hlow
  have hunit : k = 0 := by
    by_contra hk
    have hpower : (2 : ℚ) ^ 2 ≤ 2 ^ (k + 1) := pow_le_pow_right₀ (by norm_num) (by omega)
    have : x / 2 ^ (k + 1) < 2 ^ 51 := by
      rw [div_lt_iff₀ (by positivity)]
      linarith
    norm_num at hlow
    linarith
  rw [hunit] at hlow
  norm_num at hlow
  refine ⟨⟨?_, ?_⟩, fun hodd => absurd hodd (by norm_num)⟩ <;> push_cast <;> linarith

/-- A number in the intervals of two binary numbers has the smaller exponent in both. -/
theorem Covers.exponent_le (hm : 0 < m) (hgrid : Normalized m e) (hgrid' : Normalized m' e')
    (h : (binary m e).Covers q) (h' : (binary m' e').Covers q) : e' ≤ e := by
  by_contra hlt
  have hscale : q = q / 2 ^ e * 2 ^ e := by field_simp
  rw [hscale] at h h'
  have hnear := h.isNearest hm
  have hx : q / 2 ^ e < 2 ^ 53 := by
    have : (m : ℚ) + 1 ≤ 2 ^ 53 := by exact_mod_cast hgrid.mantissa_lt
    linarith [hnear.1.2]
  have hcarry := h'.carry hgrid' hx hgrid.exponent_ge (by omega)
  have := hgrid.mantissa_lt
  rw [hnear.unique hcarry] at this
  omega

/-- A number lies in one interval only. -/
theorem Covers.unique (hm : 0 < m) (hm' : 0 < m') (hgrid : Normalized m e)
    (hgrid' : Normalized m' e') (h : (binary m e).Covers q) (h' : (binary m' e').Covers q) :
    m = m' ∧ e = e' := by
  have hle := Covers.exponent_le hm hgrid hgrid' h h'
  have hge := Covers.exponent_le hm' hgrid' hgrid h' h
  obtain rfl : e = e' := by omega
  have hscale : q = q / 2 ^ e * 2 ^ e := by field_simp
  rw [hscale] at h h'
  exact ⟨(h.isNearest hm).unique (h'.isNearest hm'), rfl⟩

/-- A float with a smaller exponent is smaller than any full mantissa. -/
theorem mul_unit_le_of_lt (hgrid : Normalized m' e') (h : e' < e) :
    (m' * 2 ^ e' : ℚ) ≤ (2 ^ 52 - 1 / 2) * 2 ^ e := by
  have hhalf : 2 * (2 : ℚ) ^ e' ≤ 2 ^ e := by
    rw [← zpow_one_add₀ (by norm_num)]
    exact zpow_le_zpow_right₀ (by norm_num) (by omega)
  have hbits : (m' : ℚ) + 1 ≤ 2 ^ 53 := by exact_mod_cast hgrid.mantissa_lt
  calc (m' * 2 ^ e' : ℚ) ≤ (2 ^ 53 - 1) * 2 ^ e' :=
        mul_le_mul_of_nonneg_right (by linarith) (by positivity)
    _ = (2 ^ 52 - 1 / 2) * (2 * 2 ^ e') := by ring
    _ ≤ (2 ^ 52 - 1 / 2) * 2 ^ e := mul_le_mul_of_nonneg_left hhalf (by norm_num)

/-- No float is nearer to a number than the one in whose interval it lies. -/
theorem Covers.nearest (hm : 0 < m) (hgrid : Normalized m e) (hgrid' : Normalized m' e')
    (h : (binary m e).Covers q) : |q - m * 2 ^ e| ≤ |q - m' * 2 ^ e'| := by
  have he : (0 : ℚ) < 2 ^ e := by positivity
  obtain ⟨x, rfl⟩ : ∃ x : ℚ, q = x * 2 ^ e := ⟨q / 2 ^ e, by field_simp⟩
  obtain ⟨w, hw⟩ : ∃ w : ℚ, (m' * 2 ^ e' : ℚ) = w * 2 ^ e := ⟨m' * 2 ^ e' / 2 ^ e, by field_simp⟩
  have hnear := h.isNearest hm
  obtain ⟨hlow, hhigh⟩ := hnear.1
  rw [hw, ← sub_mul, ← sub_mul, abs_mul, abs_mul]
  apply mul_le_mul_of_nonneg_right _ (abs_nonneg _)
  rcases le_or_gt e e' with hle | hgt
  · -- both are whole numbers of units
    obtain ⟨k, rfl⟩ : ∃ k : Nat, e' = e + k := ⟨(e' - e).toNat, by omega⟩
    obtain rfl : w = (m' * 2 ^ k : Nat) := by
      rw [zpow_add₀ (by norm_num), zpow_natCast, mul_left_comm, mul_comm w] at hw
      push_cast
      exact (mul_left_cancel₀ he.ne' hw).symm
    exact hnear.abs_sub_le _
  · -- the other float is smaller than any full mantissa
    have hfull : 2 ^ 52 ≤ m := hgrid.full.resolve_right (by have := hgrid'.exponent_ge; omega)
    have hw' : w ≤ 2 ^ 52 - 1 / 2 := by
      have hle := mul_unit_le_of_lt hgrid' hgt
      rw [hw] at hle
      exact le_of_mul_le_mul_right hle he
    apply le_trans _ (le_abs_self _)
    rcases hfull.eq_or_lt with rfl | hlt
    · have hquarter : (2 ^ 52 : ℚ) - 1 / 4 ≤ x := by
        have hlower := (Covers.mul_unit.1 h).1.1
        rw [lower_binary, if_pos ⟨rfl, by have := hgrid'.exponent_ge; omega⟩] at hlower
        norm_num at hlower ⊢
        linarith
      push_cast
      exact abs_le.2 ⟨by linarith, by linarith⟩
    · have : (2 : ℚ) ^ 52 + 1 ≤ m := by exact_mod_cast hlt
      exact abs_le.2 ⟨by linarith, by linarith⟩

/-- What lies in an interval is more than half of the smallest number. -/
theorem Covers.gt (hm : 0 < m) (hgrid : Normalized m e) (h : (binary m e).Covers q) :
    2 ^ (-1075 : Int) < q := by
  have hu := (binary m e).quarter_pos
  have hunit : (2 : ℚ) ^ (-1076 : Int) ≤ (binary m e).quarter := by
    have := hgrid.exponent_ge
    exact zpow_le_zpow_right₀ (by norm_num) (by simp only [binary]; omega)
  have hhalf : (2 : ℚ) ^ (-1075 : Int) = 2 * 2 ^ (-1076 : Int) := by
    rw [← zpow_one_add₀ (by norm_num)]
    norm_num
  have hlower := (lower_bounds hm e).1
  by_cases hone : m = 1
  · have hlow : (2 : ℚ) ≤ (binary m e).lower := by exact_mod_cast (by omega)
    have hend := mul_le_mul_of_nonneg_right hlow hu.le
    have := (h.2 (by rw [hone]; rfl)).1
    linarith
  · have hlow : (3 : ℚ) ≤ (binary m e).lower := by exact_mod_cast (by omega)
    have hend := mul_le_mul_of_nonneg_right hlow hu.le
    have := h.1.1
    linarith

/-- What lies in the interval of a finite float is not too large for the format. -/
theorem Covers.lt (hgrid : Number.OnGrid m e) (h : (binary m e).Covers q) :
    q < 2 ^ (1024 : Int) := by
  have hu := (binary m e).quarter_pos
  have hunit : (binary m e).quarter ≤ 2 ^ (969 : Int) := by
    have := hgrid.exponent_le
    exact zpow_le_zpow_right₀ (by norm_num) (by simp only [binary]; omega)
  have hupper : ((binary m e).upper : ℚ) < 2 ^ (55 : Int) := by
    have := hgrid.mantissa_lt
    exact_mod_cast (by simp only [upper, binary]; omega : (binary m e).upper < 2 ^ 55)
  calc q ≤ (binary m e).upper * (binary m e).quarter := h.1.2
    _ < 2 ^ (55 : Int) * (binary m e).quarter := mul_lt_mul_of_pos_right hupper hu
    _ ≤ 2 ^ (55 : Int) * 2 ^ (969 : Int) := mul_le_mul_of_nonneg_left hunit (by positivity)
    _ = 2 ^ (1024 : Int) := by
        rw [← zpow_add₀ (by norm_num)]
        norm_num

end Decimal.Binary

/-! ## What a number rounds to -/

namespace Number

open Decimal (Binary)

/-- A number rounds to one float only. -/
theorem Rounds.unique {s : Sign} {q : ℚ} {u v : UnpackedFloat} (h : Rounds s q u)
    (h' : Rounds s q v) : u = v := by
  cases h with
  | zero hq =>
    cases h' with
    | zero => rfl
    | finite hm hgrid h => exact absurd hq (h.gt hm hgrid).not_ge
  | finite hm hgrid h =>
    cases h' with
    | zero hq => exact absurd hq (h.gt hm hgrid).not_ge
    | finite hm' hgrid' h' =>
      obtain ⟨rfl, rfl⟩ := h.unique hm hm' hgrid hgrid' h'
      rfl

/-- The size of the number that the parts of a finite float stand for. -/
def size : UnpackedFloat → ℚ
  | .finite _ m e _ => m * 2 ^ e
  | _ => 0

/-- No float is nearer to a number than the one that it rounds to. -/
theorem Rounds.nearest {s : Sign} {q : ℚ} {u : UnpackedFloat} (h : Rounds s q u) (hq : 0 ≤ q)
    {m : Nat} {e : Int} (hgrid : Normalized m e) : |q - size u| ≤ |q - m * 2 ^ e| := by
  cases h with
  | finite hm' hgrid' h => exact h.nearest hm' hgrid' hgrid
  | zero hsmall =>
    have hzero : size (.zero s) = 0 := rfl
    rw [hzero, sub_zero, abs_of_nonneg hq]
    rcases Nat.eq_zero_or_pos m with rfl | hm
    · rw [Nat.cast_zero, zero_mul, sub_zero]
      exact le_abs_self q
    have hunit : (2 : ℚ) ^ (-1074 : Int) ≤ m * 2 ^ e := by
      have hone : (1 : ℚ) ≤ m := by exact_mod_cast hm
      exact (zpow_le_zpow_right₀ (by norm_num) hgrid.exponent_ge).trans
        (le_mul_of_one_le_left (by positivity) hone)
    have hhalf : 2 * (2 : ℚ) ^ (-1075 : Int) = 2 ^ (-1074 : Int) := by
      rw [← zpow_one_add₀ (by norm_num)]
      norm_num
    linarith [neg_le_abs (q - m * 2 ^ e)]

/-- What a float stands for rounds to it. -/
theorem rounds_self {m : Nat} {e : Int} (s : Sign) (hm : 0 < m) (hgrid : Normalized m e) :
    Rounds s (m * 2 ^ e) (.finite s m e hm) := by
  refine .finite hm hgrid (Binary.covers_of_isNearest hm ?_ fun _ _ => le_refl _)
  exact ⟨⟨by linarith, by linarith⟩, fun _ => ⟨by linarith, by linarith⟩⟩

end Number

end Piecework
