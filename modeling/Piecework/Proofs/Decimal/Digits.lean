import Piecework.Proofs.Decimal.Interval

/-!
# The digits of a float

The writer looks for the coarsest decimal grid with a point that rounds to the float.  That it
finds one is a matter of size: on a grid that is finer than a quarter of the unit in the last
place, the neighbour below the float rounds to it, and the last of the twenty grids is as fine
as that (`topGrid_fine`).  So the digits always round to the float (`shortest_covers`).
-/

namespace Piecework.Decimal.Binary

open Number (OnGrid binary)

variable {b : Binary} {k : Int} {n : Nat}

/-! ## One grid -/

theorem denominator_pos (b : Binary) (k : Int) : 0 < b.denominator k :=
  Nat.mul_pos (Nat.pow_pos (by norm_num)) (Nat.pow_pos (by norm_num))

theorem pow_toNat {x : ℚ} (hx : x ≠ 0) (i : Int) : x ^ i.toNat = x ^ i * x ^ (-i).toNat := by
  rw [← zpow_natCast, ← zpow_natCast, ← zpow_add₀ hx]
  congr 1
  omega

/-- Numerator and denominator of a quarter of the unit in the last place. -/
theorem numerator_mul (b : Binary) (k : Int) :
    (b.numerator k : ℚ) * 10 ^ k = b.quarter * b.denominator k := by
  have htwo := pow_toNat (x := 2) (by norm_num) (b.exponent - 2)
  have hten := pow_toNat (x := 10) (by norm_num) k
  rw [neg_sub] at htwo
  simp only [numerator, denominator, quarter, Nat.pow_eq, Nat.cast_mul, Nat.cast_pow,
    Nat.cast_ofNat, htwo, hten]
  ring

/-- Multiples of the unit are compared with points of a grid by natural numbers. -/
theorem mul_numerator_le_iff (b : Binary) (k : Int) (x n : Nat) :
    (x * b.numerator k ≤ n * b.denominator k ↔ x * b.quarter ≤ n * 10 ^ k) ∧
      (n * b.denominator k ≤ x * b.numerator k ↔ n * 10 ^ k ≤ x * b.quarter) := by
  have hten : (0 : ℚ) < 10 ^ k := by positivity
  have hden : (0 : ℚ) < b.denominator k := by exact_mod_cast b.denominator_pos k
  have hleft : (x * b.numerator k : ℚ) * 10 ^ k = x * b.quarter * b.denominator k := by
    rw [mul_assoc, numerator_mul]
    ring
  have hright : (n * b.denominator k : ℚ) * 10 ^ k = n * 10 ^ k * b.denominator k := by ring
  constructor
  · rw [← Nat.cast_le (α := ℚ), Nat.cast_mul, Nat.cast_mul, ← mul_le_mul_iff_left₀ hten, hleft,
      hright, mul_le_mul_iff_left₀ hden]
  · rw [← Nat.cast_le (α := ℚ), Nat.cast_mul, Nat.cast_mul, ← mul_le_mul_iff_left₀ hten, hleft,
      hright, mul_le_mul_iff_left₀ hden]

/-- The comparison of natural numbers says which points of a grid round to the float. -/
theorem rounds_iff : b.rounds k n = true ↔ b.Covers (n * 10 ^ k) := by
  obtain ⟨hlow, hlow'⟩ := mul_numerator_le_iff b k b.lower n
  obtain ⟨hhigh', hhigh⟩ := mul_numerator_le_iff b k b.upper n
  have hlow' := not_congr hlow'
  have hhigh' := not_congr hhigh'
  rw [not_le, not_le] at hlow' hhigh'
  rw [rounds, Covers]
  rcases Nat.mod_two_eq_zero_or_one b.mantissa with hparity | hparity
  · simp [hparity, hlow, hhigh]
  · simp only [hparity, Nat.reduceBEq, Bool.false_eq_true, if_false, Bool.and_eq_true,
      decide_eq_true_eq, hlow', hhigh', forall_const]
    exact ⟨fun h => ⟨⟨h.1.le, h.2.le⟩, h⟩, And.right⟩

/-- A hit on a grid rounds to the float. -/
theorem covers_of_onGrid? {tie : Tie} (h : b.onGrid? tie k = some n) : b.Covers (n * 10 ^ k) := by
  rw [← rounds_iff]
  simp only [onGrid?] at h
  split at h
  · cases h
  · rename_i hlow _
    cases h
    exact (Bool.and_eq_true_iff.1 hlow).2
  · rename_i _ hhigh
    cases h
    exact hhigh
  · -- both neighbours round to the float, and either of them is taken
    rename_i hlow hhigh
    have hlow := (Bool.and_eq_true_iff.1 hlow).2
    have heither : n = b.below k ∨ n = b.below k + 1 := by
      split at h
      · exact .inl (Option.some.inj h).symm
      · exact .inr (Option.some.inj h).symm
      · cases tie
        · exact .inr (Option.some.inj h).symm
        · have := Option.some.inj h
          omega
    rcases heither with rfl | rfl
    · exact hlow
    · exact hhigh

/-- A grid finer than a quarter of the unit has a hit: the neighbour below the float. -/
theorem exists_onGrid? (tie : Tie) (hpos : b.lower < b.middle)
    (hfine : (10 : ℚ) ^ k ≤ b.quarter) : ∃ n, b.onGrid? tie k = some n := by
  have hten : (0 : ℚ) < 10 ^ k := by positivity
  have hu := b.quarter_pos
  have hbelow : b.below k * 10 ^ k ≤ (b.middle : ℚ) * b.quarter := by
    rw [← (mul_numerator_le_iff b k _ _).2]
    exact Nat.div_mul_le_self _ _
  have habove : (b.middle : ℚ) * b.quarter < (b.below k + 1) * 10 ^ k := by
    have hlt : b.middle * b.numerator k < (b.below k + 1) * b.denominator k := by
      rw [mul_comm _ (b.denominator k)]
      exact Nat.lt_mul_div_succ _ (b.denominator_pos k)
    rw [← not_le, (mul_numerator_le_iff b k _ _).2, not_le] at hlt
    exact_mod_cast hlt
  have hlower : (b.lower : ℚ) + 1 ≤ b.middle := by exact_mod_cast hpos
  have hupper : (b.middle : ℚ) < b.upper := by
    exact_mod_cast Nat.lt_add_of_pos_right (by norm_num)
  have hlow : b.lower * b.quarter < b.below k * 10 ^ k := by
    have := mul_le_mul_of_nonneg_right hlower hu.le
    linarith
  have hhigh : b.below k * 10 ^ k < b.upper * b.quarter := by
    have := mul_lt_mul_of_pos_right hupper hu
    linarith
  have hrounds := rounds_iff.2 ⟨⟨hlow.le, hhigh.le⟩, fun _ => ⟨hlow, hhigh⟩⟩
  have hzero : (b.below k != 0) = true := by
    rw [bne_iff_ne]
    intro hzero
    rw [hzero, Nat.cast_zero, zero_mul] at hlow
    have : 0 ≤ b.lower * b.quarter := by positivity
    linarith
  simp only [onGrid?, hrounds, hzero, Bool.and_true]
  cases b.rounds k (b.below k + 1)
  · exact ⟨_, rfl⟩
  · dsimp only
    split
    · exact ⟨_, rfl⟩
    · exact ⟨_, rfl⟩
    · cases tie <;> exact ⟨_, rfl⟩

/-! ## The search -/

/-- The search ends at the first grid with a hit. -/
theorem covers_of_search {tie : Tie} {steps : Nat}
    (h : ∃ j < steps, ∃ n, b.onGrid? tie (k - j) = some n) :
    b.Covers ((b.search tie steps k).digits * 10 ^ (b.search tie steps k).exponent) := by
  induction steps generalizing k with
  | zero =>
    obtain ⟨j, hj, -⟩ := h
    omega
  | succ steps ih =>
    rw [search]
    cases hgrid : b.onGrid? tie k with
    | some n => exact covers_of_onGrid? hgrid
    | none =>
      obtain ⟨_ | j, hj, n, hn⟩ := h
      · simp [hgrid] at hn
      · refine ih ⟨j, by omega, n, ?_⟩
        rw [← hn]
        congr 1
        push_cast
        ring

/-- Powers of ten and of two, compared by `10 ^ 3 < 2 ^ 10` and `2 ^ 93 < 10 ^ 28`. -/
theorem pow_ten_le {t s : Int} (hpos : 0 ≤ t → 10 * t ≤ 3 * s) (hneg : t < 0 → 93 * t ≤ 28 * s) :
    (10 : ℚ) ^ t ≤ 2 ^ s := by
  rcases lt_or_ge t 0 with ht | ht
  · obtain ⟨n, rfl⟩ : ∃ n : Nat, t = -n := ⟨t.natAbs, by omega⟩
    rw [← pow_le_pow_iff_left₀ (by positivity) (by positivity) (by norm_num : 28 ≠ 0)]
    calc ((10 : ℚ) ^ (-n : Int)) ^ 28 = ((10 ^ 28) ^ n)⁻¹ := by
          rw [zpow_neg, zpow_natCast, inv_pow, ← pow_mul, ← pow_mul, mul_comm]
      _ ≤ ((2 ^ 93) ^ n)⁻¹ := by
          apply inv_anti₀ (by positivity)
          exact pow_le_pow_left₀ (by norm_num) (by norm_num) n
      _ = 2 ^ (93 * -n : Int) := by
          rw [← pow_mul, mul_neg, zpow_neg, ← zpow_natCast]
          norm_cast
      _ ≤ 2 ^ (28 * s) := zpow_le_zpow_right₀ (by norm_num) (hneg ht)
      _ = (2 ^ s) ^ 28 := by
          rw [mul_comm, zpow_mul]
          norm_cast
  · obtain ⟨n, rfl⟩ := Int.eq_ofNat_of_zero_le ht
    rw [← pow_le_pow_iff_left₀ (by positivity) (by positivity) (by norm_num : 3 ≠ 0)]
    calc ((10 : ℚ) ^ (n : Int)) ^ 3 = (10 ^ 3) ^ n := by
          rw [zpow_natCast, ← pow_mul, ← pow_mul, mul_comm]
      _ ≤ (2 ^ 10) ^ n := pow_le_pow_left₀ (by norm_num) (by norm_num) n
      _ = 2 ^ (10 * n : Int) := by
          rw [← pow_mul, ← zpow_natCast]
          norm_cast
      _ ≤ 2 ^ (3 * s) := zpow_le_zpow_right₀ (by norm_num) (hpos ht)
      _ = (2 ^ s) ^ 3 := by
          rw [mul_comm, zpow_mul]
          norm_cast

/-- The last of twenty grids is finer than a quarter of the unit in the last place. -/
theorem topGrid_fine {m : Nat} {e : Int} (hm : 0 < m) (hgrid : OnGrid m e) :
    (10 : ℚ) ^ ((binary m e).topGrid - 19) ≤ (binary m e).quarter := by
  have hlog : m.log2 < 53 := (Nat.log2_lt hm.ne').2 hgrid.mantissa_lt
  have hge := hgrid.exponent_ge
  have hle := hgrid.exponent_le
  rw [quarter]
  apply pow_ten_le <;> simp only [topGrid, binary] <;> omega

/-- The digits of a float round to it. -/
theorem shortest_covers (tie : Tie) {m : Nat} {e : Int} (hm : 0 < m) (hgrid : OnGrid m e) :
    (binary m e).Covers
      (((binary m e).shortest tie).digits * 10 ^ ((binary m e).shortest tie).exponent) := by
  refine covers_of_search ⟨19, by norm_num, ?_⟩
  exact exists_onGrid? tie (lower_bounds hm e).2 (topGrid_fine hm hgrid)

end Piecework.Decimal.Binary
