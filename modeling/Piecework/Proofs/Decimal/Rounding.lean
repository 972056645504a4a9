import Piecework.Proofs.Decimal.Interval

/-!
# Rounding

Products and quotients of floats are rounded: the exact value is cut off behind the bits of the
mantissa, two more bits keep what is needed of the rest, and the mantissa goes up by one or
stays.  That this gives what the exact value rounds to has three parts.

* A mantissa with its two further bits describes a number (`Describes`).  A shift keeps this,
  and the rounded mantissa is nearest to the number.
* The first shift leaves as many bits as the format has, and the second one mends a carry
  (`shiftToTargetExponent_eq` and the two lemmas behind it).
* `roundWithAccuracy_rounds` puts this together, and `mul_rounds` and `div_rounds` say it for
  the two operations.
-/

namespace Piecework.Number

open Decimal (Binary)
open Float.Model (UnpackedFloat Format totalExponent)
open Float.Model.UnpackedFloat

/-! ## Mantissas with further bits -/

/-- What a mantissa with its two further bits stands for. -/
def Describes (em : ExtendedMantissa) (x : ℚ) : Prop :=
  match em.roundBit, em.stickyBit with
  | false, false => x = em.mantissa
  | false, true => em.mantissa < x ∧ x < em.mantissa + 1 / 2
  | true, false => x = em.mantissa + 1 / 2
  | true, true => em.mantissa + 1 / 2 < x ∧ x < em.mantissa + 1

namespace Describes

variable {em : ExtendedMantissa} {x : ℚ}

theorem bounds (h : Describes em x) : em.mantissa ≤ x ∧ x < em.mantissa + 1 := by
  rcases em with ⟨m, _ | _, _ | _⟩ <;> simp only [Describes] at h ⊢ <;>
    constructor <;> linarith

theorem shiftRightOne (h : Describes em x) : Describes em.shiftRightOne (x / 2) := by
  rcases em with ⟨m, r, s⟩
  have hm : (m : ℚ) = 2 * (m / 2 : Nat) + (m % 2 : Nat) := by
    exact_mod_cast (Nat.div_add_mod m 2).symm
  rcases Nat.mod_two_eq_zero_or_one m with hparity | hparity <;> rw [hparity] at hm <;>
    cases r <;> cases s <;>
    simp [Describes, ExtendedMantissa.shiftRightOne, hparity] at h ⊢ <;>
    push_cast at hm <;> first | linarith | (constructor <;> linarith)

theorem shiftRight (h : Describes em x) (n : Nat) : Describes (em >>> n) (x / 2 ^ n) := by
  change Describes (n.repeat ExtendedMantissa.shiftRightOne em) _
  induction n with
  | zero => simpa [Nat.repeat] using h
  | succ n ih =>
    rw [Nat.repeat, pow_succ, ← div_div]
    exact ih.shiftRightOne

/-- Rounding gives the nearest natural number. -/
theorem isNearest (h : Describes em x) : IsNearest em.roundedMantissa x := by
  rcases em with ⟨m, r, s⟩
  cases r <;> cases s <;>
    simp only [Describes, ExtendedMantissa.roundedMantissa, ExtendedMantissa.accuracy,
      Accuracy.roundToNearestEven] at h ⊢
  · exact ⟨⟨by linarith, by linarith⟩, fun _ => ⟨by linarith, by linarith⟩⟩
  · exact ⟨⟨by linarith, by linarith⟩, fun _ => ⟨by linarith, by linarith⟩⟩
  · -- a tie goes to the even one of two neighbours
    refine ⟨?_, fun hodd => by omega⟩
    rcases Nat.mod_two_eq_zero_or_one m with hparity | hparity <;> rw [hparity] <;>
      push_cast <;> constructor <;> linarith
  · rw [IsNearest, Nat.cast_add_one]
    exact ⟨⟨by linarith, by linarith⟩, fun _ => ⟨by linarith, by linarith⟩⟩

end Describes

theorem shiftRight_mantissa (em : ExtendedMantissa) (n : Nat) :
    (em >>> n).mantissa = em.mantissa / 2 ^ n := by
  change (n.repeat ExtendedMantissa.shiftRightOne em).mantissa = _
  induction n with
  | zero => simp [Nat.repeat]
  | succ n ih =>
    rw [Nat.repeat, ExtendedMantissa.shiftRightOne, ih, Nat.div_div_eq_div_mul, pow_succ]

/-! ## Shifts -/

variable {m : Nat} {e : Int}

theorem targetExponent_eq (m : Nat) (e : Int) :
    Format.binary64.targetExponent (totalExponent m e) = max (m.log2 + e - 52) (-1074) := by
  change max ((m.log2 : Int) + 1 + e - 53) (-1074) = _
  congr 1
  ring

/-- Shifting reaches the exponent of the format: the mantissa in front of the point has at most
53 bits, and all of them unless the exponent is the smallest one. -/
theorem shiftToTargetExponent_eq (accuracy : Accuracy) (hfine : 52 ≤ m.log2 ∨ e ≤ -1074) :
    ∃ k : Nat, shiftToTargetExponent Format.binary64 m e accuracy =
        (ExtendedMantissa.ofMantissaAndAccuracy m accuracy >>> k, e + k) ∧
      -1074 ≤ e + k ∧ m / 2 ^ k < 2 ^ 53 ∧ (2 ^ 52 ≤ m / 2 ^ k ∨ e + k = -1074) := by
  refine ⟨(max (m.log2 + e - 52) (-1074) - e).toNat, ?_, ?_, ?_, ?_⟩
  · rw [shiftToTargetExponent, targetExponent_eq, shiftToExponent]
  · omega
  · rw [Nat.div_lt_iff_lt_mul (by positivity), ← pow_add]
    exact Nat.lt_log2_self.trans_le (Nat.pow_le_pow_right (by omega) (by omega))
  · by_cases hbottom : (m.log2 : Int) + e - 52 ≤ -1074
    · right
      omega
    · left
      have hm : m ≠ 0 := by
        rintro rfl
        have hlog : Nat.log2 0 = 0 := Nat.log2_zero
        omega
      rw [Nat.le_div_iff_mul_le (by positivity), ← pow_add]
      exact (Nat.pow_le_pow_right (by omega) (by omega)).trans (Nat.log2_self_le hm)

theorem shiftToTargetExponent_of_lt (hm : m < 2 ^ 53) (he : -1074 ≤ e) :
    shiftToTargetExponent Format.binary64 m e .exact = (⟨m, false, false⟩, e) := by
  have hlog : m.log2 ≤ 52 := by
    by_cases hzero : m = 0
    · simp [hzero]
    · have := (Nat.log2_lt hzero).2 hm
      omega
  have hnone : (max (m.log2 + e - 52) (-1074) - e).toNat = 0 := by omega
  rw [shiftToTargetExponent, targetExponent_eq, shiftToExponent, hnone]
  simp [ExtendedMantissa.ofMantissaAndAccuracy, HShiftRight.hShiftRight, Nat.repeat]

theorem shiftToTargetExponent_carry (he : -1074 ≤ e) :
    shiftToTargetExponent Format.binary64 (2 ^ 53) e .exact = (⟨2 ^ 52, false, false⟩, e + 1) := by
  have hone : (max (((2 ^ 53 : Nat).log2 : Int) + e - 52) (-1074) - e).toNat = 1 := by
    rw [Nat.log2_two_pow]
    omega
  rw [shiftToTargetExponent, targetExponent_eq, shiftToExponent, hone]
  rfl

/-! ## The algorithm -/

/-- A number with at most 53 bits in front of the point, and all of them unless its exponent is
the smallest one, rounds to the nearest mantissa, if this has no more bits. -/
theorem rounds_of_isNearest (s : Sign) {n f : Nat} {y : ℚ} {t : Int} (hnear : IsNearest n y)
    (hbounds : f ≤ y ∧ y < f + 1) (hlt : n < 2 ^ 53) (hgrid : -1074 ≤ t)
    (hfull : 2 ^ 52 ≤ f ∨ t = -1074) :
    Rounds s (y * 2 ^ t)
      (if h : n = 0 then .zero s else .finite s n t (Nat.pos_of_ne_zero h)) := by
  have hfloor : 2 ^ 52 ≤ f → (2 : ℚ) ^ 52 ≤ y := fun h => by
    have : (2 : ℚ) ^ 52 ≤ f := by exact_mod_cast h
    linarith
  split_ifs with hzero
  · -- nothing is left of the number: it is at most half of the smallest one
    rw [hzero] at hnear
    have hy : y ≤ 1 / 2 := by simpa using hnear.1.2
    have hbottom : t = -1074 := by
      refine hfull.resolve_left fun h => ?_
      linarith [hfloor h]
    apply Rounds.zero
    rw [hbottom]
    calc y * 2 ^ (-1074 : Int) ≤ 1 / 2 * 2 ^ (-1074 : Int) :=
          mul_le_mul_of_nonneg_right hy (by positivity)
      _ = 2 ^ (-1075 : Int) := by
          rw [one_div, ← zpow_neg_one, ← zpow_add₀ (by norm_num)]
          norm_num
  · have hpos := Nat.pos_of_ne_zero hzero
    have hnormal : 2 ^ 52 ≤ n ∨ t = -1074 := by
      refine hfull.imp_left fun h => ?_
      have : (2 : ℚ) ^ 52 < n + 1 := by linarith [hfloor h, hnear.1.2]
      norm_cast at this
      omega
    refine .finite hpos ⟨hlt, hgrid, hnormal⟩ (Binary.covers_of_isNearest hpos hnear ?_)
    intro hpower ht
    rw [hpower]
    exact_mod_cast hfloor (hfull.resolve_right (by omega))

/-- What the algorithm gives is what the number rounds to. -/
theorem roundWithAccuracy_rounds (s : Sign) {accuracy : Accuracy} {x : ℚ}
    (hx : Describes (ExtendedMantissa.ofMantissaAndAccuracy m accuracy) x)
    (hfine : 52 ≤ m.log2 ∨ e ≤ -1074) :
    Rounds s (x * 2 ^ e) (roundWithAccuracy Format.binary64 s m e accuracy) := by
  obtain ⟨k, hshift, hgrid, hlt, hfull⟩ := shiftToTargetExponent_eq accuracy hfine
  have hmantissa :
      (ExtendedMantissa.ofMantissaAndAccuracy m accuracy >>> k).mantissa = m / 2 ^ k := by
    rw [shiftRight_mantissa]
    rcases accuracy with _ | _ | _ | _ <;> rfl
  have hcut := hx.shiftRight k
  have hnear := hcut.isNearest
  have hbounds := hcut.bounds
  rw [hmantissa] at hbounds
  have hscale : x * 2 ^ e = x / 2 ^ k * 2 ^ (e + k) := by
    rw [zpow_add₀ (by norm_num), zpow_natCast]
    field_simp
  rw [hscale, roundWithAccuracy, hshift]
  generalize ExtendedMantissa.ofMantissaAndAccuracy m accuracy >>> k = em at hnear
  have hsmall : x / 2 ^ k < 2 ^ 53 := by
    have : ((m / 2 ^ k : Nat) : ℚ) + 1 ≤ 2 ^ 53 := by exact_mod_cast hlt
    linarith
  have hrounded : em.roundedMantissa ≤ 2 ^ 53 := by
    have : (em.roundedMantissa : ℚ) < 2 ^ 53 + 1 := by linarith [hnear.1.1]
    norm_cast at this
    omega
  dsimp only
  rcases hrounded.lt_or_eq with hbits | hcarry
  · rw [shiftToTargetExponent_of_lt hbits hgrid]
    exact rounds_of_isNearest s hnear hbounds hbits hgrid hfull
  · rw [hcarry] at hnear
    rw [hcarry, shiftToTargetExponent_carry hgrid]
    dsimp only
    rw [dif_neg (by norm_num)]
    exact .finite _ ⟨by norm_num, by omega, .inl (le_refl _)⟩
      (Binary.covers_of_carry hgrid hnear hsmall)

/-! ## Products and quotients -/

variable {m₁ m₂ : Nat} {e₁ e₂ : Int}

theorem mul_rounds (s₁ s₂ : Sign) (h₁ : 0 < m₁) (h₂ : 0 < m₂)
    (hfine : 52 ≤ (m₁ * m₂).log2 ∨ e₁ + e₂ ≤ -1074) :
    Rounds (s₁ * s₂) (m₁ * 2 ^ e₁ * (m₂ * 2 ^ e₂))
      (mul Format.binary64 (.finite s₁ m₁ e₁ h₁) (.finite s₂ m₂ e₂ h₂)) := by
  have hscale : (m₁ * 2 ^ e₁ * (m₂ * 2 ^ e₂) : ℚ) = (m₁ * m₂ : Nat) * 2 ^ (e₁ + e₂) := by
    rw [zpow_add₀ (by norm_num)]
    push_cast
    ring
  rw [hscale]
  exact roundWithAccuracy_rounds _ (show Describes ⟨_, false, false⟩ _ from rfl) hfine

/-- The remainder of a division tells the further bits of the quotient. -/
theorem describes_div (m : Nat) {d : Nat} (hd : 0 < d) :
    Describes (ExtendedMantissa.ofMantissaAndAccuracy (m / d) (accuracyOfFraction (m % d) d))
      (m / d) := by
  have hpos : (0 : ℚ) < d := by exact_mod_cast hd
  have hm : (m : ℚ) = d * (m / d : Nat) + (m % d : Nat) := by
    exact_mod_cast (Nat.div_add_mod m d).symm
  have hx : (m / d : ℚ) = (m / d : Nat) + (m % d : Nat) / d := by
    rw [hm, add_div, mul_div_cancel_left₀ _ hpos.ne']
  have hlt : ((m % d : Nat) : ℚ) / d < 1 := by
    rw [div_lt_one₀ hpos]
    exact_mod_cast Nat.mod_lt m hd
  rw [hx, accuracyOfFraction]
  generalize m % d = r at hlt ⊢
  split_ifs with hzero
  · simp [hzero, ExtendedMantissa.ofMantissaAndAccuracy, Describes]
  have hr : (0 : ℚ) < r / d := div_pos (by exact_mod_cast Nat.pos_of_ne_zero hzero) hpos
  cases hcompare : compare (2 * r) d with
  | lt =>
    have hhalf : (r : ℚ) / d < 1 / 2 := by
      rw [div_lt_div_iff₀ hpos (by norm_num)]
      have : 2 * r < d := Nat.compare_eq_lt.1 hcompare
      exact_mod_cast (by omega : r * 2 < 1 * d)
    simp only [ExtendedMantissa.ofMantissaAndAccuracy, Describes]
    constructor <;> linarith
  | eq =>
    have hhalf : (r : ℚ) / d = 1 / 2 := by
      rw [div_eq_div_iff hpos.ne' (by norm_num)]
      have : 2 * r = d := Nat.compare_eq_eq.1 hcompare
      exact_mod_cast (by omega : r * 2 = 1 * d)
    exact congrArg _ hhalf
  | gt =>
    have hhalf : 1 / 2 < (r : ℚ) / d := by
      rw [div_lt_div_iff₀ (by norm_num) hpos]
      have : d < 2 * r := Nat.compare_eq_gt.1 hcompare
      exact_mod_cast (by omega : 1 * d < r * 2)
    simp only [ExtendedMantissa.ofMantissaAndAccuracy, Describes]
    constructor <;> linarith

/-- The quotient has enough bits for the format. -/
theorem divCore_eq (h₁ : 0 < m₁) (h₂ : 0 < m₂) (e₁ e₂ : Int) :
    ∃ k : Nat, divCore Format.binary64 m₁ e₁ m₂ e₂ =
        (m₁ * 2 ^ k / m₂, e₁ - e₂ - k, accuracyOfFraction (m₁ * 2 ^ k % m₂) m₂) ∧
      (52 ≤ (m₁ * 2 ^ k / m₂).log2 ∨ e₁ - e₂ - k ≤ -1074) := by
  have htarget : Format.binary64.targetExponent (totalExponent m₁ e₁ - totalExponent m₂ e₂) =
      max (m₁.log2 - m₂.log2 + e₁ - e₂ - 53) (-1074) := by
    change max ((m₁.log2 : Int) + 1 + e₁ - (m₂.log2 + 1 + e₂) - 53) (-1074) = _
    congr 1
    ring
  refine ⟨(e₁ - e₂ - min (e₁ - e₂) (max (m₁.log2 - m₂.log2 + e₁ - e₂ - 53) (-1074))).toNat, ?_, ?_⟩
  · rw [divCore, htarget]
    simp only [Nat.shiftLeft_eq]
    congr 2
    omega
  · generalize hk : (e₁ - e₂ - min (e₁ - e₂) (max (m₁.log2 - m₂.log2 + e₁ - e₂ - 53) (-1074))).toNat
      = k
    by_cases hbottom : e₁ - e₂ - k ≤ -1074
    · exact .inr hbottom
    · left
      have hbits : 52 + (m₂.log2 + 1) ≤ m₁.log2 + k := by omega
      have hquotient : 2 ^ 52 ≤ m₁ * 2 ^ k / m₂ := by
        rw [Nat.le_div_iff_mul_le h₂]
        calc 2 ^ 52 * m₂ ≤ 2 ^ 52 * 2 ^ (m₂.log2 + 1) :=
              Nat.mul_le_mul_left _ Nat.lt_log2_self.le
          _ = 2 ^ (52 + (m₂.log2 + 1)) := (pow_add ..).symm
          _ ≤ 2 ^ (m₁.log2 + k) := Nat.pow_le_pow_right (by omega) hbits
          _ = 2 ^ m₁.log2 * 2 ^ k := pow_add ..
          _ ≤ m₁ * 2 ^ k := Nat.mul_le_mul_right _ (Nat.log2_self_le h₁.ne')
      exact (Nat.le_log2 (by omega)).2 hquotient

theorem div_rounds (s₁ s₂ : Sign) (h₁ : 0 < m₁) (h₂ : 0 < m₂) :
    Rounds (s₁ / s₂) (m₁ * 2 ^ e₁ / (m₂ * 2 ^ e₂))
      (div Format.binary64 (.finite s₁ m₁ e₁ h₁) (.finite s₂ m₂ e₂ h₂)) := by
  obtain ⟨k, hcore, hfine⟩ := divCore_eq h₁ h₂ e₁ e₂
  have hscale : (m₁ * 2 ^ e₁ / (m₂ * 2 ^ e₂) : ℚ) =
      (m₁ * 2 ^ k : Nat) / m₂ * 2 ^ (e₁ - e₂ - k) := by
    rw [zpow_sub₀ (by norm_num), zpow_sub₀ (by norm_num), zpow_natCast]
    push_cast
    field_simp
  rw [hscale]
  simp only [div, hcore]
  exact roundWithAccuracy_rounds _ (describes_div _ h₂) hfine

end Piecework.Number
