import Piecework.Decimal.Shortest
import Piecework.Proofs.Expr.Agreement

/-!
# Floats by their parts

A float is a pattern of 64 bits: a sign, eleven bits of an exponent and 52 bits of a fraction.
Its parts are what the pattern stands for, for a finite float other than zero a sign, a mantissa
and an exponent.

* `Encodes` says which parts a pattern stands for.  Unpacking finds them (`encodes_unpack`) and
  packing gives the pattern back (`Encodes.pack_eq`).
* The parts that occur are the ones on the grid of the format (`Canonical`): the mantissa has at
  most 53 bits, and it has exactly that many unless the exponent is the smallest one.  Any such
  parts are those of a float (`parts_ofParts`), and a float is given by its parts
  (`ofParts_parts`).
* `parts_neg` is negation, and `classify_eq` says which of the writer's classes a float is in.
-/

namespace Piecework.Number

open Float.Model (UnpackedFloat Format)
open Float.Model.UnpackedFloat

/-- A mantissa with at most 53 bits, and exactly that many unless the exponent is the smallest
one. -/
structure Normalized (m : Nat) (e : Int) : Prop where
  mantissa_lt : m < 2 ^ 53
  exponent_ge : -1074 ≤ e
  full : 2 ^ 52 ≤ m ∨ e = -1074

/-- A mantissa and an exponent that a float can have. -/
structure OnGrid (m : Nat) (e : Int) : Prop extends Normalized m e where
  exponent_le : e ≤ 971

/-- Parts that a float can have. -/
def Canonical : UnpackedFloat → Prop
  | .finite _ m e _ => OnGrid m e
  | _ => True

/-! ## Patterns -/

/-- The pattern with this sign, exponent and fraction stands for these parts. -/
inductive Encodes : Sign → Nat → Nat → UnpackedFloat → Prop
  | infinity (s : Sign) : Encodes s 2047 0 (.infinity s)
  | notANumber (s : Sign) {f : Nat} : 0 < f → f < 2 ^ 52 → Encodes s 2047 f .notANumber
  | zero (s : Sign) : Encodes s 0 0 (.zero s)
  | subnormal (s : Sign) {f : Nat} (hf : 0 < f) : f < 2 ^ 52 →
      Encodes s 0 f (.finite s f (-1074) hf)
  | normal (s : Sign) {b f : Nat} (hm : 0 < 2 ^ 52 + f) : 0 < b → b < 2047 → f < 2 ^ 52 →
      Encodes s b f (.finite s (2 ^ 52 + f) (b - 1075) hm)

namespace Encodes

variable {s : Sign} {b f : Nat} {u v : UnpackedFloat}

/-- A pattern stands for one thing only. -/
theorem unique (h : Encodes s b f u) (h' : Encodes s b f v) : u = v := by
  cases h <;> cases h' <;> first | rfl | omega

theorem canonical (h : Encodes s b f u) : Canonical u := by
  cases h with
  | infinity | notANumber | zero => trivial
  | subnormal _ hlt => exact ⟨⟨by omega, by omega, .inr rfl⟩, by omega⟩
  | normal _ hb hb' hf => exact ⟨⟨by omega, by omega, .inl (by omega)⟩, by omega⟩

end Encodes

theorem Canonical.encodes {u : UnpackedFloat} (h : Canonical u) : ∃ s b f, Encodes s b f u := by
  cases u with
  | infinity s => exact ⟨s, _, _, .infinity s⟩
  | notANumber => exact ⟨.positive, 2047, 1, .notANumber _ (by omega) (by omega)⟩
  | zero s => exact ⟨s, _, _, .zero s⟩
  | finite s m e hm =>
    obtain ⟨⟨hlt, hge, hfull⟩, hle⟩ := h
    by_cases hsub : m < 2 ^ 52
    · obtain rfl : e = -1074 := hfull.resolve_left (by omega)
      exact ⟨s, 0, m, .subnormal s hm hsub⟩
    · have hfraction : 2 ^ 52 + (m - 2 ^ 52) = m := by omega
      have hexponent : (((e + 1075).toNat : Nat) : Int) - 1075 = e := by omega
      have hnormal := Encodes.normal s (b := (e + 1075).toNat) (f := m - 2 ^ 52) (by omega)
        (by omega) (by omega) (by omega)
      simp only [hfraction, hexponent] at hnormal
      exact ⟨s, _, _, hnormal⟩

/-! ## Bits -/

theorem toNat_implicit_append (y : BitVec 52) : (1#1 ++ y).toNat = 2 ^ 52 + y.toNat := by
  rw [BitVec.toNat_append, ← Nat.shiftLeft_add_eq_or_of_lt y.isLt]
  rfl

theorem encodes_unpack (x : BitVec Format.binary64.numBits) :
    Encodes (Sign.ofBitVec (unpackSign x)) (unpackExponent x).toNat (unpackMantissa x).toNat
      (unpack Format.binary64 x) := by
  have hexponent : (unpackExponent x).toNat < 2048 := (unpackExponent x).isLt
  have hfraction : (unpackMantissa x).toNat < 2 ^ 52 := (unpackMantissa x).isLt
  have hbias : (Format.binary64.exponentBias : Int) = 1023 := rfl
  have hwidth : (Format.binary64.mantissaBitsWithoutImplicit : Int) = 52 := rfl
  rw [unpack]
  split_ifs with htop hzero hbottom hzero
  · rw [htop, hzero]
    exact .infinity _
  · rw [htop]
    refine .notANumber _ ?_ hfraction
    rw [Nat.pos_iff_ne_zero]
    exact fun h => hzero (BitVec.toNat_inj.1 h)
  · rw [hbottom, hzero]
    exact .zero _
  · rw [hbottom]
    exact .subnormal _ _ hfraction
  · have hb : (unpackExponent x).toNat ≠ 0 := fun h => hbottom (BitVec.toNat_inj.1 h)
    have hb' : (unpackExponent x).toNat ≠ 2047 := fun h => htop (BitVec.toNat_inj.1 h)
    have hmantissa := toNat_implicit_append (unpackMantissa x)
    simp only [hmantissa, hbias, hwidth]
    exact .normal _ _ (by omega) (by omega) hfraction

theorem Encodes.pack_eq {s : Sign} {b f : Nat} {u : UnpackedFloat} (h : Encodes s b f u)
    (hnumber : u.isNaN = false) :
    pack Format.binary64 u =
      packComponents Format.binary64 s (BitVec.ofNat _ b) (BitVec.ofNat _ f) := by
  have hbias : (Format.binary64.exponentBias : Int) = 1023 := rfl
  have hwidth : (Format.binary64.mantissaBitsWithoutImplicit : Int) = 52 := rfl
  have hbits : Format.binary64.mantissaBits = 53 := rfl
  cases h with
  | infinity | zero => rfl
  | notANumber => cases hnumber
  | subnormal hpos hlt =>
    have hlog : f.log2 < 52 := (Nat.log2_lt (by omega)).2 hlt
    simp only [pack, hbias, hwidth, hbits]
    rw [if_neg (by decide), if_neg (by omega)]
  | normal _ hb hb' hf =>
    have hlog : (2 ^ 52 + f).log2 = 52 := (Nat.log2_eq_iff (by omega)).2 (by omega)
    have hexponent : ((b : Int) - 1075 + 1023 + 52).toNat = b := by omega
    simp only [pack, hbias, hwidth, hbits, hexponent, hlog]
    rw [if_neg (by omega), if_pos trivial]
    congr 1
    rw [← BitVec.toNat_inj]
    simp

/-! ## Parts and floats -/

theorem parts_canonical (a : Float) : Canonical (parts a) :=
  (encodes_unpack a.toModel.toBits.toBitVec).canonical

/-- Any parts on the grid are those of a float. -/
theorem parts_ofParts {u : UnpackedFloat} (h : Canonical u) : parts (ofParts u) = u := by
  change unpack Format.binary64 (pack Format.binary64 u) = u
  cases hnumber : u.isNaN with
  | true =>
    cases u with
    | notANumber => rfl
    | _ => cases hnumber
  | false =>
    obtain ⟨s, b, f, hu⟩ := h.encodes
    have hunpacked := encodes_unpack (pack Format.binary64 u)
    have hbounds : b < 2 ^ 11 ∧ f < 2 ^ 52 := by
      cases hu <;> omega
    rw [hu.pack_eq hnumber] at hunpacked ⊢
    simp only [unpackSign_packComponents, Sign.ofBitVec_toBitVec, unpackExponent_packComponents,
      unpackMantissa_packComponents, BitVec.toNat_ofNat] at hunpacked
    rw [Nat.mod_eq_of_lt hbounds.1, Nat.mod_eq_of_lt hbounds.2] at hunpacked
    exact hunpacked.unique hu

/-- A float is given by its parts. -/
theorem ofParts_parts (a : Float) : ofParts (parts a) = a := by
  obtain ⟨⟨bits, hvalid⟩⟩ := a
  have hpack := pack_unpack_of_valid hvalid
  simp only [ofParts, parts, Float.Model.pack, Float.Model.unpack, hpack]

/-- An exponent that is too large makes an infinity. -/
theorem isFinite_ofParts_of_gt {s : Sign} {m : Nat} {e : Int} (hm : 0 < m) (he : 971 < e) :
    (ofParts (.finite s m e hm)).isFinite = false := by
  have hbias : (Format.binary64.exponentBias : Int) = 1023 := rfl
  have hwidth : (Format.binary64.mantissaBitsWithoutImplicit : Int) = 52 := rfl
  have hpack : pack Format.binary64 (.finite s m e hm) = pack Format.binary64 (.infinity s) := by
    simp only [pack, hbias, hwidth]
    rw [if_pos (by omega)]
  have hparts : parts (ofParts (.finite s m e hm)) = parts (ofParts (.infinity s)) := by
    change unpack _ (pack _ _) = unpack _ (pack _ _)
    rw [hpack]
  rw [isFinite_eq, hparts, parts_ofParts (u := .infinity s) trivial]
  rfl

/-- Floats with the same parts are equal. -/
theorem parts_injective {a b : Float} (h : parts a = parts b) : a = b := by
  rw [← ofParts_parts a, h, ofParts_parts]

theorem Canonical.neg {u : UnpackedFloat} (h : Canonical u) : Canonical u.neg := by
  cases u <;> exact h

@[simp]
theorem parts_neg (a : Float) : parts (-a) = (parts a).neg :=
  parts_ofParts (parts_canonical a).neg

/-- The binary number with this mantissa and exponent. -/
def binary (m : Nat) (e : Int) : Decimal.Binary := ⟨m, e, m = 2 ^ 52 && -1074 < e⟩

/-- The class of a float with these parts. -/
def classOf : UnpackedFloat → Decimal.Class
  | .notANumber => .nan
  | .infinity s => .infinite (s == .negative)
  | .zero s => .zero (s == .negative)
  | .finite s m e _ => .finite (s == .negative) (binary m e)

theorem Encodes.classOf_eq {s : Sign} {b f : Nat} {u : UnpackedFloat} (h : Encodes s b f u) :
    classOf u =
      if b = 2047 then
        if f = 0 then .infinite (s == .negative) else .nan
      else if b = 0 then
        if f = 0 then .zero (s == .negative) else .finite (s == .negative) ⟨f, -1074, false⟩
      else
        .finite (s == .negative) ⟨2 ^ 52 + f, (b : Int) - 1075, f = 0 && 1 < b⟩ := by
  cases h with
  | infinity | zero => rfl
  | notANumber hpos _ => simp [classOf, Nat.pos_iff_ne_zero.1 hpos]
  | subnormal hpos hlt => simp [classOf, binary, Nat.pos_iff_ne_zero.1 hpos]
  | normal _ hb hb' hf =>
    rw [if_neg (by omega), if_neg (by omega)]
    have hnarrow : -1074 < (b : Int) - 1075 ↔ 1 < b := by omega
    simp [classOf, binary, hnarrow]

theorem toNat_unpackExponent (x : BitVec Format.binary64.numBits) :
    (unpackExponent x).toNat = x.toNat / 2 ^ 52 % 2 ^ 11 := by
  simp [unpackExponent, Nat.shiftRight_eq_div_pow]

theorem toNat_unpackMantissa (x : BitVec Format.binary64.numBits) :
    (unpackMantissa x).toNat = x.toNat % 2 ^ 52 := by
  simp [unpackMantissa]

theorem unpackSign_negative_iff (x : BitVec Format.binary64.numBits) :
    (Sign.ofBitVec (unpackSign x) == .negative) = decide (2 ^ 63 ≤ x.toNat) := by
  have hx : x.toNat < 2 ^ 64 := x.isLt
  have hsign : (unpackSign x).toNat = x.toNat / 2 ^ 63 := by
    simp only [unpackSign, BitVec.toNat_cast, BitVec.extractLsb_toNat, Nat.shiftRight_eq_div_pow]
    simp
    omega
  by_cases hnegative : 2 ^ 63 ≤ x.toNat
  · have hone : unpackSign x = 1#1 := BitVec.toNat_inj.1 (by rw [hsign]; simp; omega)
    rw [hone, decide_eq_true hnegative]
    rfl
  · have hzero : unpackSign x = 0#1 := BitVec.toNat_inj.1 (by rw [hsign]; simp; omega)
    rw [hzero, decide_eq_false hnegative]
    rfl

theorem classify_eq (a : Float) : Decimal.classify a = classOf (parts a) := by
  have hu := encodes_unpack a.toModel.toBits.toBitVec
  rw [toNat_unpackExponent, toNat_unpackMantissa] at hu
  change _ = classOf (unpack Format.binary64 a.toModel.toBits.toBitVec)
  rw [hu.classOf_eq, unpackSign_negative_iff]
  rfl

end Piecework.Number
