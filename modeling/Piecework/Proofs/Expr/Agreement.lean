import Mathlib
import Piecework.Store.Row

/-!
# Numbers that agree

Two floats agree when they are equal as numbers: the two zeros agree, and a value
that is not a number agrees with nothing, itself included.  A column of floats keeps
a number only up to agreement, so everything that is said of results is said up to
agreement.

There are four groups.

* Agreement itself.  `beq_iff` says in terms of unpacked floats when two floats agree,
  and `beq_symm` and `beq_trans` follow from it.
* The operators.  `onFloats_alike` compares the four float operations on agreeing
  operands, and `apply_congr` lifts this to their values and errors.  Nothing finite comes of
  an operand that is no number, so `apply_kin` compares such operands, too.
* Negation.  `isFinite_neg` looks at the exponent in the bits, which a change of the
  sign leaves alone.
* The columns.  `columnFloat_agrees` says what a column keeps of a number.
-/

namespace Piecework.Number

open Float.Model (UnpackedFloat Format)
open Float.Model.UnpackedFloat (Sign unpackExponent)

/-! ## Agreement -/

/-- The sign, the size and the kind of a float. -/
def parts (a : Float) : UnpackedFloat := a.toModel.unpack

/-- One of the two zeros. -/
def IsZero (u : UnpackedFloat) : Prop := ∃ s, u = .zero s

/-- What it takes for two unpacked floats to be the same number. -/
def Same (u v : UnpackedFloat) : Prop :=
  (IsZero u ∧ IsZero v) ∨ (u = v ∧ u.isNaN = false)

theorem compare_sign_eq_iff (s t : Sign) : compare s t = .eq ↔ s = t := by
  cases s <;> cases t <;> simp [compare]

theorem compare_eq_iff (u v : UnpackedFloat) : u.compare v = some .eq ↔ Same u v := by
  cases u with
  | notANumber => simp [UnpackedFloat.compare, Same, IsZero, UnpackedFloat.isNaN]
  | infinity s =>
    cases v with
    | notANumber => cases s <;> simp [UnpackedFloat.compare, Same, IsZero]
    | infinity t =>
      simp [UnpackedFloat.compare, Same, IsZero, compare_sign_eq_iff, UnpackedFloat.isNaN]
    | zero t => cases s <;> simp [UnpackedFloat.compare, Same, IsZero]
    | finite t m e h => cases s <;> simp [UnpackedFloat.compare, Same, IsZero]
  | zero s =>
    cases v with
    | notANumber => simp [UnpackedFloat.compare, Same, IsZero]
    | infinity t => cases t <;> simp [UnpackedFloat.compare, Same, IsZero]
    | zero t => simp [UnpackedFloat.compare, Same, IsZero]
    | finite t m e h => cases t <;> simp [UnpackedFloat.compare, Same, IsZero]
  | finite s m e h =>
    cases v with
    | notANumber => cases s <;> simp [UnpackedFloat.compare, Same, IsZero]
    | infinity t => cases s <;> cases t <;> simp [UnpackedFloat.compare, Same, IsZero]
    | zero t => cases s <;> simp [UnpackedFloat.compare, Same, IsZero]
    | finite t m' e' h' =>
      cases s <;> cases t <;>
        simp [UnpackedFloat.compare, Same, IsZero, UnpackedFloat.isNaN, and_comm,
          Ordering.then_eq_eq]

/-- Floats agree when their parts are the same number. -/
theorem beq_iff (a b : Float) : (a == b) = true ↔ Same (parts a) (parts b) := by
  rw [← compare_eq_iff]
  exact beq_iff_eq (a := (parts a).compare (parts b)) (b := some .eq)

theorem isNaN_eq (a : Float) : a.isNaN = (parts a).isNaN := rfl

theorem isFinite_eq (a : Float) : a.isFinite = (parts a).isFinite := rfl

theorem Same.symm {u v : UnpackedFloat} (h : Same u v) : Same v u := by
  rcases h with ⟨hu, hv⟩ | ⟨rfl, hn⟩
  · exact .inl ⟨hv, hu⟩
  · exact .inr ⟨rfl, hn⟩

theorem Same.trans {u v w : UnpackedFloat} (h : Same u v) (h' : Same v w) : Same u w := by
  rcases h with ⟨hu, hv⟩ | ⟨rfl, -⟩
  · rcases h' with ⟨-, hw⟩ | ⟨rfl, -⟩
    · exact .inl ⟨hu, hw⟩
    · exact .inl ⟨hu, hv⟩
  · exact h'

theorem beq_symm {a b : Float} (h : (a == b) = true) : (b == a) = true := by
  rw [beq_iff] at h ⊢
  exact h.symm

theorem beq_trans {a b c : Float} (h : (a == b) = true) (h' : (b == c) = true) :
    (a == c) = true := by
  rw [beq_iff] at h h' ⊢
  exact h.trans h'

/-- A number agrees with itself, and nothing else does. -/
theorem beq_self_iff (a : Float) : (a == a) = true ↔ a.isNaN = false := by
  rw [beq_iff, isNaN_eq, Same]
  constructor
  · rintro (⟨⟨s, hs⟩, -⟩ | ⟨-, h⟩)
    · rw [hs]
      rfl
    · exact h
  · exact fun h => .inr ⟨rfl, h⟩

theorem isNaN_of_isFinite {a : Float} (h : a.isFinite = true) : a.isNaN = false := by
  rw [isFinite_eq] at h
  rw [isNaN_eq]
  cases hp : parts a <;> simp_all [UnpackedFloat.isFinite, UnpackedFloat.isNaN]

theorem isNaN_of_beq {a b : Float} (h : (a == b) = true) : a.isNaN = false :=
  (beq_self_iff a).1 (beq_trans h (beq_symm h))

theorem beq_of_isFinite {a : Float} (h : a.isFinite = true) : (a == a) = true :=
  (beq_self_iff a).2 (isNaN_of_isFinite h)

/-- Agreeing floats agree with the same floats. -/
theorem beq_congr_left {a b : Float} (h : (a == b) = true) (c : Float) : (a == c) = (b == c) := by
  rw [Bool.eq_iff_iff]
  exact ⟨beq_trans (beq_symm h), beq_trans h⟩

/-! ## Operators -/

/-- The float with given parts, as an operation returns it. -/
def ofParts (u : UnpackedFloat) : Float := .ofModel (.pack u)

/-- Results of an operation that agree whenever one of them is a number. -/
def Alike (a b : Float) : Prop :=
  a = b ∨ ∃ s t, a = ofParts (.zero s) ∧ b = ofParts (.zero t)

theorem alike_of_parts {u v : UnpackedFloat} (h : u = v ∨ (IsZero u ∧ IsZero v)) :
    Alike (ofParts u) (ofParts v) := by
  rcases h with rfl | ⟨⟨s, rfl⟩, t, rfl⟩
  · exact .inl rfl
  · exact .inr ⟨s, t, rfl, rfl⟩

theorem Alike.isFinite_eq {a b : Float} (h : Alike a b) : a.isFinite = b.isFinite := by
  rcases h with rfl | ⟨s, t, rfl, rfl⟩
  · rfl
  · cases s <;> cases t <;> decide

theorem Alike.beq {a b : Float} (h : Alike a b) (hf : a.isFinite = true) : (a == b) = true := by
  rcases h with rfl | ⟨s, t, rfl, rfl⟩
  · exact beq_of_isFinite hf
  · cases s <;> cases t <;> decide

theorem parts_zero : parts 0 = .zero .positive := rfl

/-- A float that agrees with zero is one of the zeros. -/
theorem beq_zero_iff (b : Float) : (b == 0) = true ↔ IsZero (parts b) := by
  rw [beq_iff, parts_zero, Same]
  constructor
  · rintro (⟨h, -⟩ | ⟨h, -⟩)
    · exact h
    · exact ⟨_, h⟩
  · exact fun h => .inl ⟨h, _, rfl⟩

/-- An operation on floats, on their parts. -/
def onParts : Operator → UnpackedFloat → UnpackedFloat → UnpackedFloat
  | .add => UnpackedFloat.add .binary64
  | .sub => UnpackedFloat.sub .binary64
  | .mul => UnpackedFloat.mul .binary64
  | .div => UnpackedFloat.div .binary64

theorem onFloats_eq (op : Operator) (a b : Float) :
    op.onFloats a b = ofParts (onParts op (parts a) (parts b)) := by
  cases op <;> rfl

/-- An operation does not tell the zeros apart, unless one is the divisor. -/
theorem onParts_same {op : Operator} {u u' v v' : UnpackedFloat} (hu : Same u u') (hv : Same v v')
    (hdiv : op = .div → ¬IsZero v) :
    onParts op u v = onParts op u' v' ∨
      (IsZero (onParts op u v) ∧ IsZero (onParts op u' v')) := by
  rcases hu with ⟨⟨s, rfl⟩, s', rfl⟩ | ⟨rfl, hun⟩
  · rcases hv with ⟨⟨t, rfl⟩, t', rfl⟩ | ⟨rfl, hvn⟩
    · right
      cases op with
      | add => cases s <;> cases t <;> cases s' <;> cases t' <;> exact ⟨⟨_, rfl⟩, _, rfl⟩
      | sub => cases s <;> cases t <;> cases s' <;> cases t' <;> exact ⟨⟨_, rfl⟩, _, rfl⟩
      | mul => exact ⟨⟨_, rfl⟩, _, rfl⟩
      | div => exact absurd ⟨t, rfl⟩ (hdiv rfl)
    · cases v with
      | notANumber => simp [UnpackedFloat.isNaN] at hvn
      | infinity t =>
        cases op with
        | add | sub | mul => exact .inl rfl
        | div => exact .inr ⟨⟨_, rfl⟩, _, rfl⟩
      | zero t =>
        cases op with
        | add => right; cases s <;> cases t <;> cases s' <;> exact ⟨⟨_, rfl⟩, _, rfl⟩
        | sub => right; cases s <;> cases t <;> cases s' <;> exact ⟨⟨_, rfl⟩, _, rfl⟩
        | mul => exact .inr ⟨⟨_, rfl⟩, _, rfl⟩
        | div => exact absurd ⟨t, rfl⟩ (hdiv rfl)
      | finite t m e h =>
        cases op with
        | add | sub => exact .inl rfl
        | mul | div => exact .inr ⟨⟨_, rfl⟩, _, rfl⟩
  · rcases hv with ⟨⟨t, rfl⟩, t', rfl⟩ | ⟨rfl, -⟩
    · cases u with
      | notANumber => simp [UnpackedFloat.isNaN] at hun
      | infinity s =>
        cases op with
        | add | sub | mul => exact .inl rfl
        | div => exact absurd ⟨t, rfl⟩ (hdiv rfl)
      | zero s =>
        cases op with
        | add => right; cases s <;> cases t <;> cases t' <;> exact ⟨⟨_, rfl⟩, _, rfl⟩
        | sub => right; cases s <;> cases t <;> cases t' <;> exact ⟨⟨_, rfl⟩, _, rfl⟩
        | mul => exact .inr ⟨⟨_, rfl⟩, _, rfl⟩
        | div => exact absurd ⟨t, rfl⟩ (hdiv rfl)
      | finite s m e h =>
        cases op with
        | add | sub => exact .inl rfl
        | mul => exact .inr ⟨⟨_, rfl⟩, _, rfl⟩
        | div => exact absurd ⟨t, rfl⟩ (hdiv rfl)
    · exact .inl rfl

theorem onFloats_alike {op : Operator} {a a' b b' : Float} (ha : (a == a') = true)
    (hb : (b == b') = true) (hdiv : op = .div → (b == 0) = false) :
    Alike (op.onFloats a b) (op.onFloats a' b') := by
  rw [onFloats_eq, onFloats_eq]
  refine alike_of_parts (onParts_same ((beq_iff a a').1 ha) ((beq_iff b b').1 hb) ?_)
  intro hop hz
  have := hdiv hop
  rw [(beq_zero_iff b).2 hz] at this
  cases this

/-- What it takes for two computations to have the same outcome: the same error, or
values that agree. -/
def Agree : Except ComputeError Float → Except ComputeError Float → Prop
  | .ok v, .ok w => (v == w) = true
  | .error e, .error e' => e = e'
  | .ok _, .error _ | .error _, .ok _ => False

/-- Operators have the same outcome on agreeing operands. -/
theorem apply_congr {a a' b b' : Float} (op : Operator) (ha : (a == a') = true)
    (hb : (b == b') = true) : Agree (op.apply a b) (op.apply a' b') := by
  have hzero : (b == 0) = (b' == 0) := beq_congr_left hb 0
  unfold Operator.apply
  rw [← hzero]
  split_ifs with hd
  · rfl
  · have hlike : Alike (op.onFloats a b) (op.onFloats a' b') := by
      refine onFloats_alike ha hb fun hop => ?_
      simpa [hop] using hd
    dsimp only
    rw [← hlike.isFinite_eq]
    split_ifs with hf
    · exact hlike.beq hf
    · rfl

/-! ### Operands that are no numbers -/

/-- Floats that agree, or that are both no numbers. -/
def Kin (a b : Float) : Prop := (a == b) = true ∨ a.isNaN = true ∧ b.isNaN = true

theorem Kin.refl (a : Float) : Kin a a := by
  cases h : a.isNaN with
  | true => exact .inr ⟨h, h⟩
  | false => exact .inl ((beq_self_iff a).2 h)

theorem beq_of_isNaN {a : Float} (h : a.isNaN = true) (c : Float) : (a == c) = false := by
  rw [Bool.eq_false_iff]
  intro hac
  rw [isNaN_of_beq hac] at h
  cases h

/-- Floats that are alike compare alike. -/
theorem Kin.beq_eq {a b : Float} (h : Kin a b) (c : Float) : (a == c) = (b == c) := by
  rcases h with h | ⟨ha, hb⟩
  · exact beq_congr_left h c
  · rw [beq_of_isNaN ha, beq_of_isNaN hb]

theorem onParts_notANumber (op : Operator) (u : UnpackedFloat) :
    onParts op .notANumber u = .notANumber ∧ onParts op u .notANumber = .notANumber := by
  cases op <;> cases u <;> exact ⟨rfl, rfl⟩

/-- Nothing finite comes of an operand that is no number. -/
theorem isFinite_onFloats_of_isNaN (op : Operator) {a b : Float}
    (h : a.isNaN = true ∨ b.isNaN = true) : (op.onFloats a b).isFinite = false := by
  have hparts : ∀ {c : Float}, c.isNaN = true → parts c = .notANumber := by
    intro c hc
    rw [isNaN_eq] at hc
    cases hp : parts c <;> simp_all [UnpackedFloat.isNaN]
  have hvalue : onParts op (parts a) (parts b) = .notANumber := by
    rcases h with ha | hb
    · rw [hparts ha, (onParts_notANumber op _).1]
    · rw [hparts hb, (onParts_notANumber op _).2]
  rw [onFloats_eq, hvalue]
  decide

/-- Operators have the same outcome on operands that agree or are no numbers. -/
theorem apply_kin {a a' b b' : Float} (op : Operator) (ha : Kin a a') (hb : Kin b b') :
    Agree (op.apply a b) (op.apply a' b') := by
  by_cases hnumbers : (a == a') = true ∧ (b == b') = true
  · exact apply_congr op hnumbers.1 hnumbers.2
  · -- one operand is no number on either side, so neither operation has a value
    have hnan : (a.isNaN = true ∨ b.isNaN = true) ∧ (a'.isNaN = true ∨ b'.isNaN = true) := by
      unfold Kin at ha hb
      tauto
    have hzero : (b == 0) = (b' == 0) := hb.beq_eq 0
    unfold Operator.apply
    rw [← hzero]
    split_ifs with hd
    · rfl
    · dsimp only
      rw [isFinite_onFloats_of_isNaN op hnan.1, isFinite_onFloats_of_isNaN op hnan.2]
      rfl

/-- What it takes for two computations to have the same outcome when their values need not be
numbers. -/
def Concur : Except ComputeError Float → Except ComputeError Float → Prop
  | .ok v, .ok w => Kin v w
  | .error e, .error e' => e = e'
  | .ok _, .error _ | .error _, .ok _ => False

theorem Agree.concur {x y : Except ComputeError Float} (h : Agree x y) : Concur x y := by
  cases x with
  | error e =>
    cases y with
    | error e' => exact h
    | ok w => exact h
  | ok v =>
    cases y with
    | error e' => exact h
    | ok w => exact Or.inl h

/-- An operation has a finite value or none. -/
theorem isFinite_of_apply {op : Operator} {a b v : Float} (h : op.apply a b = .ok v) :
    v.isFinite = true := by
  unfold Operator.apply at h
  split_ifs at h with hd
  dsimp only at h
  split_ifs at h with hf
  cases h
  exact hf

/-- So has the operation of a symbol. -/
theorem isFinite_of_compute {symbol : String} {a b v : Float} (h : compute symbol a b = .ok v) :
    v.isFinite = true := by
  unfold compute at h
  cases hop : Operator.ofSymbol symbol with
  | error e =>
    rw [hop] at h
    cases h
  | ok op =>
    rw [hop] at h
    exact isFinite_of_apply h

theorem Agree.symm {x y : Except ComputeError Float} (h : Agree x y) : Agree y x := by
  cases x <;> cases y <;> first | exact beq_symm h | exact Eq.symm h | exact h

theorem Agree.trans {x y z : Except ComputeError Float} (h : Agree x y) (h' : Agree y z) :
    Agree x z := by
  cases x with
  | error e =>
    cases y with
    | error e' => cases h; exact h'
    | ok v => cases h
  | ok v =>
    cases y with
    | error e' => cases h
    | ok w =>
      cases z with
      | error e => cases h'
      | ok u => exact beq_trans h h'

theorem Agree.of_ok {x : Except ComputeError Float} {v : Float} (h : Agree x (.ok v)) :
    ∃ w, x = .ok w ∧ (w == v) = true := by
  cases x with
  | error e => cases h
  | ok w => exact ⟨w, rfl, h⟩

/-! ## Negation -/

theorem isFinite_unpack (b : BitVec Format.binary64.numBits) :
    (UnpackedFloat.unpack .binary64 b).isFinite = true ↔ unpackExponent b ≠ -1#_ := by
  unfold UnpackedFloat.unpack
  dsimp only
  split_ifs with h1 h2 h3 h4
  · exact iff_of_false Bool.false_ne_true fun h => h h1
  · exact iff_of_false Bool.false_ne_true fun h => h h1
  · exact iff_of_true rfl h1
  · exact iff_of_true rfl h1
  · exact iff_of_true rfl h1

/-- The exponent of a finite float, as its bits hold it, is not the largest one. -/
theorem exponent_lt_of_unpack {b : BitVec Format.binary64.numBits} {s : Sign} {m : Nat} {e : Int}
    {h : 0 < m} (hb : UnpackedFloat.unpack .binary64 b = .finite s m e h) :
    (e + Format.binary64.exponentBias + 52).toNat + 1 < 2 ^ 11 := by
  have hbias : Format.binary64.exponentBias = 1023 := rfl
  unfold UnpackedFloat.unpack at hb
  dsimp only at hb
  split_ifs at hb with h1 h2 h3 h4
  · cases hb
    have : (unpackExponent b).toNat = 0 := by rw [h3]; rfl
    simp only [hbias] at *
    omega
  · cases hb
    have hlt : (unpackExponent b).toNat < 2 ^ 11 := (unpackExponent b).isLt
    have hne : (unpackExponent b).toNat ≠ 2 ^ 11 - 1 := by
      intro hmax
      exact h1 (BitVec.eq_of_toNat_eq (by rw [hmax]; rfl))
    simp only [hbias] at *
    omega

theorem isFinite_ofParts {s : Sign} {m : Nat} {e : Int} {h : 0 < m}
    (he : (e + Format.binary64.exponentBias + 52).toNat + 1 < 2 ^ 11) :
    (ofParts (.finite s m e h)).isFinite = true := by
  refine (isFinite_unpack (UnpackedFloat.pack .binary64 (.finite s m e h))).2 ?_
  unfold UnpackedFloat.pack
  dsimp only
  rw [if_neg (by exact Nat.not_le.2 he)]
  split_ifs with hm
  · rw [UnpackedFloat.unpackExponent_packComponents]
    intro hmax
    have := congrArg BitVec.toNat hmax
    rw [BitVec.toNat_ofNat, Nat.mod_eq_of_lt (by exact Nat.lt_of_succ_lt he)] at this
    have h1 : (-1#11).toNat = 2 ^ 11 - 1 := rfl
    rw [h1] at this
    omega
  · rw [UnpackedFloat.unpackExponent_packComponents]
    decide

theorem isFinite_neg {a : Float} (h : a.isFinite = true) : (-a).isFinite = true := by
  have hneg : -a = ofParts (parts a).neg := rfl
  rw [isFinite_eq] at h
  rw [hneg]
  cases hp : parts a with
  | notANumber => simp [hp, UnpackedFloat.isFinite] at h
  | infinity s => simp [hp, UnpackedFloat.isFinite] at h
  | zero s => cases s <;> decide
  | finite s m e hm => exact isFinite_ofParts (exponent_lt_of_unpack hp)

/-! ## Columns -/

/-- What a column keeps of a number agrees with it. -/
theorem columnFloat_agrees {a b : Float} (h : columnFloat a = some b) : (a == b) = true := by
  unfold columnFloat at h
  split_ifs at h with hn hz
  · cases h
    exact hz
  · cases h
    exact (beq_self_iff a).2 (by simpa using hn)

/-- A column has a place for every number. -/
theorem exists_columnFloat {a : Float} (h : a.isNaN = false) : ∃ b, columnFloat a = some b := by
  rw [columnFloat, if_neg (Bool.eq_false_iff.1 h)]
  split_ifs
  · exact ⟨0, rfl⟩
  · exact ⟨a, rfl⟩

theorem isNaN_of_columnFloat {a b : Float} (h : columnFloat a = some b) : b.isNaN = false :=
  isNaN_of_beq (beq_symm (columnFloat_agrees h))

/-- What a column keeps, it keeps as it is. -/
theorem columnFloat_of_columnFloat {a b : Float} (h : columnFloat a = some b) :
    columnFloat b = some b := by
  have hnumber := isNaN_of_columnFloat h
  rw [columnFloat, if_neg (by rw [hnumber]; exact Bool.false_ne_true)]
  unfold columnFloat at h
  split_ifs at h with _ hz
  · cases h
    exact if_pos (by decide)
  · cases h
    exact if_neg hz

end Piecework.Number
