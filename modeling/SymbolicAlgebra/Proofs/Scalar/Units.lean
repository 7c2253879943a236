import SymbolicAlgebra.Proofs.Scalar.Binary64

/-!
# Neutral numbers

Adding zero, multiplying by one and dividing by one give back the number that they start from. For
the doubles this is a statement about rounding: the mantissa of a product or a quotient with one is
that of the number shifted to the left, and rounding shifts it back without losing a bit.
-/

namespace SymbolicAlgebra

/-- Scalars whose zero and one are neutral. Only zeros may change by adding zero: one with a sign
loses it. -/
class Scalar.Unital (α : Type) [Scalar α] : Prop extends Scalar.Lawful α where
  eq_one_zero : Scalar.eq (Scalar.one : α) Scalar.zero = false
  lt_one_zero : Scalar.lt (Scalar.one : α) Scalar.zero = false
  toInt_one : Scalar.toInt (Scalar.one : α) = 1
  add_zero (a : α) : Scalar.eq a Scalar.zero = false → a + Scalar.zero = a
  add_zero_of_zero (a : α) : Scalar.eq a Scalar.zero = true → a + Scalar.zero = Scalar.zero
  zero_add (a : α) : Scalar.eq a Scalar.zero = false → Scalar.zero + a = a
  mul_one (a : α) : a * Scalar.one = a
  one_mul (a : α) : Scalar.one * a = a
  div_one (a : α) : a / Scalar.one = a

section Coefficients

variable {α : Type} [Scalar α] [Scalar.Unital α]

/-- A number other than zero loses no sign. -/
theorem Scalar.unsignZero_of_ne {v : α} (h : Scalar.eq v Scalar.zero = false) :
    Scalar.unsignZero v = v := Scalar.Unital.add_zero v h

/-- A sign that a zero has lost is not lost again. -/
theorem Scalar.unsignZero_unsignZero (v : α) : unsignZero (unsignZero v) = unsignZero v := by
  cases hv : eq v zero with
  | true =>
    have hzero := (Lawful.eq_unsignZero v).trans hv
    rw [unsignZero, Unital.add_zero_of_zero _ hzero, unsignZero, Unital.add_zero_of_zero _ hv]
  | false => rw [unsignZero_of_ne hv, unsignZero_of_ne hv]

/-- A number is a coefficient over one. -/
theorem Coefficient.ofScalar_eq (v : α) :
    Coefficient.ofScalar v = ⟨Scalar.unsignZero v, Scalar.one⟩ := by
  have hgcd : ¬ 1 < Int.gcd (Scalar.toInt v) (Scalar.toInt (Scalar.one : α)) := by
    rw [Scalar.Unital.toInt_one, Int.gcd_one]
    exact Nat.lt_irrefl 1
  simp only [ofScalar, ofFraction, Scalar.Unital.lt_one_zero, Bool.false_eq_true, if_false,
    if_neg hgcd, Scalar.Unital.div_one, ite_self]

omit [Scalar α] in
/-- A coefficient is known by its numerator and its denominator. -/
theorem Coefficient.eq_mk {c : Coefficient α} {numer denom : α} (hnumer : c.numer = numer)
    (hdenom : c.denom = denom) : c = ⟨numer, denom⟩ := by
  cases c
  cases hnumer
  cases hdenom
  rfl

end Coefficients

namespace Binary64

open Float.Model Float.Model.UnpackedFloat

/-- A double is packed from what is unpacked from it. -/
theorem pack_unpack_model (x : Float.Model) : Float.Model.pack x.unpack = x := by
  obtain ⟨bits, valid⟩ := x
  have h := pack_unpack_of_valid valid
  simp only [Float.Model.pack, Float.Model.unpack, h]

/-- The exponent of a number of this mantissa is the one that rounding aims at. -/
def Aligned (m : Nat) (e : Int) : Prop :=
  Format.binary64.targetExponent (totalExponent m e) = e

/-- What is unpacked is aligned. -/
theorem aligned_unpack {b : BitVec 64} {s : Sign} {m : Nat} {e : Int} {h : 0 < m}
    (hb : UnpackedFloat.unpack .binary64 b = .finite s m e h) : Aligned m e := by
  have hbias : Format.binary64.exponentBias = 1023 := rfl
  have hmin : Format.binary64.minExponent = -1074 := rfl
  have hbits : Format.binary64.mantissaBits = 53 := rfl
  rw [UnpackedFloat.unpack] at hb
  split at hb
  · split at hb <;> cases hb
  · split at hb
    · rename_i he
      split at hb
      · cases hb
      · cases hb
        have hlog := Nat.log2_lt (n := (@unpackMantissa .binary64 b).toNat) (k := 52)
          (by omega)
        have := hlog.mpr (BitVec.isLt _)
        rw [he, Aligned, Format.targetExponent, totalExponent, hmin, hbits, hbias]
        simp only [BitVec.toNat_zero]
        omega
    · rename_i he
      cases hb
      have : (@unpackExponent .binary64 b).toNat ≠ 0 := fun h0 => he (BitVec.eq_of_toNat_eq h0)
      rw [Aligned, Format.targetExponent, totalExponent, log2_normal, hmin, hbits, hbias]
      simp only
      omega

/-- Shifting a mantissa to the right takes back a shift to the left. -/
theorem shiftRight_exact (m j k : Nat) :
    (⟨m * 2 ^ (j + k), false, false⟩ : ExtendedMantissa) >>> k = ⟨m * 2 ^ j, false, false⟩ := by
  change k.repeat ExtendedMantissa.shiftRightOne _ = _
  induction k generalizing j with
  | zero => rfl
  | succ k ih =>
    rw [Nat.repeat, ← Nat.add_assoc, Nat.add_right_comm, ih (j + 1), Nat.pow_succ, ← Nat.mul_assoc]
    simp [ExtendedMantissa.shiftRightOne]

/-- Shifting a number to the left moves its leading bit as far. -/
theorem log2_mul_two_pow {m : Nat} (hm : 0 < m) (k : Nat) : (m * 2 ^ k).log2 = m.log2 + k := by
  induction k with
  | zero => simp
  | succ k ih =>
    have hpos : m * 2 ^ k ≠ 0 := Nat.ne_of_gt (Nat.mul_pos hm (Nat.two_pow_pos k))
    rw [Nat.pow_succ', Nat.mul_left_comm, Nat.log2_two_mul hpos, ih, Nat.add_assoc]

/-- Shifting the mantissa of an aligned number to the left does not change what it is rounded to. -/
theorem round_shifted (s : Sign) {m : Nat} {e : Int} (hm : 0 < m) (aligned : Aligned m e) (k : Nat) :
    roundWithAccuracy .binary64 s (m * 2 ^ k) (e - k) .exact = .finite s m e hm := by
  have htotal (j : Nat) : totalExponent (m * 2 ^ j) (e - j) = totalExponent m e := by
    rw [totalExponent, totalExponent, log2_mul_two_pow hm]
    omega
  have hshift (j : Nat) : shiftToTargetExponent .binary64 (m * 2 ^ j) (e - j) .exact =
      (⟨m, false, false⟩, e) := by
    rw [shiftToTargetExponent, htotal, aligned, shiftToExponent]
    have hj : (e - (e - (j : Int))).toNat = j := by omega
    have h := shiftRight_exact m 0 j
    rw [Nat.zero_add, Nat.pow_zero, Nat.mul_one] at h
    simp only [hj, ExtendedMantissa.ofMantissaAndAccuracy, h, Int.sub_add_cancel]
  have hagain := hshift 0
  rw [Nat.pow_zero, Nat.mul_one, Int.natCast_zero, Int.sub_zero] at hagain
  simp only [roundWithAccuracy, hshift k, ExtendedMantissa.roundedMantissa,
    ExtendedMantissa.accuracy, Accuracy.roundToNearestEven, hagain]
  rw [dif_neg (Nat.ne_of_gt hm)]

/-- Multiplying by one keeps what was unpacked. -/
theorem mul_one_unpack (b : BitVec 64) :
    UnpackedFloat.mul .binary64 (UnpackedFloat.unpack .binary64 b)
      (.finite .positive (2 ^ 52) (-52) (by decide)) = UnpackedFloat.unpack .binary64 b := by
  cases hb : UnpackedFloat.unpack .binary64 b with
  | notANumber => rfl
  | infinity s => cases s <;> rfl
  | zero s => cases s <;> rfl
  | finite s m e h =>
    have hs : s * .positive = s := by cases s <;> rfl
    rw [UnpackedFloat.mul, hs]
    exact round_shifted s h (aligned_unpack hb) 52

/-- One multiplied by a number that was unpacked is that number. -/
theorem one_mul_unpack (b : BitVec 64) :
    UnpackedFloat.mul .binary64 (.finite .positive (2 ^ 52) (-52) (by decide))
      (UnpackedFloat.unpack .binary64 b) = UnpackedFloat.unpack .binary64 b := by
  cases hb : UnpackedFloat.unpack .binary64 b with
  | notANumber => rfl
  | infinity s => cases s <;> rfl
  | zero s => cases s <;> rfl
  | finite s m e h =>
    have hs : Sign.positive * s = s := by cases s <;> rfl
    rw [UnpackedFloat.mul, hs, Nat.mul_comm, Int.add_comm]
    exact round_shifted s h (aligned_unpack hb) 52

/-- The quotient of an aligned number and one is its mantissa shifted to the left. -/
theorem divCore_one {m : Nat} {e : Int} (aligned : Aligned m e) :
    ∃ k : Nat, divCore .binary64 m e (2 ^ 52) (-52) = (m * 2 ^ k, e - k, .exact) := by
  have hone : totalExponent (2 ^ 52) (-52) = 1 := by decide
  rw [Aligned, Format.targetExponent] at aligned
  rw [divCore, hone, Format.targetExponent]
  generalize hd : (e - min (e - -52) (max (totalExponent m e - 1 - Format.binary64.mantissaBits)
    Format.binary64.minExponent)).toNat = d
  refine ⟨d, ?_⟩
  have htarget : min (e - -52) (max (totalExponent m e - 1 - Format.binary64.mantissaBits)
      Format.binary64.minExponent) = e - d := by omega
  have hshift : (e - -52 - (e - (d : Int))).toNat = d + 52 := by omega
  have hmantissa : m <<< (d + 52) = m * 2 ^ d * 2 ^ 52 := by
    rw [Nat.shiftLeft_eq, Nat.pow_add, Nat.mul_assoc]
  simp only [htarget, hshift, hmantissa, Nat.mul_div_cancel _ (Nat.two_pow_pos 52),
    Nat.mul_mod_left, accuracyOfFraction, if_true]

/-- Dividing by one keeps what was unpacked. -/
theorem div_one_unpack (b : BitVec 64) :
    UnpackedFloat.div .binary64 (UnpackedFloat.unpack .binary64 b)
      (.finite .positive (2 ^ 52) (-52) (by decide)) = UnpackedFloat.unpack .binary64 b := by
  cases hb : UnpackedFloat.unpack .binary64 b with
  | notANumber => rfl
  | infinity s => cases s <;> rfl
  | zero s => cases s <;> rfl
  | finite s m e h =>
    have hs : s / .positive = s := by cases s <;> rfl
    have aligned := aligned_unpack hb
    obtain ⟨k, hk⟩ := divCore_one aligned
    rw [UnpackedFloat.div, hk, hs]
    exact round_shifted s h aligned k

/-- The unpacked form of one. -/
theorem unpack_one : (Scalar.one : Float).toModel.unpack =
    .finite .positive (2 ^ 52) (-52) (by decide) := rfl

/-- A double is what it is packed to again. -/
theorem eq_of_model {x : Float} {m : Float.Model} (h : Float.Model.pack x.toModel.unpack = m) :
    Float.ofModel m = x := by
  rw [← h, pack_unpack_model]

/-- A double is known by what it is unpacked to. -/
theorem eq_of_unpack {x y : Float} (h : x.toModel.unpack = y.toModel.unpack) : x = y :=
  (eq_of_model (x := x) (m := y.toModel) (by rw [h, pack_unpack_model])).symm

/-- Zero and one are neutral among the doubles. -/
instance : Scalar.Unital Float where
  eq_one_zero := rfl
  lt_one_zero := rfl
  toInt_one := rfl
  add_zero x hx := by
    rw [eq_zero] at hx
    refine eq_of_model ?_
    change _ = Float.Model.pack (UnpackedFloat.add .binary64 x.toModel.unpack (.zero .positive))
    rw [add_zero, hx]
    rfl
  add_zero_of_zero x hx := by
    rw [eq_zero] at hx
    change Float.ofModel (Float.Model.pack (UnpackedFloat.add .binary64 x.toModel.unpack
      (.zero .positive))) = _
    rw [add_zero, if_pos hx]
    rfl
  zero_add x hx := by
    rw [eq_zero] at hx
    refine eq_of_model ?_
    change _ = Float.Model.pack (UnpackedFloat.add .binary64 (.zero .positive) x.toModel.unpack)
    cases hu : x.toModel.unpack with
    | zero s => rw [hu] at hx; cases hx
    | _ => rfl
  mul_one x := eq_of_model (congrArg Float.Model.pack (mul_one_unpack _).symm)
  one_mul x := eq_of_model (congrArg Float.Model.pack (one_mul_unpack _).symm)
  div_one x := eq_of_model (congrArg Float.Model.pack (div_one_unpack _).symm)

end Binary64

end SymbolicAlgebra
