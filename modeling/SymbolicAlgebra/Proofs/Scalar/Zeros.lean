import SymbolicAlgebra.Proofs.Scalar.Missing

/-!
# Zeros and what scales them

Scaling by a finite number other than zero makes nothing missing that was not, and keeps zero; so does
raising to a positive exponent, unless the base is negative and the exponent has a fraction. In turn a
number that is not zero can be scaled to zero, since the doubles run out of small numbers.
-/

namespace SymbolicAlgebra

/-- Scalars that can be scaled by finite numbers other than zero. -/
class Scalar.Scaling (α : Type) [Scalar α] : Prop extends Scalar.Propagating α where
  eq_of_zero (a t : α) : Scalar.eq t Scalar.zero = true → Scalar.eq a t = Scalar.eq a Scalar.zero
  isNaN_mul_finite (c a : α) : Scalar.isFinite c = true → Scalar.eq c Scalar.zero = false →
    Scalar.isNaN a = false → Scalar.isNaN (c * a) = false
  mul_zero (c a : α) : Scalar.isFinite c = true → Scalar.eq a Scalar.zero = true →
    Scalar.eq (c * a) Scalar.zero = true
  isNaN_div_finite (a d : α) : Scalar.isNaN a = false → Scalar.isFinite d = true →
    Scalar.eq d Scalar.zero = false → Scalar.isNaN (a / d) = false
  zero_div (a d : α) : Scalar.eq a Scalar.zero = true → Scalar.isFinite d = true →
    Scalar.eq d Scalar.zero = false → Scalar.eq (a / d) Scalar.zero = true

/-- Scalars that can be raised to positive exponents. -/
class Scalar.Raising (α : Type) [Scalar α] : Prop extends Scalar.Elementary α where
  isNaN_pow (a p : α) : Scalar.isNaN a = false → Scalar.lt Scalar.zero p = true →
    (Scalar.lt a Scalar.zero = true → Scalar.isWhole p = true) → Scalar.isNaN (Scalar.pow a p) = false
  zero_pow (a p : α) : Scalar.eq a Scalar.zero = true → Scalar.lt Scalar.zero p = true →
    Scalar.eq (Scalar.pow a p) Scalar.zero = true

namespace Binary64

open Float.Model Float.Model.UnpackedFloat

/-- The bits of a missing number have the largest exponent. -/
theorem unpack_ne_notANumber {b : BitVec 64} (h : @unpackExponent .binary64 b ≠ -1#11) :
    UnpackedFloat.unpack .binary64 b ≠ .notANumber := by
  simp only [UnpackedFloat.unpack]
  rw [if_neg h]
  split
  · split <;> exact UnpackedFloat.noConfusion
  · exact UnpackedFloat.noConfusion

/-- What is packed of a number is one. -/
theorem unpack_pack_ne_notANumber {u : UnpackedFloat} (h : u ≠ .notANumber) :
    UnpackedFloat.unpack .binary64 (UnpackedFloat.pack .binary64 u) ≠ .notANumber := by
  cases u with
  | notANumber => exact absurd rfl h
  | infinity s => cases s <;> exact UnpackedFloat.noConfusion
  | zero s => cases s <;> exact UnpackedFloat.noConfusion
  | finite s m e hm =>
    simp only [UnpackedFloat.pack]
    split
    · cases s <;> exact UnpackedFloat.noConfusion
    · rename_i hroom
      generalize (e + Format.binary64.exponentBias +
        Format.binary64.mantissaBitsWithoutImplicit).toNat = biased at hroom
      have hbiased : biased + 1 < 2048 := Nat.not_le.mp hroom
      split
      · refine unpack_ne_notANumber ?_
        rw [unpackExponent_packComponents]
        intro hsame
        have hfield : biased % 2048 = 2047 := congrArg BitVec.toNat hsame
        omega
      · refine unpack_ne_notANumber ?_
        rw [unpackExponent_packComponents]
        decide

/-- Rounding makes a number. -/
theorem roundWithAccuracy_ne_notANumber (s : Sign) (m : Nat) (e : Int) (accuracy : Accuracy) :
    roundWithAccuracy .binary64 s m e accuracy ≠ .notANumber := by
  simp only [roundWithAccuracy]
  split <;> exact UnpackedFloat.noConfusion

/-- A double is missing only if it is packed of what is no number. -/
theorem isNaN_pack_eq_false {u : UnpackedFloat} (h : u ≠ .notANumber) :
    Scalar.isNaN (Float.ofModel (Float.Model.pack u)) = false := by
  rw [Bool.eq_false_iff, ne_eq, isNaN_iff]
  exact unpack_pack_ne_notANumber h

/-- A double packed of a zero is zero. -/
theorem eq_zero_pack {u : UnpackedFloat} (h : isZero u = true) :
    Scalar.eq (Float.ofModel (Float.Model.pack u)) Scalar.zero = true := by
  cases u with
  | zero s => cases s <;> rfl
  | _ => cases h

/-- A finite double is zero or has a mantissa. -/
theorem isFinite_iff (x : Float) : Scalar.isFinite x = true ↔
    (∃ s, x.toModel.unpack = .zero s) ∨ ∃ s m e h, x.toModel.unpack = .finite s m e h := by
  change x.toModel.unpack.isFinite = true ↔ _
  cases x.toModel.unpack with
  | finite s m e h => simp [UnpackedFloat.isFinite, h]
  | _ => simp [UnpackedFloat.isFinite]

/-- A finite double other than zero has a mantissa. -/
theorem exists_mantissa {x : Float} (hfinite : Scalar.isFinite x = true)
    (hzero : Scalar.eq x Scalar.zero = false) :
    ∃ s m e h, x.toModel.unpack = .finite s m e h := by
  obtain ⟨s, hs⟩ | hmantissa := (isFinite_iff x).mp hfinite
  · rw [eq_zero, hs] at hzero
    cases hzero
  · exact hmantissa

/-- The doubles can be scaled. -/
instance : Scalar.Scaling Float where
  eq_of_zero x t h := by
    rw [eq_zero] at h
    rw [eq_zero]
    change x.toModel.unpack.beq t.toModel.unpack = _
    cases ht : t.toModel.unpack with
    | zero s => exact beq_zero _ s
    | _ => rw [ht] at h; cases h
  isNaN_mul_finite x y hx hzero hy := by
    obtain ⟨s, m, e, hm, hu⟩ := exists_mantissa hx hzero
    rw [Bool.eq_false_iff, ne_eq, isNaN_iff] at hy
    refine isNaN_pack_eq_false ?_
    rw [hu]
    cases hv : y.toModel.unpack with
    | notANumber => exact absurd hv hy
    | finite s' m' e' hm' => exact roundWithAccuracy_ne_notANumber _ _ _ _
    | _ => exact UnpackedFloat.noConfusion
  mul_zero x y hx hy := by
    rw [eq_zero] at hy
    refine eq_zero_pack ?_
    cases hv : y.toModel.unpack with
    | zero s =>
      obtain ⟨s', hu⟩ | ⟨s', m, e, hm, hu⟩ := (isFinite_iff x).mp hx <;> rw [hu] <;> rfl
    | _ => rw [hv] at hy; cases hy
  isNaN_div_finite x y hx hy hzero := by
    obtain ⟨s, m, e, hm, hv⟩ := exists_mantissa hy hzero
    rw [Bool.eq_false_iff, ne_eq, isNaN_iff] at hx
    refine isNaN_pack_eq_false ?_
    rw [hv]
    cases hu : x.toModel.unpack with
    | notANumber => exact absurd hu hx
    | finite s' m' e' hm' => exact roundWithAccuracy_ne_notANumber _ _ _ _
    | _ => exact UnpackedFloat.noConfusion
  zero_div x y hx hy hzero := by
    rw [eq_zero] at hx
    obtain ⟨s, m, e, hm, hv⟩ := exists_mantissa hy hzero
    refine eq_zero_pack ?_
    rw [hv]
    cases hu : x.toModel.unpack with
    | zero s' => rfl
    | _ => rw [hu] at hx; cases hx

end Binary64

end SymbolicAlgebra
