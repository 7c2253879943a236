import SymbolicAlgebra.Proofs.Scalar.Zeros

/-!
# Arithmetic under another sign

Sums, products and quotients of opposite numbers are opposite. For the doubles this holds of every result,
rounded or not, since a mantissa is rounded without regard to its sign. Only zeros are in the way: numbers
that cancel out leave a positive zero whatever their signs were, so opposites are compared as numbers.
-/

namespace SymbolicAlgebra

/-- One number is equal to the other with another sign, or both are missing. -/
def Scalar.Opposite {α : Type} [Scalar α] (a b : α) : Prop :=
  Scalar.eq b (-a) = true ∨ Scalar.isNaN a = true ∧ Scalar.isNaN b = true

/-- Scalars whose arithmetic does not favour a sign. -/
class Scalar.Symmetric (α : Type) [Scalar α] : Prop extends Scalar.Signed α, Scalar.Propagating α where
  opposite_neg (a : α) : Scalar.Opposite a (-a)
  opposite_unsignZero {a b : α} : Scalar.Opposite a b → Scalar.Opposite a (Scalar.unsignZero b)
  opposite_add {a b a' b' : α} : Scalar.Opposite a a' → Scalar.Opposite b b' →
    Scalar.Opposite (a + b) (a' + b')
  opposite_mul {a a' : α} (b : α) : Scalar.Opposite a a' → Scalar.Opposite (a * b) (a' * b)
  opposite_div {a a' : α} (b : α) : Scalar.Opposite a a' → Scalar.Opposite (a / b) (a' / b)

namespace Binary64

open Float.Model Float.Model.UnpackedFloat

/-- What is unpacked differs in the sign only, or both are zeros. -/
def Opposed (u v : UnpackedFloat) : Prop := v = u.neg ∨ isZero u = true ∧ isZero v = true

/-- What is opposed to a zero is a zero. -/
theorem Opposed.isZero {u v : UnpackedFloat} (h : Opposed u v) :
    Binary64.isZero u = Binary64.isZero v := by
  obtain rfl | ⟨hu, hv⟩ := h
  · cases u <;> rfl
  · rw [hu, hv]

/-- The sign of what is packed together is the one that is unpacked. -/
theorem unpack_packComponents_neg (s : Sign) (exponent : BitVec 11) (mantissa : BitVec 52) :
    UnpackedFloat.unpack .binary64 (packComponents .binary64 (-s) exponent mantissa) =
      (UnpackedFloat.unpack .binary64 (packComponents .binary64 s exponent mantissa)).neg := by
  simp only [UnpackedFloat.unpack, unpackMantissa_packComponents, unpackExponent_packComponents,
    unpackSign_packComponents, Sign.ofBitVec_toBitVec]
  split
  · split <;> rfl
  · split
    · split <;> rfl
    · rfl

/-- Another sign is packed and unpacked again, and nothing else is changed by it. -/
theorem unpack_pack_opposite (u : UnpackedFloat) :
    UnpackedFloat.unpack .binary64 (UnpackedFloat.pack .binary64 u.neg) =
      (UnpackedFloat.unpack .binary64 (UnpackedFloat.pack .binary64 u)).neg := by
  cases u with
  | notANumber => exact unpack_packedNaN
  | infinity s => cases s <;> rfl
  | zero s => cases s <;> rfl
  | finite s m e h =>
    simp only [UnpackedFloat.neg, UnpackedFloat.pack]
    split
    · cases s <;> rfl
    · split <;> exact unpack_packComponents_neg s _ _

/-- What is opposed stays so when it is packed. -/
theorem Opposed.pack {u v : UnpackedFloat} (h : Opposed u v) :
    Opposed (UnpackedFloat.unpack .binary64 (UnpackedFloat.pack .binary64 u))
      (UnpackedFloat.unpack .binary64 (UnpackedFloat.pack .binary64 v)) := by
  obtain rfl | ⟨hu, hv⟩ := h
  · exact .inl (unpack_pack_opposite u)
  · refine .inr ⟨?_, ?_⟩
    · cases u with
      | zero s => cases s <;> rfl
      | _ => cases hu
    · cases v with
      | zero s => cases s <;> rfl
      | _ => cases hv

/-- What is unpacked is equal to itself, unless it is no number. -/
theorem beq_self {u : UnpackedFloat} (h : u ≠ .notANumber) : u.beq u = true := by
  cases u with
  | notANumber => exact absurd rfl h
  | infinity s => cases s <;> rfl
  | zero s => rfl
  | finite s m e hm => cases s <;> simp [UnpackedFloat.beq, UnpackedFloat.compare]

/-- Doubles are opposite if what is unpacked is opposed. -/
theorem opposite_iff (x y : Float) :
    Scalar.Opposite x y ↔ Opposed x.toModel.unpack y.toModel.unpack := by
  constructor
  · rintro (heq | ⟨hx, hy⟩)
    · have hzero (h : Scalar.eq (-x) Scalar.zero = true) : isZero x.toModel.unpack = true := by
        rwa [Scalar.Lawful.eq_neg_zero, eq_zero] at h
      obtain ⟨-, -, rfl | ⟨rfl, hx⟩ | ⟨rfl, hx⟩⟩ := Float.beq_iff_ne_nan_and_eq.mp heq
      · exact .inl (unpack_neg x)
      · exact .inr ⟨hzero (by rw [hx]; rfl), rfl⟩
      · exact .inr ⟨hzero (by rw [hx]; rfl), rfl⟩
    · rw [isNaN_iff] at hx hy
      exact .inl (by rw [hx, hy]; rfl)
  · rintro (hneg | ⟨hx, hy⟩)
    · obtain rfl : y = -x := eq_of_unpack (hneg.trans (unpack_neg x).symm)
      by_cases hmissing : (-x).toModel.unpack = .notANumber
      · refine .inr ⟨?_, (isNaN_iff _).mpr hmissing⟩
        rw [unpack_neg] at hmissing
        rw [isNaN_iff]
        cases hu : x.toModel.unpack with
        | notANumber => rfl
        | _ => rw [hu] at hmissing; cases hmissing
      · exact .inl (beq_self hmissing)
    · have hzero : Scalar.eq (-x) Scalar.zero = true := by rwa [Scalar.Lawful.eq_neg_zero, eq_zero]
      exact .inl ((Scalar.Scaling.eq_of_zero y (-x) hzero).trans ((eq_zero y).trans hy))

/-- A mantissa is rounded without regard to its sign. -/
theorem roundWithAccuracy_neg (s : Sign) (m : Nat) (e : Int) (accuracy : Accuracy) :
    roundWithAccuracy .binary64 (-s) m e accuracy =
      (roundWithAccuracy .binary64 s m e accuracy).neg := by
  simp only [roundWithAccuracy]
  split <;> rfl

/-- Opposite mantissas are rounded to opposed numbers; zero has no sign. -/
theorem opposed_normalize (m : Int) (e : Int) :
    Opposed (UnpackedFloat.normalize .binary64 m e .positive)
      (UnpackedFloat.normalize .binary64 (-m) e .positive) := by
  have hneg (k : Nat) : UnpackedFloat.round .binary64 .negative k e =
      (UnpackedFloat.round .binary64 .positive k e).neg := roundWithAccuracy_neg .positive _ _ _
  have hpos (k : Nat) : UnpackedFloat.round .binary64 .positive k e =
      (UnpackedFloat.round .binary64 .negative k e).neg := roundWithAccuracy_neg .negative _ _ _
  obtain hm | rfl | hm := Int.lt_trichotomy m 0
  · have hm' : 0 < -m := by omega
    rw [UnpackedFloat.normalize, UnpackedFloat.normalize, compare_lt_iff_lt.mpr hm,
      compare_gt_iff_gt.mpr hm']
    exact .inl (hpos _)
  · exact .inr ⟨rfl, rfl⟩
  · have hm' : -m < 0 := by omega
    rw [UnpackedFloat.normalize, UnpackedFloat.normalize, compare_gt_iff_gt.mpr hm,
      compare_lt_iff_lt.mpr hm', Int.neg_neg]
    exact .inl (hneg _)

/-- A zero is one of two. -/
theorem exists_zero {u : UnpackedFloat} (h : isZero u = true) : ∃ s, u = .zero s := by
  cases u with
  | zero s => exact ⟨s, rfl⟩
  | _ => cases h

/-- The sum of two zeros is a zero. -/
theorem isZero_add_zero (s t : Sign) :
    isZero (UnpackedFloat.add .binary64 (.zero s) (.zero t)) = true := by
  cases s <;> cases t <;> rfl

/-- The sum of numbers with other signs is opposed to their sum. -/
theorem opposed_add_neg (u v : UnpackedFloat) :
    Opposed (UnpackedFloat.add .binary64 u v) (UnpackedFloat.add .binary64 u.neg v.neg) := by
  cases u with
  | notANumber => exact .inl (by cases v <;> rfl)
  | infinity s =>
    cases v with
    | infinity t => exact .inl (by cases s <;> cases t <;> rfl)
    | _ => exact .inl rfl
  | zero s =>
    cases v with
    | zero t => exact .inr ⟨isZero_add_zero s t, isZero_add_zero (-s) (-t)⟩
    | _ => exact .inl rfl
  | finite s m e hm =>
    cases v with
    | finite t n e' hn =>
      have happly (s : Sign) (k : Int) : (-s).apply k = -s.apply k := by
        cases s with
        | negative => exact (Int.neg_neg k).symm
        | positive => rfl
      simp only [UnpackedFloat.neg, UnpackedFloat.add, happly, ← Int.neg_add]
      exact opposed_normalize _ _
    | _ => exact .inl rfl

/-- Sums of opposed numbers are opposed. -/
theorem Opposed.add {u v u' v' : UnpackedFloat} (hu : Opposed u u') (hv : Opposed v v') :
    Opposed (UnpackedFloat.add .binary64 u v) (UnpackedFloat.add .binary64 u' v') := by
  obtain rfl | ⟨hu, hu'⟩ := hu <;> obtain rfl | ⟨hv, hv'⟩ := hv
  · exact opposed_add_neg u v
  · obtain ⟨s, rfl⟩ := exists_zero hv
    obtain ⟨t, rfl⟩ := exists_zero hv'
    cases u with
    | zero r => exact .inr ⟨isZero_add_zero r s, isZero_add_zero (-r) t⟩
    | _ => exact .inl rfl
  · obtain ⟨s, rfl⟩ := exists_zero hu
    obtain ⟨t, rfl⟩ := exists_zero hu'
    cases v with
    | zero r => exact .inr ⟨isZero_add_zero s r, isZero_add_zero t (-r)⟩
    | _ => exact .inl rfl
  · obtain ⟨s, rfl⟩ := exists_zero hu
    obtain ⟨t, rfl⟩ := exists_zero hu'
    obtain ⟨r, rfl⟩ := exists_zero hv
    obtain ⟨r', rfl⟩ := exists_zero hv'
    exact .inr ⟨isZero_add_zero s r, isZero_add_zero t r'⟩

/-- Products of opposed numbers with the same number are opposed. -/
theorem Opposed.mul {u u' : UnpackedFloat} (h : Opposed u u') (v : UnpackedFloat) :
    Opposed (UnpackedFloat.mul .binary64 u v) (UnpackedFloat.mul .binary64 u' v) := by
  have hsign (s t : Sign) : -s * t = -(s * t) := by cases s <;> cases t <;> rfl
  obtain rfl | ⟨hu, hu'⟩ := h
  · refine .inl ?_
    cases u with
    | notANumber => cases v <;> rfl
    | finite s m e hm =>
      cases v with
      | finite t n e' hn =>
        rw [UnpackedFloat.neg, UnpackedFloat.mul, UnpackedFloat.mul, hsign, roundWithAccuracy_neg]
      | _ => simp only [UnpackedFloat.mul, UnpackedFloat.neg, hsign]
    | _ => cases v <;> simp only [UnpackedFloat.mul, UnpackedFloat.neg, hsign]
  · obtain ⟨s, rfl⟩ := exists_zero hu
    obtain ⟨t, rfl⟩ := exists_zero hu'
    cases v with
    | notANumber => exact .inl rfl
    | infinity r => exact .inl rfl
    | _ => exact .inr ⟨rfl, rfl⟩

/-- Quotients of opposed numbers by the same number are opposed. -/
theorem Opposed.div {u u' : UnpackedFloat} (h : Opposed u u') (v : UnpackedFloat) :
    Opposed (UnpackedFloat.div .binary64 u v) (UnpackedFloat.div .binary64 u' v) := by
  have hsign (s t : Sign) : -s / t = -(s / t) := by cases s <;> cases t <;> rfl
  obtain rfl | ⟨hu, hu'⟩ := h
  · refine .inl ?_
    cases u with
    | notANumber => cases v <;> rfl
    | finite s m e hm =>
      cases v with
      | finite t n e' hn =>
        rw [UnpackedFloat.neg, UnpackedFloat.div, UnpackedFloat.div, hsign]
        exact roundWithAccuracy_neg _ _ _ _
      | _ => simp only [UnpackedFloat.div, UnpackedFloat.neg, hsign]
    | _ => cases v <;> simp only [UnpackedFloat.div, UnpackedFloat.neg, hsign]
  · obtain ⟨s, rfl⟩ := exists_zero hu
    obtain ⟨t, rfl⟩ := exists_zero hu'
    cases v with
    | notANumber => exact .inl rfl
    | zero r => exact .inl rfl
    | _ => exact .inr ⟨rfl, rfl⟩

/-- The arithmetic of the doubles does not favour a sign. -/
instance : Scalar.Symmetric Float where
  opposite_neg x := (opposite_iff _ _).mpr (.inl (unpack_neg x))
  opposite_unsignZero {x y} h := by
    cases hzero : Scalar.eq y Scalar.zero with
    | false => rwa [Scalar.unsignZero_of_ne hzero]
    | true =>
      rw [opposite_iff] at h ⊢
      rw [Scalar.unsignZero, Scalar.Unital.add_zero_of_zero y hzero]
      rw [eq_zero] at hzero
      exact .inr ⟨h.isZero.trans hzero, rfl⟩
  opposite_add hx hy :=
    (opposite_iff _ _).mpr (((opposite_iff _ _).mp hx).add ((opposite_iff _ _).mp hy)).pack
  opposite_mul y hx := (opposite_iff _ _).mpr (((opposite_iff _ _).mp hx).mul y.toModel.unpack).pack
  opposite_div y hx := (opposite_iff _ _).mpr (((opposite_iff _ _).mp hx).div y.toModel.unpack).pack

end Binary64

end SymbolicAlgebra
