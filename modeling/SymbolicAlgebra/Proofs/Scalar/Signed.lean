import SymbolicAlgebra.Proofs.Scalar.Rounding

/-!
# Signs

A minus sign can be taken off a number and put back, and multiplying by minus one puts one in front.
For the doubles a sign is one bit: the number with the other sign is packed of the same exponent and
the same mantissa, so nothing is rounded.
-/

namespace SymbolicAlgebra

/-- Scalars whose signs can be changed without a loss, and whose comparisons with zero and one mean
what they say. -/
class Scalar.Signed (α : Type) [Scalar α] : Prop extends Scalar.Unital α where
  neg_neg (a : α) : -(-a) = a
  neg_one : -(Scalar.one : α) = Scalar.ofInt (-1)
  minusOne_mul (a : α) : Scalar.ofInt (-1) * a = -a
  eq_of_eq_one (a : α) : Scalar.eq a Scalar.one = true → a = Scalar.one
  eq_of_eq_minusOne (a : α) : Scalar.eq a (Scalar.ofInt (-1)) = true → a = Scalar.ofInt (-1)
  lt_minusOne_zero : Scalar.lt (Scalar.ofInt (-1) : α) Scalar.zero = true
  eq_zero_of_neg (a : α) : Scalar.lt a Scalar.zero = true → Scalar.eq a Scalar.zero = false
  lt_neg (a : α) : Scalar.lt a Scalar.zero = true → Scalar.lt (-a) Scalar.zero = false
  eq_zero_of_pos (a : α) : Scalar.lt Scalar.zero a = true → Scalar.eq a Scalar.zero = false
  lt_of_pos (a : α) : Scalar.lt Scalar.zero a = true → Scalar.lt a Scalar.zero = false
  lt_of_nonneg (a : α) : Scalar.le Scalar.zero a = true → Scalar.lt a Scalar.zero = false
  isFinite_neg (a : α) : Scalar.isFinite (-a) = Scalar.isFinite a

namespace Binary64

open Float.Model Float.Model.UnpackedFloat

/-- A number that was unpacked keeps its parts but for the sign when it is packed with the other one. -/
theorem unpack_pack_neg (b : BitVec 64) :
    UnpackedFloat.unpack .binary64
      (UnpackedFloat.pack .binary64 (UnpackedFloat.unpack .binary64 b).neg) =
      (UnpackedFloat.unpack .binary64 b).neg := by
  cases hb : UnpackedFloat.unpack .binary64 b with
  | notANumber => exact unpack_packedNaN
  | infinity s => cases s <;> rfl
  | zero s => exact unpack_packedZero
  | finite s m e h => exact unpack_pack (-s) h (aligned_unpack hb) (exponent_lt_of_unpack hb)

/-- Multiplying what was unpacked by minus one changes its sign only. -/
theorem minusOne_mul_unpack (b : BitVec 64) :
    UnpackedFloat.mul .binary64 (.finite .negative (2 ^ 52) (-52) (by decide))
      (UnpackedFloat.unpack .binary64 b) = (UnpackedFloat.unpack .binary64 b).neg := by
  cases hb : UnpackedFloat.unpack .binary64 b with
  | notANumber => rfl
  | infinity s => cases s <;> rfl
  | zero s => cases s <;> rfl
  | finite s m e h =>
    have hs : Sign.negative * s = -s := by cases s <;> rfl
    rw [UnpackedFloat.mul, hs, Nat.mul_comm, Int.add_comm]
    exact round_shifted (-s) h (aligned_unpack hb) 52

/-- The number with the other sign is unpacked to the same parts but for the sign. -/
theorem unpack_neg (x : Float) : (-x).toModel.unpack = x.toModel.unpack.neg :=
  unpack_pack_neg x.toModel.toBits.toBitVec

/-- Numbers are compared by what is unpacked. -/
theorem lt_iff (x y : Float) :
    Scalar.lt x y = true ↔ x.toModel.unpack.lt y.toModel.unpack = true :=
  decide_eq_true_iff.trans decide_eq_true_iff

/-- Numbers are compared by what is unpacked, also up to equality. -/
theorem le_iff (x y : Float) :
    Scalar.le x y = true ↔ x.toModel.unpack.le y.toModel.unpack = true :=
  decide_eq_true_iff.trans decide_eq_true_iff

/-- The unpacked form of zero. -/
theorem unpack_zero : (Scalar.zero : Float).toModel.unpack = .zero .positive := rfl

/-- Only numbers with a minus sign that are not zero are less than zero. -/
theorem lt_zero (x : Float) : Scalar.lt x Scalar.zero = true ↔
    x.toModel.unpack = .infinity .negative ∨ ∃ m e h, x.toModel.unpack = .finite .negative m e h := by
  rw [lt_iff, unpack_zero]
  cases x.toModel.unpack with
  | notANumber => simp [UnpackedFloat.lt, UnpackedFloat.compare]
  | infinity s => cases s <;> simp [UnpackedFloat.lt, UnpackedFloat.compare]
  | zero s => cases s <;> simp [UnpackedFloat.lt, UnpackedFloat.compare]
  | finite s m e h => cases s <;> simp [UnpackedFloat.lt, UnpackedFloat.compare, h]

/-- Only numbers with a plus sign that are not zero are greater than zero. -/
theorem zero_lt (x : Float) : Scalar.lt Scalar.zero x = true ↔
    x.toModel.unpack = .infinity .positive ∨ ∃ m e h, x.toModel.unpack = .finite .positive m e h := by
  rw [lt_iff, unpack_zero]
  cases x.toModel.unpack with
  | notANumber => simp [UnpackedFloat.lt, UnpackedFloat.compare]
  | infinity s => cases s <;> simp [UnpackedFloat.lt, UnpackedFloat.compare]
  | zero s => cases s <;> simp [UnpackedFloat.lt, UnpackedFloat.compare]
  | finite s m e h => cases s <;> simp [UnpackedFloat.lt, UnpackedFloat.compare, h]

/-- What is at least zero is not less than zero. -/
theorem lt_zero_of_zero_le {x : Float} (h : Scalar.le Scalar.zero x = true) :
    Scalar.lt x Scalar.zero = false := by
  rw [Bool.eq_false_iff]
  intro hlt
  rw [le_iff, unpack_zero] at h
  obtain hinf | ⟨m, e, hm, hfin⟩ := (lt_zero x).mp hlt
  · rw [hinf] at h
    cases h
  · rw [hfin] at h
    cases h

/-- A number that compares as equal to one that is neither missing nor zero is that number. -/
theorem eq_of_beq {x y : Float} (h : Scalar.eq x y = true) (hy : Scalar.eq y Scalar.zero = false) :
    x = y := by
  obtain ⟨-, -, rfl | ⟨-, rfl⟩ | ⟨-, rfl⟩⟩ := Float.beq_iff_ne_nan_and_eq.mp h
  · rfl
  · cases hy
  · cases hy

/-- The signs of doubles can be changed without a loss. -/
instance : Scalar.Signed Float where
  neg_neg x := by
    refine eq_of_model ?_
    change _ = Float.Model.pack (-x).toModel.unpack.neg
    rw [unpack_neg]
    cases x.toModel.unpack with
    | notANumber => rfl
    | infinity s => cases s <;> rfl
    | zero s => cases s <;> rfl
    | finite s m e h => cases s <;> rfl
  neg_one := by decide +kernel
  minusOne_mul x := by
    change Float.ofModel (Float.Model.pack (UnpackedFloat.mul .binary64
      (.finite .negative (2 ^ 52) (-52) (by decide)) x.toModel.unpack)) = _
    exact congrArg (fun u => Float.ofModel (Float.Model.pack u)) (minusOne_mul_unpack _)
  eq_of_eq_one x h := eq_of_beq h rfl
  eq_of_eq_minusOne x h := eq_of_beq h rfl
  lt_minusOne_zero := rfl
  eq_zero_of_neg x h := by
    rw [eq_zero]
    obtain h | ⟨m, e, hm, h⟩ := (lt_zero x).mp h <;> rw [h] <;> rfl
  lt_neg x h := by
    rw [Bool.eq_false_iff]
    intro hneg
    rw [lt_zero, unpack_neg] at hneg
    obtain h | ⟨m, e, hm, h⟩ := (lt_zero x).mp h <;> rw [h] at hneg <;>
      simp [UnpackedFloat.neg, Neg.neg] at hneg
  eq_zero_of_pos x h := by
    rw [eq_zero]
    obtain h | ⟨m, e, hm, h⟩ := (zero_lt x).mp h <;> rw [h] <;> rfl
  lt_of_pos x h := by
    rw [Bool.eq_false_iff]
    intro hneg
    rw [lt_zero] at hneg
    obtain h | ⟨m, e, hm, h⟩ := (zero_lt x).mp h <;> rw [h] at hneg <;> simp at hneg
  lt_of_nonneg _ := lt_zero_of_zero_le
  isFinite_neg x := by
    change (-x).toModel.unpack.isFinite = x.toModel.unpack.isFinite
    rw [unpack_neg]
    cases x.toModel.unpack <;> rfl

end Binary64

end SymbolicAlgebra
