import SymbolicAlgebra.Proofs.Scalar.Text

/-!
# Missing numbers

What is computed from a missing number is missing, and no comparison holds of it. The doubles compute
sums, differences, products, quotients and comparisons in this way, which can be read off what they
are unpacked to. Their elementary functions are those of the platform: that these do the same is a law
of its own, with the two exceptions that a power makes.
-/

namespace SymbolicAlgebra

/-- Scalars whose arithmetic keeps what is missing, and whose comparisons do not hold of it. -/
class Scalar.Propagating (α : Type) [Scalar α] : Prop where
  isNaN_nan : Scalar.isNaN (Scalar.nan : α) = true
  isNaN_add (a b : α) : Scalar.isNaN a = true ∨ Scalar.isNaN b = true → Scalar.isNaN (a + b) = true
  isNaN_mul (a b : α) : Scalar.isNaN a = true ∨ Scalar.isNaN b = true → Scalar.isNaN (a * b) = true
  isNaN_div (a b : α) : Scalar.isNaN a = true ∨ Scalar.isNaN b = true → Scalar.isNaN (a / b) = true
  eq_of_isNaN (a b : α) : Scalar.isNaN a = true → Scalar.eq a b = false
  lt_of_isNaN (a b : α) : Scalar.isNaN a = true ∨ Scalar.isNaN b = true → Scalar.lt a b = false
  isWhole_of_isNaN (a : α) : Scalar.isNaN a = true → Scalar.isWhole a = false

/-- Scalars whose elementary functions keep what is missing. A power is one if its exponent is zero or
its base is one, whatever the other number is; a base that is one is not negative. -/
class Scalar.Elementary (α : Type) [Scalar α] : Prop extends Scalar.Propagating α where
  lt_of_eq_one (a : α) : Scalar.eq a Scalar.one = true → Scalar.lt a Scalar.zero = false
  isNaN_pow_left (a b : α) : Scalar.isNaN a = true → Scalar.eq b Scalar.zero = false →
    Scalar.isNaN (Scalar.pow a b) = true
  isNaN_pow_right (a b : α) : Scalar.isNaN b = true → Scalar.eq a Scalar.one = false →
    Scalar.isNaN (Scalar.pow a b) = true
  pow_zero (a b : α) : Scalar.eq b Scalar.zero = true → Scalar.pow a b = Scalar.one
  one_pow (a b : α) : Scalar.eq a Scalar.one = true → Scalar.pow a b = Scalar.one
  isNaN_log (a : α) : Scalar.isNaN a = true → Scalar.isNaN (Scalar.log a) = true
  isNaN_sin (a : α) : Scalar.isNaN a = true → Scalar.isNaN (Scalar.sin a) = true
  isNaN_cos (a : α) : Scalar.isNaN a = true → Scalar.isNaN (Scalar.cos a) = true
  isNaN_tan (a : α) : Scalar.isNaN a = true → Scalar.isNaN (Scalar.tan a) = true

namespace Binary64

open Float.Model Float.Model.UnpackedFloat

/-- A missing double is unpacked to what is no number. -/
theorem isNaN_iff (x : Float) : Scalar.isNaN x = true ↔ x.toModel.unpack = .notANumber := by
  change x.toModel.unpack.isNaN = true ↔ _
  cases x.toModel.unpack <;> simp [UnpackedFloat.isNaN]

/-- What is packed of no number is missing. -/
theorem isNaN_pack {u : UnpackedFloat} (h : u = .notANumber) :
    Scalar.isNaN (Float.ofModel (Float.Model.pack u)) = true := by
  rw [h]
  rfl

/-- Adding to what is no number, or adding it, gives no number. -/
theorem add_notANumber {u v : UnpackedFloat} (h : u = .notANumber ∨ v = .notANumber) :
    UnpackedFloat.add .binary64 u v = .notANumber := by
  obtain rfl | rfl := h
  · cases v <;> rfl
  · cases u <;> rfl

/-- A product with what is no number is none. -/
theorem mul_notANumber {u v : UnpackedFloat} (h : u = .notANumber ∨ v = .notANumber) :
    UnpackedFloat.mul .binary64 u v = .notANumber := by
  obtain rfl | rfl := h
  · cases v <;> rfl
  · cases u <;> rfl

/-- A quotient with what is no number is none. -/
theorem div_notANumber {u v : UnpackedFloat} (h : u = .notANumber ∨ v = .notANumber) :
    UnpackedFloat.div .binary64 u v = .notANumber := by
  obtain rfl | rfl := h
  · cases v <;> rfl
  · cases u <;> rfl

/-- The arithmetic of the doubles keeps what is missing. -/
instance : Scalar.Propagating Float where
  isNaN_nan := rfl
  isNaN_add x y h := by
    rw [isNaN_iff, isNaN_iff] at h
    exact isNaN_pack (add_notANumber h)
  isNaN_mul x y h := by
    rw [isNaN_iff, isNaN_iff] at h
    exact isNaN_pack (mul_notANumber h)
  isNaN_div x y h := by
    rw [isNaN_iff, isNaN_iff] at h
    exact isNaN_pack (div_notANumber h)
  eq_of_isNaN x y h := by
    rw [isNaN_iff] at h
    change x.toModel.unpack.beq y.toModel.unpack = false
    rw [h]
    cases y.toModel.unpack <;> rfl
  lt_of_isNaN x y h := by
    rw [isNaN_iff, isNaN_iff] at h
    rw [Bool.eq_false_iff]
    intro hlt
    rw [lt_iff] at hlt
    obtain h | h := h
    · rw [h] at hlt
      cases hy : y.toModel.unpack <;> rw [hy] at hlt <;> cases hlt
    · rw [h] at hlt
      cases hx : x.toModel.unpack <;> rw [hx] at hlt <;> cases hlt
  isWhole_of_isNaN x h := by
    rw [isNaN_iff] at h
    change isWhole x = false
    rw [isWhole, parts_eq, h, partsOf]

end Binary64

end SymbolicAlgebra
