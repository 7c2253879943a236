import SymbolicAlgebra.Proofs.Scalar.Lawful

/-!
# Exact numbers

Real numbers as scalars, with one more for the result of an operation that has none. No arithmetic
rounds and nothing overflows here, so that the rules do on these numbers what they do on others as
long as no operation rounds. Rounding to a whole number is an operation of its own, and rounds here
too. Infinities count as missing, and so does what would be one.
-/

namespace SymbolicAlgebra

/-- A real number, or the result of an operation that has none. -/
inductive Exact where
  | missing
  | number (r : ℝ)

namespace Exact

section Operations

open scoped Classical

/-- A real number without a fraction. -/
def Whole (r : ℝ) : Prop := ∃ n : ℤ, (n : ℝ) = r

/-- The nearest whole number, the one further from zero if there are two. -/
noncomputable def nearest (r : ℝ) : ℤ := if 0 ≤ r then ⌊r + 1 / 2⌋ else ⌈r - 1 / 2⌉

/-- An operation on one number, missing where its operand is. -/
def lift (f : ℝ → Exact) : Exact → Exact
  | missing => missing
  | number a => f a

/-- An operation on two numbers, missing where one of its operands is. -/
def lift₂ (f : ℝ → ℝ → Exact) : Exact → Exact → Exact
  | number a, number b => f a b
  | _, _ => missing

/-- A comparison of two numbers, which does not hold where one of them is missing. -/
noncomputable def compares (r : ℝ → ℝ → Prop) : Exact → Exact → Bool
  | number a, number b => decide (r a b)
  | _, _ => false

/-- A negative base has a power only to a whole exponent, and zero to none below zero. -/
def HasPower (a e : ℝ) : Prop := (a < 0 → Whole e) ∧ (a = 0 → 0 ≤ e)

/-- Whatever the base or the exponent is, the power is one if the other is zero or one. -/
noncomputable def power : Exact → Exact → Exact
  | number a, number e => if HasPower a e then number (a ^ e) else missing
  | missing, number e => if e = 0 then number 1 else missing
  | number a, missing => if a = 1 then number 1 else missing
  | missing, missing => missing

/-- Numbers are ordered by size, and what is missing comes after them. -/
noncomputable def order : Exact → Exact → Ordering
  | number a, number b => compare a b
  | number _, missing => .lt
  | missing, number _ => .gt
  | missing, missing => .eq

/-- The exact numbers with the arithmetic of the reals. -/
noncomputable instance : Scalar Exact where
  add := lift₂ fun a b => number (a + b)
  sub := lift₂ fun a b => number (a - b)
  mul := lift₂ fun a b => number (a * b)
  div := lift₂ fun a b => if b = 0 then missing else number (a / b)
  neg := lift fun a => number (-a)
  ofInt n := number n
  ofDecimal d := number (d.digits * (10 : ℝ) ^ d.exponent)
  nan := missing
  infinity := missing
  euler := number (Real.exp 1)
  pi := number Real.pi
  eq := compares (· = ·)
  lt := compares (· < ·)
  le := compares (· ≤ ·)
  order := order
  isNaN | missing => true | number _ => false
  isFinite | missing => false | number _ => true
  isWhole | missing => false | number a => decide (Whole a)
  toInt | missing => 0 | number a => ⌊a⌋
  abs := lift fun a => number |a|
  round := lift fun a => number (nearest a)
  emod := lift₂ fun a b => if b = 0 then missing else number (a - |b| * ⌊a / |b|⌋)
  pow := power
  log := lift fun a => if 0 < a then number (Real.log a) else missing
  sin := lift fun a => number (Real.sin a)
  cos := lift fun a => number (Real.cos a)
  tan := lift fun a => number (Real.tan a)
  text _ := ""

end Operations

section Rules

variable {a b : ℝ} {x y : Exact}

@[simp] theorem number_add : number a + number b = number (a + b) := rfl

@[simp] theorem number_sub : number a - number b = number (a - b) := rfl

@[simp] theorem number_mul : number a * number b = number (a * b) := rfl

@[simp] theorem neg_number : -number a = number (-a) := rfl

@[simp] theorem neg_missing : -missing = missing := rfl

/-- A quotient of numbers is one unless the divisor is zero. -/
theorem number_div (h : b ≠ 0) : number a / number b = number (a / b) := if_neg h

@[simp] theorem div_number_zero : x / number 0 = missing := by
  cases x with
  | missing => rfl
  | number a => exact if_pos rfl

@[simp] theorem missing_add : missing + x = missing := by cases x <;> rfl

@[simp] theorem add_missing : x + missing = missing := by cases x <;> rfl

@[simp] theorem missing_sub : missing - x = missing := by cases x <;> rfl

@[simp] theorem sub_missing : x - missing = missing := by cases x <;> rfl

@[simp] theorem missing_mul : missing * x = missing := by cases x <;> rfl

@[simp] theorem mul_missing : x * missing = missing := by cases x <;> rfl

@[simp] theorem missing_div : missing / x = missing := by cases x <;> rfl

@[simp] theorem div_missing : x / missing = missing := by cases x <;> rfl

@[simp] theorem ofInt_eq (n : ℤ) : (Scalar.ofInt n : Exact) = number n := rfl

@[simp] theorem zero_eq : (Scalar.zero : Exact) = number 0 := by simp [Scalar.zero]

@[simp] theorem one_eq : (Scalar.one : Exact) = number 1 := by simp [Scalar.one]

@[simp] theorem nan_eq : (Scalar.nan : Exact) = missing := rfl

/-- No zero has a sign here. -/
@[simp] theorem unsignZero_eq : Scalar.unsignZero x = x := by
  cases x <;> simp [Scalar.unsignZero]

@[simp] theorem eq_number : Scalar.eq (number a) (number b) = decide (a = b) := by
  simp [Scalar.eq, compares]

@[simp] theorem lt_number : Scalar.lt (number a) (number b) = decide (a < b) := by
  simp [Scalar.lt, compares]

@[simp] theorem le_number : Scalar.le (number a) (number b) = decide (a ≤ b) := by
  simp [Scalar.le, compares]

@[simp] theorem eq_missing : Scalar.eq missing x = false := by cases x <;> rfl

@[simp] theorem lt_missing : Scalar.lt missing x = false := by cases x <;> rfl

@[simp] theorem le_missing : Scalar.le missing x = false := by cases x <;> rfl

/-- Only a number is equal to anything, and only to itself. -/
theorem eq_iff : Scalar.eq x y = true ↔ ∃ r, x = number r ∧ y = number r := by
  cases x <;> cases y <;> simp [Scalar.eq, compares, eq_comm]

/-- Only numbers are less than others. -/
theorem lt_iff : Scalar.lt x y = true ↔ ∃ r s, x = number r ∧ y = number s ∧ r < s := by
  cases x <;> cases y <;> simp [Scalar.lt, compares]

/-- Only numbers can be whole. -/
theorem isWhole_iff : Scalar.isWhole x = true ↔ ∃ n : ℤ, x = number n := by
  cases x with
  | missing => simp [Scalar.isWhole]
  | number a =>
    simp only [Scalar.isWhole, decide_eq_true_eq, number.injEq]
    exact exists_congr fun n => eq_comm

/-- Only the same numbers are in the same place of the order. -/
theorem order_eq_iff : Scalar.order x y = .eq ↔ x = y := by
  cases x <;> cases y <;> simp [Scalar.order, order]

end Rules

/-- The exact numbers have the laws of scalars. -/
instance : Scalar.Lawful Exact where
  order_trans := {
    eq_swap {x y} := by
      cases x <;> cases y <;> simp only [Scalar.order, order, Ordering.swap]
      exact Std.OrientedOrd.eq_swap
    isLE_trans {x y z} hxy hyz := by
      cases x <;> cases y <;> cases z <;> simp only [Scalar.order, order] at *
      all_goals first | exact Std.TransCmp.isLE_trans hxy hyz | contradiction | rfl }
  eq_unsignZero a := by rw [unsignZero_eq]
  eq_one := by simp
  eq_unsignZero_one := by simp
  eq_neg_zero a := by
    rw [Bool.eq_iff_iff]
    cases a <;> simp
  eq_minusOne_zero := by simp
  eq_zero_of_order a h := by
    rw [unsignZero_eq, order_eq_iff] at h
    simp [h]

end Exact

end SymbolicAlgebra
