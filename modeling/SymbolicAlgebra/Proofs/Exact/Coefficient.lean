import SymbolicAlgebra.Proofs.Exact.Power

/-!
# Coefficients of exact numbers

The value of a fraction does not depend on how far it is reduced, so that computing with coefficients
is computing with their values. A coefficient whose denominator is zero has no meaning.
-/

namespace SymbolicAlgebra

open Exact Projective

namespace Projective

variable {x y : Exact}

@[simp] theorem ofExact_number (r : ℝ) : ofExact (number r) = finite r := rfl

@[simp] theorem ofExact_missing : ofExact missing = absent := rfl

/-- Sums of exact numbers are sums of what they mean. -/
theorem ofExact_add (x y : Exact) : ofExact (x + y) = ofExact x + ofExact y := by
  cases x <;> cases y <;> simp

/-- Products of exact numbers are products of what they mean. -/
theorem ofExact_mul (x y : Exact) : ofExact (x * y) = ofExact x * ofExact y := by
  cases x <;> cases y <;> simp

/-- The opposite of an exact number is minus one times what it means. -/
theorem ofExact_neg (x : Exact) : ofExact (-x) = finite (-1) * ofExact x := by
  cases x <;> simp

/-- Differences of exact numbers are differences of what they mean. -/
theorem ofExact_sub (x y : Exact) : ofExact (x - y) = ofExact x + finite (-1) * ofExact y := by
  cases x <;> cases y <;> simp [sub_eq_add_neg]

/-- What is equal to a number means the same. -/
theorem ofExact_of_eq {r : ℝ} (h : Scalar.eq x (number r) = true) : ofExact x = finite r := by
  obtain ⟨s, rfl, hs⟩ := eq_iff.mp h
  exact congrArg ofExact hs.symm

end Projective

namespace Exact

/-- Squaring from the lowest bit on multiplies by the power. -/
theorem powLoop_number (fuel n : ℕ) (r a : ℝ) (h : n < 2 ^ fuel) :
    Scalar.powLoop fuel (number r) (number a) n = number (r * a ^ n) := by
  induction fuel generalizing n r a with
  | zero =>
    obtain rfl : n = 0 := by omega
    rw [Scalar.powLoop, pow_zero, mul_one]
  | succ fuel ih =>
    have hstep : (if n % 2 = 1 then number r * number a else number r) =
        number (r * a ^ (n % 2)) := by
      obtain hn | hn := Nat.mod_two_eq_zero_or_one n <;> simp [hn]
    have hhalf : n / 2 < 2 ^ fuel := by
      rw [pow_succ] at h
      omega
    rw [Scalar.powLoop, hstep]
    split
    · rename_i hzero
      rw [show n % 2 = n by omega]
    · rw [number_mul, ih _ _ _ hhalf, mul_assoc, ← sq, ← pow_mul, ← pow_add, Nat.mod_add_div]

/-- A missing base has no positive powers. -/
theorem powLoop_missing (fuel n : ℕ) (x : Exact) (h : n < 2 ^ fuel) (hn : 0 < n) :
    Scalar.powLoop fuel x missing n = missing := by
  induction fuel generalizing n x with
  | zero => omega
  | succ fuel ih =>
    rw [Scalar.powLoop]
    split
    · rename_i hzero
      rw [if_pos (by omega), mul_missing]
    · rename_i hhalf
      rw [missing_mul]
      refine ih _ _ ?_ (Nat.pos_of_ne_zero hhalf)
      rw [pow_succ] at h
      omega

/-- A power by repeated squaring is the power. -/
theorem npow_number (a : ℝ) (n : ℕ) : Scalar.npow (number a) n = number (a ^ n) := by
  rw [Scalar.npow, one_eq, powLoop_number _ _ _ _ Nat.lt_log2_self, one_mul]

/-- A missing base has no positive powers. -/
theorem npow_missing {n : ℕ} (h : 0 < n) : Scalar.npow missing n = missing :=
  powLoop_missing _ _ _ Nat.lt_log2_self h

end Exact

namespace Coefficient

/-- What a coefficient means. -/
noncomputable def meaning (c : Coefficient Exact) : Projective := ofExact c.value

/-- A fraction of exact numbers has a divisor other than zero, or it has no value. -/
theorem fraction_cases (n d : Exact) :
    (∃ a b : ℝ, n = number a ∧ d = number b ∧ b ≠ 0) ∨ n = missing ∨ d = missing ∨ d = number 0 := by
  cases n with
  | missing => exact .inr (.inl rfl)
  | number a =>
    cases d with
    | missing => exact .inr (.inr (.inl rfl))
    | number b =>
      obtain rfl | hb := eq_or_ne b 0
      · exact .inr (.inr (.inr rfl))
      · exact .inl ⟨a, b, rfl, rfl, hb⟩

/-- Dividing both parts by the same positive integer keeps the quotient. -/
theorem div_div_same (n d : Exact) {k : ℕ} (hk : 1 < k) :
    n / Scalar.ofInt k / (d / Scalar.ofInt k) = n / d := by
  have hk' : (k : ℝ) ≠ 0 := Nat.cast_ne_zero.mpr (by omega)
  rw [ofInt_eq, Int.cast_natCast]
  obtain ⟨a, b, rfl, rfl, hb⟩ | rfl | rfl | rfl := fraction_cases n d
  · rw [number_div hk', number_div hk', number_div (div_ne_zero hb hk'), number_div hb,
      div_div_div_cancel_right₀ hk']
  · simp
  · simp
  · rw [number_div hk', zero_div, div_number_zero, div_number_zero]

/-- Changing both signs keeps the quotient. -/
theorem neg_div_neg_same (n d : Exact) : -n / -d = n / d := by
  obtain ⟨a, b, rfl, rfl, hb⟩ | rfl | rfl | rfl := fraction_cases n d
  · rw [neg_number, neg_number, number_div (neg_ne_zero.mpr hb), number_div hb, neg_div_neg_eq]
  · simp
  · simp
  · rw [neg_number, neg_zero, div_number_zero, div_number_zero]

/-- Reducing a fraction keeps its value. -/
@[simp] theorem value_ofFraction (n d : Exact) : (ofFraction n d).value = n / d := by
  have hone (x : Exact) : x / number 1 = x := by
    cases x with
    | missing => simp
    | number a => rw [number_div one_ne_zero, div_one]
  have hreduce (n d : Exact) :
      (if isExact n && isExact d then
        if 1 < Int.gcd (Scalar.toInt n) (Scalar.toInt d) then
          (⟨Scalar.unsignZero (n / Scalar.ofInt (Int.gcd (Scalar.toInt n) (Scalar.toInt d))),
            d / Scalar.ofInt (Int.gcd (Scalar.toInt n) (Scalar.toInt d))⟩ : Coefficient Exact)
        else ⟨Scalar.unsignZero n, d⟩
      else ⟨Scalar.unsignZero (n / d), Scalar.one⟩).value = n / d := by
    split
    · split
      · rename_i hdivisor
        rw [value, unsignZero_eq, div_div_same n d hdivisor]
      · rw [value, unsignZero_eq]
    · rw [value, unsignZero_eq, Exact.one_eq, hone]
  cases hflip : Scalar.lt d Scalar.zero with
  | false =>
    simp only [ofFraction, hflip, Bool.false_eq_true, if_false]
    exact hreduce n d
  | true =>
    simp only [ofFraction, hflip, if_true]
    rw [hreduce (-n) (-d), neg_div_neg_same]

/-- The coefficient of a number means the number. -/
@[simp] theorem meaning_ofScalar (x : Exact) : (ofScalar x).meaning = ofExact x := by
  rw [meaning, ofScalar, value_ofFraction, Exact.one_eq]
  cases x with
  | missing => simp
  | number a => rw [number_div one_ne_zero, div_one]

@[simp] theorem meaning_one : (one : Coefficient Exact).meaning = 1 := by
  rw [meaning, one, value, Exact.one_eq, number_div one_ne_zero, div_one]
  rfl

@[simp] theorem meaning_minusOne : (minusOne : Coefficient Exact).meaning = finite (-1) := by
  rw [meaning, minusOne, value, Exact.one_eq, ofInt_eq, number_div one_ne_zero, div_one]
  simp

/-- The sum of coefficients is that of their values. -/
theorem value_add (a b : Coefficient Exact) : (a + b).value = a.value + b.value := by
  obtain ⟨n, d⟩ := a
  obtain ⟨m, e⟩ := b
  change (ofFraction (n * e + m * d) (d * e)).value = n / d + m / e
  rw [value_ofFraction]
  obtain ⟨n, d, rfl, rfl, hd⟩ | rfl | rfl | rfl := fraction_cases n d
  · obtain ⟨m, e, rfl, rfl, he⟩ | rfl | rfl | rfl := fraction_cases m e
    · rw [number_div hd, number_div he, number_mul, number_mul, number_mul, number_add,
        number_div (mul_ne_zero hd he), number_add, div_add_div _ _ hd he, mul_comm m d]
    · simp
    · simp
    · simp
  · simp
  · simp
  · cases e <;> simp

/-- The product of coefficients is that of their values. -/
theorem value_mul (a b : Coefficient Exact) : (a * b).value = a.value * b.value := by
  obtain ⟨n, d⟩ := a
  obtain ⟨m, e⟩ := b
  change (ofFraction (n * m) (d * e)).value = n / d * (m / e)
  rw [value_ofFraction]
  obtain ⟨n, d, rfl, rfl, hd⟩ | rfl | rfl | rfl := fraction_cases n d
  · obtain ⟨m, e, rfl, rfl, he⟩ | rfl | rfl | rfl := fraction_cases m e
    · rw [number_div hd, number_div he, number_mul, number_mul, number_mul,
        number_div (mul_ne_zero hd he), div_mul_div_comm]
    · simp
    · simp
    · simp
  · simp
  · simp
  · cases e <;> simp

/-- The opposite of a coefficient has the opposite value. -/
theorem value_neg (a : Coefficient Exact) : (-a).value = -a.value := by
  obtain ⟨n, d⟩ := a
  change Scalar.unsignZero (-n) / d = -(n / d)
  rw [unsignZero_eq]
  obtain ⟨n, d, rfl, rfl, hd⟩ | rfl | rfl | rfl := fraction_cases n d
  · rw [neg_number, number_div hd, number_div hd, neg_number, neg_div]
  · simp
  · simp
  · simp

/-- The power of a coefficient is that of its value. -/
theorem value_zpow (a : Coefficient Exact) {k : ℕ} (hk : 0 < k) :
    (a.zpow k).value = Scalar.npow a.value k := by
  obtain ⟨n, d⟩ := a
  change (ofFraction (Scalar.npow n k) (Scalar.npow d k)).value = Scalar.npow (n / d) k
  rw [value_ofFraction]
  obtain ⟨n, d, rfl, rfl, hd⟩ | rfl | rfl | rfl := fraction_cases n d
  · rw [npow_number, npow_number, number_div hd, number_div (pow_ne_zero k hd), npow_number, div_pow]
  · simp [npow_missing hk]
  · simp [npow_missing hk]
  · rw [npow_number, zero_pow hk.ne', div_number_zero, div_number_zero, npow_missing hk]

/-- Adding coefficients adds what they mean. -/
theorem meaning_add (a b : Coefficient Exact) : (a + b).meaning = a.meaning + b.meaning := by
  rw [meaning, value_add, ofExact_add]
  rfl

/-- Multiplying coefficients multiplies what they mean. -/
theorem meaning_mul (a b : Coefficient Exact) : (a * b).meaning = a.meaning * b.meaning := by
  rw [meaning, value_mul, ofExact_mul]
  rfl

/-- The opposite of a coefficient means minus one times as much. -/
theorem meaning_neg (a : Coefficient Exact) : (-a).meaning = finite (-1) * a.meaning := by
  rw [meaning, value_neg, ofExact_neg]
  rfl

/-- Dividing by a coefficient other than zero divides what the coefficients mean. -/
theorem meaning_mul_inv_le (a : Coefficient Exact) {b : Coefficient Exact} (h : b.isZero = false) :
    a.meaning * b.meaning⁻¹ ≤ (a / b).meaning := by
  obtain ⟨n, d⟩ := a
  obtain ⟨m, e⟩ := b
  have hm : m ≠ number 0 := by
    rintro rfl
    simp [isZero] at h
  change ofExact (n / d) * (ofExact (m / e))⁻¹ ≤ ofExact (ofFraction (n * e) (d * m)).value
  rw [value_ofFraction]
  obtain ⟨n, d, rfl, rfl, hd⟩ | rfl | rfl | rfl := fraction_cases n d
  · obtain ⟨m, e, rfl, rfl, he⟩ | rfl | rfl | rfl := fraction_cases m e
    · have hm : m ≠ 0 := fun h => hm (congrArg number h)
      rw [number_div hd, number_div he, number_mul, number_mul, number_div (mul_ne_zero hd hm),
        ofExact_number, ofExact_number, ofExact_number, inv_finite (div_ne_zero hm he),
        finite_mul_finite, inv_div, div_mul_div_comm]
    · simp
    · simp
    · simp
  · simp
  · simp
  · simp

/-- The power of a coefficient means the power of what it means. -/
theorem meaning_zpow (a : Coefficient Exact) {k : ℕ} (hk : 0 < k) :
    (a.zpow k).meaning = a.meaning ^ k := by
  rw [meaning, meaning, value_zpow a hk, ← power_natCast _ hk]
  cases a.value with
  | missing => simp [npow_missing hk]
  | number r => rw [npow_number, ofExact_number, ofExact_number, finite_power_finite,
      realPower_natCast r hk]

/-- The coefficient one means one. -/
theorem meaning_of_isOne {a : Coefficient Exact} (h : a.isOne = true) : a.meaning = 1 := by
  obtain ⟨n, d⟩ := a
  rw [isOne, Bool.and_eq_true, Exact.one_eq, eq_iff, eq_iff] at h
  obtain ⟨⟨r, hn, hr⟩, s, hd, hs⟩ := h
  rw [meaning, value, hn, hd, ← hr, ← hs, number_div one_ne_zero, div_one]
  rfl

/-- The coefficient zero means zero, if anything. -/
theorem meaning_le_of_isZero {a : Coefficient Exact} (h : a.isZero = true) :
    a.meaning ≤ finite 0 := by
  obtain ⟨n, d⟩ := a
  rw [isZero, Exact.zero_eq, eq_iff] at h
  obtain ⟨r, hn, hr⟩ := h
  obtain rfl : n = number 0 := hn.trans hr.symm
  change ofExact (number 0 / d) ≤ _
  obtain ⟨n, d, -, rfl, hd⟩ | h | rfl | rfl := fraction_cases (number 0) d
  · rw [number_div hd, zero_div, ofExact_number]
  · cases h
  · simp
  · simp

/-- The coefficient of a number other than zero is not zero. -/
theorem isZero_ofScalar {x : Exact} (h : Scalar.eq x Scalar.zero = false) :
    (ofScalar x).isZero = false := by
  cases x with
  | missing => simp [ofScalar, ofFraction, isZero, isExact, Scalar.isWhole]
  | number r =>
    by_contra hzero
    have hle := meaning_le_of_isZero (Bool.not_eq_false _ ▸ hzero)
    rw [meaning_ofScalar, ofExact_number, finite_le_iff] at hle
    cases hle
    simp at h

/-- Coefficients that count as equal mean the same. -/
theorem value_eq_of_order_eq {a b : Coefficient Exact} (h : a.order b = .eq) :
    a.value = b.value := by
  rw [order, Ordering.then_eq_eq] at h
  exact order_eq_iff.mp h.1

end Coefficient

end SymbolicAlgebra
