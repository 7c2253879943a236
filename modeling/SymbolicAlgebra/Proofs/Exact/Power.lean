import SymbolicAlgebra.Proofs.Exact.Projective

/-!
# Powers of projective numbers

Powers to real exponents. Zero to a negative exponent is infinite here, so that a power to the
opposite exponent is the reciprocal, whatever the base is; only a negative base with a fraction as
exponent has no power. The laws for sums and products of exponents follow where the powers that
they start from have a meaning.
-/

namespace SymbolicAlgebra.Projective

open Exact (Whole)

open scoped Classical in
/-- The power of a real base. -/
noncomputable def realPower (a e : ℝ) : Projective :=
  if a < 0 ∧ ¬ Whole e then absent
  else if a = 0 ∧ e < 0 then infinite
  else finite (a ^ e)

/-- The power to a real exponent; infinity is the reciprocal of zero. -/
noncomputable def powerTo (e : ℝ) : Projective → Projective
  | absent => absent
  | infinite => (realPower 0 e)⁻¹
  | finite a => realPower a e

/-- The power of a base, which only real exponents have. -/
noncomputable def power (p : Projective) : Projective → Projective
  | finite e => powerTo e p
  | _ => absent

section Real

variable {a e f : ℝ}

/-- A base has the powers that exact numbers have. -/
theorem realPower_of_hasPower (h : Exact.HasPower a e) : realPower a e = finite (a ^ e) := by
  rw [realPower, if_neg fun h' => h'.2 (h.1 h'.1), if_neg fun h' => (h.2 h'.1).not_gt h'.2]

/-- A positive base has all powers. -/
theorem realPower_of_pos (h : 0 < a) : realPower a e = finite (a ^ e) := by
  rw [realPower, if_neg fun h' => h'.1.not_gt h, if_neg fun h' => h.ne' h'.1]

/-- A base other than zero has all powers to whole exponents. -/
theorem realPower_intCast (h : a ≠ 0) (n : ℤ) : realPower a n = finite (a ^ n) := by
  rw [realPower, if_neg fun h' => h'.2 ⟨n, rfl⟩, if_neg fun h' => h h'.1, Real.rpow_intCast]

/-- A negative base has no power to a fraction. -/
theorem realPower_of_not_whole (h : a < 0) (he : ¬ Whole e) : realPower a e = absent :=
  if_pos ⟨h, he⟩

/-- A power of zero to a positive exponent is zero. -/
theorem realPower_zero_of_pos (h : 0 < e) : realPower 0 e = finite 0 := by
  rw [realPower, if_neg fun h' => h'.1.false, if_neg fun h' => h'.2.not_gt h,
    Real.zero_rpow h.ne']

/-- A power of zero to a negative exponent is infinite. -/
theorem realPower_zero_of_neg (h : e < 0) : realPower 0 e = infinite := by
  rw [realPower, if_neg fun h' => h'.1.false, if_pos ⟨rfl, h⟩]

/-- A power to zero is one. -/
@[simp] theorem realPower_zero_right (a : ℝ) : realPower a 0 = finite 1 := by
  rw [realPower, if_neg fun h' => h'.2 ⟨0, Int.cast_zero⟩, if_neg fun h' => h'.2.false,
    Real.rpow_zero]

/-- A power to one is the base. -/
@[simp] theorem realPower_one_right (a : ℝ) : realPower a 1 = finite a := by
  rw [realPower, if_neg fun h' => h'.2 ⟨1, Int.cast_one⟩, if_neg fun h' => h'.2.not_gt one_pos,
    Real.rpow_one]

/-- Powers of the same base are multiplied by adding their exponents. -/
theorem realPower_mul_le (a e f : ℝ) : realPower a e * realPower a f ≤ realPower a (e + f) := by
  obtain ha | rfl | ha := lt_trichotomy a 0
  · by_cases he : Whole e
    · by_cases hf : Whole f
      · obtain ⟨m, rfl⟩ := he
        obtain ⟨n, rfl⟩ := hf
        rw [← Int.cast_add, realPower_intCast ha.ne, realPower_intCast ha.ne,
          realPower_intCast ha.ne, zpow_add₀ ha.ne]
        exact le_rfl
      · rw [realPower_of_not_whole ha hf, mul_absent]
        exact absent_le
    · rw [realPower_of_not_whole ha he, absent_mul]
      exact absent_le
  · have swap : infinite * finite 0 = absent := by rw [mul_swap, zero_mul_infinite]
    obtain he | rfl | he := lt_trichotomy e 0
    · obtain hf | rfl | hf := lt_trichotomy f 0
      · rw [realPower_zero_of_neg he, realPower_zero_of_neg hf,
          realPower_zero_of_neg (add_neg he hf)]
        exact le_rfl
      · rw [realPower_zero_right, add_zero, ← one_eq, mul_one]
      · rw [realPower_zero_of_neg he, realPower_zero_of_pos hf, swap]
        exact absent_le
    · rw [realPower_zero_right, zero_add, ← one_eq, one_mul]
    · obtain hf | rfl | hf := lt_trichotomy f 0
      · rw [realPower_zero_of_pos he, realPower_zero_of_neg hf, zero_mul_infinite]
        exact absent_le
      · rw [realPower_zero_right, add_zero, ← one_eq, mul_one]
      · rw [realPower_zero_of_pos he, realPower_zero_of_pos hf,
          realPower_zero_of_pos (add_pos he hf), finite_mul_finite, zero_mul]
  · rw [realPower_of_pos ha, realPower_of_pos ha, realPower_of_pos ha, Real.rpow_add ha]
    exact le_rfl

/-- A power to the opposite exponent is the reciprocal. -/
theorem realPower_neg (a e : ℝ) : realPower a (-e) = (realPower a e)⁻¹ := by
  obtain ha | rfl | ha := lt_trichotomy a 0
  · by_cases he : Whole e
    · obtain ⟨n, rfl⟩ := he
      rw [← Int.cast_neg, realPower_intCast ha.ne, realPower_intCast ha.ne,
        inv_finite (zpow_ne_zero n ha.ne), zpow_neg]
    · have hneg : ¬ Whole (-e) := fun ⟨n, hn⟩ => he ⟨-n, by rw [Int.cast_neg, hn, neg_neg]⟩
      rw [realPower_of_not_whole ha he, realPower_of_not_whole ha hneg, inv_absent]
  · obtain he | rfl | he := lt_trichotomy e 0
    · rw [realPower_zero_of_neg he, realPower_zero_of_pos (neg_pos.mpr he), inv_infinite]
    · rw [neg_zero, realPower_zero_right, inv_finite one_ne_zero, inv_one]
    · rw [realPower_zero_of_pos he, realPower_zero_of_neg (neg_lt_zero.mpr he), inv_zero]
  · rw [realPower_of_pos ha, realPower_of_pos ha, inv_finite (Real.rpow_pos_of_pos ha e).ne',
      Real.rpow_neg ha.le]

/-- A power to a positive whole exponent is a product of as many factors. -/
theorem realPower_natCast (a : ℝ) {k : ℕ} (hk : 0 < k) : realPower a k = finite (a ^ k) := by
  obtain rfl | ha := eq_or_ne a 0
  · rw [realPower_zero_of_pos (Nat.cast_pos.mpr hk), zero_pow hk.ne']
  · rw [← Int.cast_natCast, realPower_intCast ha, zpow_natCast]

end Real

variable {p q : Projective}

@[simp] theorem absent_power : power absent q = absent := by cases q <;> rfl

@[simp] theorem power_absent : power p absent = absent := rfl

@[simp] theorem power_infinite : power p infinite = absent := rfl

@[simp] theorem finite_power_finite (a e : ℝ) :
    power (finite a) (finite e) = realPower a e := rfl

/-- The powers of infinity are the reciprocals of those of zero. -/
theorem infinite_power (q : Projective) : power infinite q = (power (finite 0) q)⁻¹ := by
  cases q <;> rfl

/-- Powers of what is below are below. -/
theorem power_mono {p' q' : Projective} (hp : p ≤ p') (hq : q ≤ q') : power p q ≤ power p' q' := by
  obtain rfl | rfl := hp
  · simp
  · exact mono_of_absent power_absent hq

/-- A power to zero is one, if it has a meaning. -/
theorem power_zero_le (p : Projective) : power p (finite 0) ≤ 1 := by
  cases p with
  | absent => simp
  | infinite => rw [infinite_power, finite_power_finite, realPower_zero_right, ← one_eq, inv_one]
  | finite a => rw [finite_power_finite, realPower_zero_right, one_eq]

/-- A power to one is its base. -/
@[simp] theorem power_one (p : Projective) : power p (finite 1) = p := by
  cases p with
  | absent => simp
  | infinite => rw [infinite_power, finite_power_finite, realPower_one_right, inv_zero]
  | finite a => rw [finite_power_finite, realPower_one_right]

/-- The powers of one are one, if they have a meaning. -/
theorem one_power_le (q : Projective) : power (finite 1) q ≤ 1 := by
  cases q with
  | finite e => rw [finite_power_finite, realPower_of_pos one_pos, Real.one_rpow, one_eq]
  | _ => simp

/-- Powers of the same base are multiplied by adding their exponents. -/
theorem power_mul_power_le (p q q' : Projective) : power p q * power p q' ≤ power p (q + q') := by
  cases q with
  | finite e =>
    cases q' with
    | finite f =>
      cases p with
      | absent => simp
      | finite a => exact realPower_mul_le a e f
      | infinite =>
        rw [infinite_power, infinite_power, infinite_power, ← mul_inv]
        exact inv_mono (realPower_mul_le 0 e f)
    | _ => simp
  | _ => simp

/-- A power to the opposite exponent is the reciprocal. -/
theorem power_neg (p q : Projective) : power p (finite (-1) * q) = (power p q)⁻¹ := by
  cases q with
  | absent => simp
  | infinite => simp [finite_mul_infinite]
  | finite e =>
    rw [finite_mul_finite, neg_one_mul]
    cases p with
    | absent => simp
    | finite a => exact realPower_neg a e
    | infinite => rw [infinite_power, infinite_power, finite_power_finite, realPower_neg]; rfl

/-- A bound on a power to the opposite exponent is one on the reciprocal of the power. -/
theorem power_le_inv {r : Projective} (h : power p (finite (-1) * q) ≤ r) : power p q ≤ r⁻¹ := by
  rw [power_neg] at h
  calc power p q = ((power p q)⁻¹)⁻¹ := (inv_inv _).symm
    _ ≤ r⁻¹ := inv_mono h

/-- A power to a positive whole exponent is a product of as many factors. -/
theorem power_natCast (p : Projective) {k : ℕ} (hk : 0 < k) : power p (finite k) = p ^ k := by
  have finite_pow (a : ℝ) (n : ℕ) : finite a ^ n = finite (a ^ n) := by
    induction n with
    | zero => rw [pow_zero, pow_zero, one_eq]
    | succ n ih => rw [pow_succ, ih, finite_mul_finite, pow_succ]
  cases p with
  | absent =>
    obtain ⟨n, rfl⟩ := Nat.exists_eq_add_of_lt hk
    rw [absent_power, pow_succ, mul_absent]
  | finite a => rw [finite_power_finite, realPower_natCast a hk, finite_pow]
  | infinite =>
    rw [infinite_power, finite_power_finite, realPower_natCast 0 hk, ← finite_pow, ← inv_pow,
      inv_zero]

/-- What has a meaning has a power to every positive whole exponent. -/
theorem power_natCast_ne_absent (hp : p ≠ absent) {k : ℕ} (hk : 0 < k) :
    power p (finite k) ≠ absent := by
  cases p with
  | absent => exact (hp rfl).elim
  | finite a =>
    rw [finite_power_finite, realPower_natCast a hk]
    exact nofun
  | infinite =>
    rw [infinite_power, finite_power_finite, realPower_natCast 0 hk, zero_pow hk.ne', inv_zero]
    exact nofun

/-- Only to a real exponent there is a power, and only of what has a meaning. -/
theorem isFinite_of_power (h : power p q ≠ absent) : p ≠ absent ∧ q.IsFinite := by
  refine ⟨?_, ?_⟩
  · rintro rfl
    exact h absent_power
  · cases q with
    | finite e => exact isFinite_finite e
    | _ => exact (h rfl).elim

/-- A power to a positive whole exponent multiplies the exponent of a power. -/
theorem power_pow_le (p q : Projective) {k : ℕ} (hk : 0 < k) :
    power p q ^ k ≤ power p (finite k * q) := by
  induction k, hk using Nat.le_induction with
  | base => rw [pow_one, Nat.cast_one, ← one_eq, one_mul]
  | succ n hn ih =>
    calc power p q ^ (n + 1) = power p q ^ n * power p q := pow_succ _ _
      _ ≤ power p (finite n * q) * power p q := mul_le_mul_left ih _
      _ ≤ power p (finite n * q + q) := power_mul_power_le _ _ _
      _ ≤ power p (finite (n + 1 : ℕ) * q) := by
        refine power_mono le_rfl ?_
        have h := finite_mul_add_le n 1 q
        rwa [← one_eq, one_mul, ← Nat.cast_succ] at h

end SymbolicAlgebra.Projective
