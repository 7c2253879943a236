import SymbolicAlgebra.Proofs.Exact.Meaning
import SymbolicAlgebra.Proofs.Reduction.Operations

/-!
# Rules for functions keep what they mean

What is known about logarithms and about trigonometric functions at zero and at `pi` holds of what
they mean, wherever that is something.
-/

namespace SymbolicAlgebra

open Exact Projective

namespace Expr

/-- The logarithm of a positive number to a positive base other than one. -/
theorem logValue_of_pos {a r : ℝ} (ha : 0 < a) (hone : a ≠ 1) (hr : 0 < r) :
    logValue (Exact.number a) (Exact.number r) = .number (Real.log r / Real.log a) := by
  have hlog : Real.log a ≠ 0 := Real.log_ne_zero_of_pos_of_ne_one ha hone
  have hdivide : Scalar.log (Exact.number r) / Scalar.log (Exact.number a) =
      .number (Real.log r / Real.log a) := by
    change (if 0 < r then Exact.number (Real.log r) else missing) /
      (if 0 < a then Exact.number (Real.log a) else missing) = _
    rw [if_pos hr, if_pos ha, number_div hlog]
  rw [logValue, hdivide]
  simp [ha.not_ge, hone, hr.not_ge]

/-- There is no logarithm of a body that is not positive, nor to a base that is not positive or that
is one. -/
theorem logValue_of_not_pos {a r : ℝ} (h : ¬ (0 < a ∧ a ≠ 1 ∧ 0 < r)) :
    logValue (Exact.number a) (Exact.number r) = missing := by
  rw [logValue]
  have hguard : (Scalar.le (Exact.number a) Scalar.zero || Scalar.eq (Exact.number a) Scalar.one ||
      Scalar.le (Exact.number r) Scalar.zero) = true := by
    by_contra hguard
    simp only [Exact.zero_eq, Exact.one_eq, le_number, eq_number, Bool.or_eq_true,
      decide_eq_true_eq, not_or, not_le] at hguard
    exact h ⟨hguard.1.1, hguard.1.2, hguard.2⟩
  rw [hguard]
  rfl

end Expr

namespace Projective

/-- A logarithm has no meaning, or it is that of a positive number to a positive base. -/
theorem log_cases (p q : Projective) : p.log q = absent ∨ ∃ a r : ℝ, p = finite a ∧ q = finite r ∧
    0 < a ∧ a ≠ 1 ∧ 0 < r ∧ p.log q = finite (Real.log r / Real.log a) := by
  cases p with
  | finite a =>
    cases q with
    | finite r =>
      by_cases h : 0 < a ∧ a ≠ 1 ∧ 0 < r
      · obtain ⟨ha, hone, hr⟩ := h
        refine .inr ⟨a, r, rfl, rfl, ha, hone, hr, ?_⟩
        exact congrArg ofExact (Expr.logValue_of_pos ha hone hr)
      · exact .inl (congrArg ofExact (Expr.logValue_of_not_pos h))
    | _ => exact .inl rfl
  | _ => exact .inl rfl

/-- Only real numbers have a logarithm, and it is one. -/
theorem isFinite_of_log {p q : Projective} (h : p.log q ≠ absent) :
    p.IsFinite ∧ q.IsFinite ∧ (p.log q).IsFinite := by
  obtain habsent | ⟨a, r, rfl, rfl, -, -, -, hlog⟩ := log_cases p q
  · exact (h habsent).elim
  · exact ⟨isFinite_finite a, isFinite_finite r, _, hlog⟩

/-- Only at a real number a function has a value, and it is one. -/
theorem isFinite_of_apply {f : ℝ → Exact} {p : Projective} (h : p.apply f ≠ absent) :
    p.IsFinite ∧ (p.apply f).IsFinite := by
  cases p with
  | finite r => exact ⟨isFinite_finite r, isFinite_ofExact h⟩
  | _ => exact (h rfl).elim

@[simp] theorem absent_log (q : Projective) : absent.log q = absent := rfl

@[simp] theorem log_absent (p : Projective) : p.log absent = absent := by cases p <;> rfl

/-- Logarithms of what is below are below. -/
theorem log_mono {p p' q q' : Projective} (hp : p ≤ p') (hq : q ≤ q') : p.log q ≤ p'.log q' := by
  obtain rfl | rfl := hp
  · simp
  · exact mono_of_absent (log_absent p) hq

/-- Values of a function of what is below are below. -/
theorem apply_mono {f : ℝ → Exact} {p p' : Projective} (hp : p ≤ p') : p.apply f ≤ p'.apply f :=
  mono_of_absent (f := Projective.apply f) rfl hp

/-- The logarithm of its own base is one. -/
theorem log_self_le (p : Projective) : p.log p ≤ 1 := by
  obtain h | ⟨a, r, hp, hp', ha, hone, -, h⟩ := log_cases p p
  · rw [h]
    exact absent_le
  · rw [h, Projective.one_eq]
    rw [hp] at hp'
    cases hp'
    rw [div_self (Real.log_ne_zero_of_pos_of_ne_one ha hone)]

/-- The logarithm of one is zero. -/
theorem log_one_le (p : Projective) : p.log (finite 1) ≤ finite 0 := by
  obtain h | ⟨a, r, -, hr, -, -, -, h⟩ := log_cases p (finite 1)
  · rw [h]
    exact absent_le
  · cases hr
    rw [h, Real.log_one, zero_div]

/-- The logarithm of a power of its base is the exponent. -/
theorem log_power_le (p q : Projective) : p.log (p.power q) ≤ q := by
  obtain h | ⟨a, r, rfl, hr, ha, hone, -, h⟩ := log_cases p (p.power q)
  · rw [h]
    exact absent_le
  · rw [h]
    cases q with
    | finite e =>
      rw [finite_power_finite, realPower_of_pos ha] at hr
      cases hr
      rw [Real.log_rpow ha, mul_div_cancel_right₀ _ (Real.log_ne_zero_of_pos_of_ne_one ha hone)]
    | _ => cases hr

/-- The power of a base to a logarithm to this base is the body. -/
theorem power_log_le (p q : Projective) : p.power (p.log q) ≤ q := by
  obtain h | ⟨a, r, rfl, rfl, ha, hone, hr, h⟩ := log_cases p q
  · rw [h]
    exact absent_le
  · rw [h, finite_power_finite, realPower_of_pos ha, Real.rpow_def_of_pos ha,
      mul_div_cancel₀ _ (Real.log_ne_zero_of_pos_of_ne_one ha hone), Real.exp_log hr]

end Projective

namespace Reduction

open SymbolicAlgebra.Expr

variable {b : Bindings Exact}

/-- A logarithm of literals means the quotient of their logarithms. -/
theorem log_le_quotient (x y : Exact) :
    (ofExact x).log (ofExact y) ≤ ofExact (Scalar.log y / Scalar.log x) := by
  obtain hlog | ⟨a, r, hx, hy, ha, hone, hr, hlog⟩ := log_cases (ofExact x) (ofExact y)
  · rw [hlog]
    exact absent_le
  · cases x with
    | missing => cases hx
    | number x =>
      cases y with
      | missing => cases hy
      | number y =>
        cases hx
        cases hy
        have hquotient := logValue_of_pos ha hone hr
        rw [logValue, if_neg (by simp [ha.not_ge, hone, hr.not_ge])] at hquotient
        rw [hlog, hquotient, ofExact_number]

/-- The rule for logarithms keeps what they mean unless it rounds one to a whole number. -/
theorem meaning_logRule {base body : Expr Exact} (hunrounded : (Operation.log base body).Unrounded) :
    (base.meaning b).log (body.meaning b) ≤ (logRule base body).value.meaning b := by
  have outcome := logOutcome base body
  generalize (logRule base body).value = e at outcome
  cases outcome with
  | self h =>
    rw [meaning_eq_of_beq h, meaning_one]
    exact log_self_le _
  | bodyOne h =>
    rw [Exact.one_eq] at h
    rw [meaning_of_isReal h, meaning_zero]
    exact log_one_le _
  | power h =>
    rw [meaning, meaning_eq_of_beq h]
    exact log_power_le _ _
  | literal hx hy hv =>
    rw [meaning_of_real? hx, meaning_of_real? hy, meaning_real, hunrounded _ _ _ hx hy hv]
    exact log_le_quotient _ _
  | stays _ => rw [meaning]

/-- The tangent is that of the reals where the cosine is not close to zero. -/
theorem tan_value {r : ℝ} (h : 1 ≤ |Real.cos r|) :
    Trig.tan.value (Exact.number r) = .number (Real.tan r) := by
  have hfar : ¬ |Real.cos r| < ((1 : ℕ) : ℝ) * 10 ^ (-12 : ℤ) := by
    rw [not_lt]
    refine le_trans ?_ h
    norm_num
  have hguard : Scalar.lt (Scalar.abs (Scalar.cos (Exact.number r))) Trig.poleTolerance = false := by
    change compares (· < ·) (Exact.number _) (Exact.number _) = false
    exact decide_eq_false hfar
  rw [Trig.value, hguard]
  rfl

/-- The values of the trigonometric functions at zero are as they are known. -/
theorem ofExact_value_zero (f : Trig) :
    ofExact (f.value (.number 0)) = (trigAtZero f).meaning b := by
  cases f with
  | sin => exact congrArg finite Real.sin_zero |>.trans meaning_zero.symm
  | cos => exact congrArg finite Real.cos_zero |>.trans meaning_one.symm
  | tan =>
    rw [tan_value (by rw [Real.cos_zero, abs_one]), Real.tan_zero]
    exact meaning_zero.symm

/-- The values of the trigonometric functions at `pi` are as they are known. -/
theorem ofExact_value_pi (f : Trig) :
    ofExact (f.value (.number Real.pi)) = (trigAtPi f).meaning b := by
  cases f with
  | sin => exact congrArg finite Real.sin_pi |>.trans meaning_zero.symm
  | cos =>
    rw [trigAtPi, meaning_real, ofInt_eq]
    exact congrArg finite (Real.cos_pi.trans (by norm_num))
  | tan =>
    rw [tan_value (by rw [Real.cos_pi, abs_neg, abs_one]), Real.tan_pi]
    exact meaning_zero.symm

/-- The rule for trigonometric functions keeps what they mean. -/
theorem meaning_trigRule (f : Trig) (body : Expr Exact) :
    ((body.meaning b).apply fun r => f.value (Exact.number r)) ≤
      (trigRule f body).value.meaning b := by
  have outcome := trigOutcome f body
  generalize (trigRule f body).value = e at outcome
  cases outcome with
  | zero h =>
    refine (apply_mono (meaning_le_of_isZero h)).trans ?_
    change ofExact (f.value (.number 0)) ≤ _
    rw [ofExact_value_zero]
  | pi h =>
    have hpi : body.meaning b = finite Real.pi := meaning_eq_of_beq h
    rw [hpi]
    change ofExact (f.value (.number Real.pi)) ≤ _
    rw [ofExact_value_pi]
  | stays => rw [meaning]

end Reduction

end SymbolicAlgebra
