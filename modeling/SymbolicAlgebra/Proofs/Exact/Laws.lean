import SymbolicAlgebra.Proofs.Exact.Basic
import SymbolicAlgebra.Proofs.Scalar.Zeros

/-!
# Laws of exact numbers

Exact numbers have the laws that the doubles have, and those that are assumed of the elementary
functions. As nothing is rounded, a product of numbers is zero only if one of them is.
-/

namespace SymbolicAlgebra.Exact

open Scalar (isNaN Propagating Elementary)

/-- Nothing is missing but what is no number. -/
theorem isNaN_iff {x : Exact} : isNaN x = true ↔ x = missing := by
  cases x <;> simp [isNaN]

/-- Exact numbers keep what is missing. -/
instance : Propagating Exact where
  isNaN_nan := rfl
  isNaN_add x y h := by
    rw [isNaN_iff, isNaN_iff] at h
    obtain rfl | rfl := h <;> simp [isNaN_iff]
  isNaN_mul x y h := by
    rw [isNaN_iff, isNaN_iff] at h
    obtain rfl | rfl := h <;> simp [isNaN_iff]
  isNaN_div x y h := by
    rw [isNaN_iff, isNaN_iff] at h
    obtain rfl | rfl := h <;> simp [isNaN_iff]
  eq_of_isNaN x y h := by
    rw [isNaN_iff.mp h, eq_missing]
  lt_of_isNaN x y h := by
    rw [isNaN_iff, isNaN_iff] at h
    obtain rfl | rfl := h
    · exact lt_missing
    · cases x <;> rfl
  isWhole_of_isNaN x h := by
    rw [isNaN_iff.mp h]
    rfl

/-- So do their elementary functions. -/
instance : Elementary Exact where
  lt_of_eq_one x h := by
    rw [one_eq] at h
    obtain ⟨r, rfl, hr⟩ := eq_iff.mp h
    cases hr
    simp
  isNaN_pow_left x y h hy := by
    rw [isNaN_iff] at h ⊢
    cases y with
    | missing => rw [h]; rfl
    | number e =>
      rw [zero_eq, eq_number, decide_eq_false_iff_not] at hy
      rw [h]
      exact if_neg hy
  isNaN_pow_right x y h hx := by
    rw [isNaN_iff] at h ⊢
    cases x with
    | missing => rw [h]; rfl
    | number a =>
      rw [one_eq, eq_number, decide_eq_false_iff_not] at hx
      rw [h]
      exact if_neg hx
  pow_zero x y h := by
    rw [zero_eq] at h
    obtain ⟨e, rfl, he⟩ := eq_iff.mp h
    cases he
    rw [one_eq]
    cases x with
    | missing => exact if_pos rfl
    | number a =>
      have hpower : HasPower a 0 := ⟨fun _ => ⟨0, Int.cast_zero⟩, fun _ => le_rfl⟩
      exact (if_pos hpower).trans (by rw [Real.rpow_zero])
  one_pow x y h := by
    rw [one_eq] at h
    obtain ⟨a, rfl, ha⟩ := eq_iff.mp h
    cases ha
    rw [one_eq]
    cases y with
    | missing => exact if_pos rfl
    | number e =>
      have hpower : HasPower 1 e := ⟨fun h => absurd h (by norm_num), fun h => absurd h one_ne_zero⟩
      exact (if_pos hpower).trans (by rw [Real.one_rpow])
  isNaN_log x h := by rw [isNaN_iff.mp h]; rfl
  isNaN_sin x h := by rw [isNaN_iff.mp h]; rfl
  isNaN_cos x h := by rw [isNaN_iff.mp h]; rfl
  isNaN_tan x h := by rw [isNaN_iff.mp h]; rfl

/-- Only zeros are equal to zero. -/
theorem eq_zero_iff {x : Exact} : Scalar.eq x Scalar.zero = true ↔ x = number 0 := by
  rw [zero_eq, eq_iff]
  exact ⟨fun ⟨r, hx, hr⟩ => hx.trans hr.symm, fun h => ⟨0, h, rfl⟩⟩

/-- Signs of exact numbers can be changed without a loss. -/
instance : Scalar.Signed Exact where
  eq_one_zero := by simp
  lt_one_zero := by simp [zero_le_one]
  toInt_one := by
    rw [one_eq]
    exact Int.floor_one
  add_zero x _ := by cases x <;> simp
  add_zero_of_zero x h := by simp [eq_zero_iff.mp h]
  zero_add x _ := by cases x <;> simp
  mul_one x := by cases x <;> simp
  one_mul x := by cases x <;> simp
  div_one x := by
    cases x with
    | missing => simp
    | number a => rw [one_eq, number_div one_ne_zero, div_one]
  neg_neg x := by cases x <;> simp
  neg_one := by simp
  minusOne_mul x := by cases x <;> simp
  eq_of_eq_one x h := by
    obtain ⟨r, hx, hr⟩ := eq_iff.mp h
    rw [hx, hr]
  eq_of_eq_minusOne x h := by
    obtain ⟨r, hx, hr⟩ := eq_iff.mp h
    rw [hx, hr]
  lt_minusOne_zero := by simp
  eq_zero_of_neg x h := by
    obtain ⟨r, s, rfl, hs, hlt⟩ := lt_iff.mp h
    rw [zero_eq] at hs ⊢
    cases hs
    simp [hlt.ne]
  lt_neg x h := by
    obtain ⟨r, s, rfl, hs, hlt⟩ := lt_iff.mp h
    rw [zero_eq] at hs ⊢
    cases hs
    simp [hlt.le]
  eq_zero_of_pos x h := by
    obtain ⟨r, s, hr, rfl, hlt⟩ := lt_iff.mp h
    rw [zero_eq] at hr ⊢
    cases hr
    simp [hlt.ne']
  lt_of_pos x h := by
    obtain ⟨r, s, hr, rfl, hlt⟩ := lt_iff.mp h
    rw [zero_eq] at hr ⊢
    cases hr
    simp [hlt.le]
  lt_of_nonneg x h := by
    cases x with
    | missing => simp
    | number a => simpa using h
  isFinite_neg x := by cases x <;> rfl

/-- Exact numbers can be scaled. -/
instance : Scalar.Scaling Exact where
  eq_of_zero x t h := by rw [eq_zero_iff.mp h, zero_eq]
  isNaN_mul_finite c x hc _ hx := by
    cases c <;> cases x <;> simp_all [isNaN, Scalar.isFinite]
  mul_zero c x hc hx := by
    rw [eq_zero_iff] at hx ⊢
    cases c with
    | missing => cases hc
    | number a => rw [hx, number_mul, mul_zero]
  isNaN_div_finite x d hx hd hzero := by
    cases x with
    | missing => cases hx
    | number a =>
      cases d with
      | missing => cases hd
      | number r =>
        rw [zero_eq, eq_number, decide_eq_false_iff_not] at hzero
        rw [number_div hzero]
        rfl
  zero_div x d hx hd hzero := by
    rw [eq_zero_iff] at hx ⊢
    cases d with
    | missing => cases hd
    | number r =>
      rw [zero_eq, eq_number, decide_eq_false_iff_not] at hzero
      rw [hx, number_div hzero, zero_div]

/-- Exact numbers can be raised to positive exponents. -/
instance : Scalar.Raising Exact where
  isNaN_pow x p hx hp hwhole := by
    obtain ⟨r, e, hr, rfl, hlt⟩ := lt_iff.mp hp
    rw [zero_eq] at hr
    cases hr
    cases x with
    | missing => cases hx
    | number a =>
      have hpower : HasPower a e := by
        refine ⟨fun ha => ?_, fun _ => hlt.le⟩
        have hneg : Scalar.lt (number a) Scalar.zero = true := by simpa using ha
        obtain ⟨n, hn⟩ := isWhole_iff.mp (hwhole hneg)
        exact ⟨n, (number.inj hn).symm⟩
      change isNaN (power (number a) (number e)) = false
      rw [power, if_pos hpower]
      rfl
  zero_pow x p hx hp := by
    obtain ⟨r, e, hr, rfl, hlt⟩ := lt_iff.mp hp
    rw [zero_eq] at hr
    cases hr
    rw [eq_zero_iff] at hx ⊢
    have hpower : HasPower 0 e := ⟨fun h => absurd h (lt_irrefl 0), fun _ => hlt.le⟩
    rw [hx]
    exact (if_pos hpower).trans (by rw [Real.zero_rpow hlt.ne'])

end SymbolicAlgebra.Exact
