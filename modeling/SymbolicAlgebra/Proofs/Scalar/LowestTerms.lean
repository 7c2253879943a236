import SymbolicAlgebra.Proofs.Scalar.Whole

/-!
# Fractions in lowest terms

Coefficients as every operation on them leaves them: a fraction of whole numbers in lowest terms over a
positive denominator, or a single number over one. Such a coefficient is multiplied together again
from its sign, its numerator and its denominator. No operation divides by zero as long as no zero is
divided by, since denominators are at least one.
-/

namespace SymbolicAlgebra.Coefficient

variable {α : Type} [Scalar α]

/-- The parts are whole numbers without a common divisor and the denominator is positive, or the
denominator is one. -/
def LowestTerms (c : Coefficient α) : Prop :=
  (isExact c.numer = true ∧ isExact c.denom = true ∧ Scalar.lt Scalar.zero c.denom = true ∧
    Int.gcd (Scalar.toInt c.numer) (Scalar.toInt c.denom) = 1) ∨ c.denom = Scalar.one

variable [Scalar.Signed α]

/-- The denominator of a fraction in lowest terms is not zero. -/
theorem LowestTerms.denom_ne_zero {c : Coefficient α} (h : c.LowestTerms) :
    Scalar.eq c.denom Scalar.zero = false := by
  obtain ⟨-, -, hpos, -⟩ | hone := h
  · exact Scalar.Signed.eq_zero_of_pos _ hpos
  · rw [hone]
    exact Scalar.Unital.eq_one_zero

/-- A fraction in lowest terms is the fraction of its parts. -/
theorem LowestTerms.ofFraction_eq {c : Coefficient α} (h : c.LowestTerms)
    (hzero : c.isZero = false) : ofFraction c.numer c.denom = c := by
  have hnumer : Scalar.unsignZero c.numer = c.numer := Scalar.unsignZero_of_ne hzero
  obtain ⟨hn, hd, hpos, hgcd⟩ | hone := h
  · have hflip := Scalar.Signed.lt_of_pos _ hpos
    simp only [ofFraction, hflip, Bool.false_eq_true, if_false, hn, hd, Bool.and_self, if_true, hgcd,
      Nat.lt_irrefl, hnumer]
  · rw [hone]
    change ofScalar c.numer = c
    rw [ofScalar_eq, hnumer, ← hone]

/-- Multiplying one by a number gives the number over one. -/
theorem one_mul_ofScalar {v : α} (hv : Scalar.eq v Scalar.zero = false) :
    (one * ofScalar v : Coefficient α) = ⟨v, Scalar.one⟩ := by
  rw [ofScalar_eq, Scalar.unsignZero_of_ne hv]
  change ofFraction (Scalar.one * v) (Scalar.one * Scalar.one) = _
  rw [Scalar.Unital.one_mul, Scalar.Unital.one_mul]
  change ofScalar v = _
  rw [ofScalar_eq, Scalar.unsignZero_of_ne hv]

/-- Multiplying minus one by a number gives the opposite number over one. -/
theorem minusOne_mul_ofScalar {v : α} (hv : Scalar.eq v Scalar.zero = false) :
    (minusOne * ofScalar v : Coefficient α) = ⟨-v, Scalar.one⟩ := by
  have hneg : Scalar.eq (-v) Scalar.zero = false := (Scalar.Lawful.eq_neg_zero v).trans hv
  rw [ofScalar_eq, Scalar.unsignZero_of_ne hv]
  change ofFraction (Scalar.ofInt (-1) * v) (Scalar.one * Scalar.one) = _
  rw [Scalar.Signed.minusOne_mul, Scalar.Unital.one_mul]
  change ofScalar (-v) = _
  rw [ofScalar_eq, Scalar.unsignZero_of_ne hneg]

/-- One times minus one is minus one. -/
theorem one_mul_minusOne : (one * minusOne : Coefficient α) = minusOne := by
  change ofFraction (Scalar.one * Scalar.ofInt (-1)) (Scalar.one * Scalar.one) = _
  rw [Scalar.Unital.one_mul, Scalar.Unital.one_mul]
  change ofScalar (Scalar.ofInt (-1)) = _
  rw [ofScalar_eq, Scalar.unsignZero_of_ne Scalar.Lawful.eq_minusOne_zero]
  rfl

/-- The opposite of one is minus one. -/
theorem neg_one : (-one : Coefficient α) = minusOne := by
  change (⟨Scalar.unsignZero (-Scalar.one), Scalar.one⟩ : Coefficient α) = _
  rw [Scalar.Signed.neg_one, Scalar.unsignZero_of_ne Scalar.Lawful.eq_minusOne_zero]
  rfl

/-- Minus one is not one. -/
theorem isOne_minusOne : (minusOne : Coefficient α).isOne = false := by
  rw [Bool.eq_false_iff]
  intro hone
  have hsame := Scalar.Signed.eq_of_eq_one _ (Bool.and_eq_true_iff.mp hone).1
  have hneg := Scalar.Signed.lt_minusOne_zero (α := α)
  rw [show Scalar.ofInt (-1) = (Scalar.one : α) from hsame, Scalar.Unital.lt_one_zero] at hneg
  cases hneg

/-- Dividing the numerator by the denominator gives a fraction in lowest terms back. -/
theorem LowestTerms.div_denom {c : Coefficient α} (h : c.LowestTerms) (hzero : c.isZero = false) :
    (⟨c.numer, Scalar.one⟩ / ofScalar c.denom : Coefficient α) = c := by
  rw [ofScalar_eq, Scalar.unsignZero_of_ne h.denom_ne_zero]
  change ofFraction (c.numer * Scalar.one) (Scalar.one * c.denom) = c
  rw [Scalar.Unital.mul_one, Scalar.Unital.one_mul, h.ofFraction_eq hzero]

/-- Dividing by one gives a fraction in lowest terms back. -/
theorem LowestTerms.div_one {c : Coefficient α} (h : c.LowestTerms) (hzero : c.isZero = false) :
    (c / one : Coefficient α) = c := by
  change ofFraction (c.numer * Scalar.one) (c.denom * Scalar.one) = c
  rw [Scalar.Unital.mul_one, Scalar.Unital.mul_one, h.ofFraction_eq hzero]

section Whole

variable {α : Type} [Scalar α] [Scalar.Whole α]

/-- Exact parts are reduced to lowest terms. -/
theorem lowestTerms_reduced {n d : α} (hn : isExact n = true) (hd : isExact d = true)
    (hneg : Scalar.lt d Scalar.zero = false) (hzero : Scalar.eq d Scalar.zero = false) :
    LowestTerms (if 1 < Int.gcd (Scalar.toInt n) (Scalar.toInt d) then
      ⟨Scalar.unsignZero (n / Scalar.ofInt (Int.gcd (Scalar.toInt n) (Scalar.toInt d))),
        d / Scalar.ofInt (Int.gcd (Scalar.toInt n) (Scalar.toInt d))⟩
      else ⟨Scalar.unsignZero n, d⟩ : Coefficient α) := by
  obtain ⟨hpos, hback⟩ := Scalar.ofInt_toInt_of_pos hd hneg hzero
  have hgcd : 0 < (Int.gcd (Scalar.toInt n) (Scalar.toInt d) : Int) :=
    Int.natCast_pos.mpr (Int.gcd_pos_of_ne_zero_right _ (Int.ne_of_gt hpos))
  obtain ⟨hdiv, -, hsmall⟩ := Scalar.div_ofInt hd hzero hgcd (Int.gcd_dvd_right _ _)
  cases hnumer : Scalar.eq n Scalar.zero with
  | true =>
    -- the denominator of zero is cancelled down to one
    right
    have hsame : ((Scalar.toInt d).natAbs : Int) = Scalar.toInt d :=
      Int.natAbs_of_nonneg (Int.le_of_lt hpos)
    rw [Scalar.Whole.toInt_of_zero n hnumer, Int.gcd_zero_left] at hdiv ⊢
    split
    · rw [hsame, Int.ediv_self (Int.ne_of_gt hpos)] at hdiv
      change d / Scalar.ofInt ((Scalar.toInt d).natAbs : Int) = _
      rw [hsame, hdiv]
      rfl
    · have hone : Scalar.toInt d = 1 := by omega
      rw [← hback, hone]
      rfl
  | false =>
    left
    obtain ⟨hdivn, hne, hsmalln⟩ := Scalar.div_ofInt hn hnumer hgcd (Int.gcd_dvd_left _ _)
    split
    · have hquotient := Scalar.Whole.eq_ofInt_zero (α := α) _ hsmalln
      rw [decide_eq_false hne] at hquotient
      have hquotientPos : 0 < Scalar.toInt d / Int.gcd (Scalar.toInt n) (Scalar.toInt d) :=
        Int.ediv_pos_of_pos_of_dvd hpos (Int.le_of_lt hgcd) (Int.gcd_dvd_right _ _)
      simp only [hdivn, hdiv, Scalar.unsignZero_of_ne hquotient]
      refine ⟨Scalar.Whole.isExact_ofInt _ hsmalln, Scalar.Whole.isExact_ofInt _ hsmall,
        Scalar.Whole.pos_of_one_le _ (Scalar.Whole.one_le_ofInt _ hsmall hquotientPos), ?_⟩
      rw [Scalar.Whole.toInt_ofInt _ hsmalln, Scalar.Whole.toInt_ofInt _ hsmall]
      exact Int.gcd_ediv_gcd_ediv_gcd (Int.natCast_pos.mp hgcd)
    · simp only [Scalar.unsignZero_of_ne hnumer]
      refine ⟨hn, hd, ?_, by omega⟩
      rw [← hback]
      exact Scalar.Whole.pos_of_one_le _
        (Scalar.Whole.one_le_ofInt _ (Scalar.Whole.natAbs_toInt_lt d hd) hpos)

/-- A fraction with a denominator other than zero is made in lowest terms. -/
theorem lowestTerms_ofFraction (n : α) {d : α} (hd : Scalar.eq d Scalar.zero = false) :
    (ofFraction n d).LowestTerms := by
  have hflip : Scalar.lt (if Scalar.lt d Scalar.zero then -d else d) Scalar.zero = false ∧
      Scalar.eq (if Scalar.lt d Scalar.zero then -d else d) Scalar.zero = false := by
    cases hneg : Scalar.lt d Scalar.zero with
    | true => exact ⟨Scalar.Signed.lt_neg d hneg, (Scalar.Lawful.eq_neg_zero d).trans hd⟩
    | false => exact ⟨hneg, hd⟩
  simp only [ofFraction]
  generalize (if Scalar.lt d Scalar.zero then -n else n) = n'
  generalize (if Scalar.lt d Scalar.zero then -d else d) = d' at hflip
  split
  · rename_i hexact
    obtain ⟨hn, hd⟩ := Bool.and_eq_true_iff.mp hexact
    exact lowestTerms_reduced hn hd hflip.1 hflip.2
  · exact .inr rfl

/-- The denominator of a fraction in lowest terms is at least one. -/
theorem LowestTerms.one_le_denom {c : Coefficient α} (h : c.LowestTerms) :
    Scalar.le Scalar.one c.denom = true := by
  obtain ⟨-, hexact, hpos, -⟩ | hone := h
  · obtain ⟨hint, hback⟩ := Scalar.ofInt_toInt_of_pos hexact (Scalar.Signed.lt_of_pos _ hpos)
      (Scalar.Signed.eq_zero_of_pos _ hpos)
    rw [← hback]
    exact Scalar.Whole.one_le_ofInt _ (Scalar.Whole.natAbs_toInt_lt _ hexact) hint
  · rw [hone]
    exact Scalar.Whole.one_le_ofInt 1 (by decide) (by decide)

/-- Sums and products of fractions in lowest terms have a denominator other than zero. -/
theorem LowestTerms.eq_denoms_zero {a b : Coefficient α} (ha : a.LowestTerms) (hb : b.LowestTerms) :
    Scalar.eq (a.denom * b.denom) Scalar.zero = false :=
  Scalar.Whole.eq_mul_zero _ _ ha.one_le_denom hb.denom_ne_zero

/-- Sums of fractions are in lowest terms. -/
theorem LowestTerms.add {a b : Coefficient α} (ha : a.LowestTerms) (hb : b.LowestTerms) :
    (a + b).LowestTerms := lowestTerms_ofFraction _ (ha.eq_denoms_zero hb)

/-- Products of fractions are in lowest terms. -/
theorem LowestTerms.mul {a b : Coefficient α} (ha : a.LowestTerms) (hb : b.LowestTerms) :
    (a * b).LowestTerms := lowestTerms_ofFraction _ (ha.eq_denoms_zero hb)

/-- Quotients of fractions are in lowest terms; the divisor must not be zero. -/
theorem LowestTerms.div {a b : Coefficient α} (ha : a.LowestTerms) (hb : b.isZero = false) :
    (a / b).LowestTerms :=
  lowestTerms_ofFraction _ (Scalar.Whole.eq_mul_zero _ _ ha.one_le_denom hb)

/-- Powers of fractions to natural numbers are in lowest terms. -/
theorem LowestTerms.zpow {c : Coefficient α} (h : c.LowestTerms) {k : Int} (hk : 0 ≤ k) :
    (c.zpow k).LowestTerms := by
  obtain ⟨n, rfl⟩ := Int.eq_ofNat_of_zero_le hk
  have hpower := Scalar.one_le_npow h.one_le_denom n
  exact lowestTerms_ofFraction _ (Scalar.Signed.eq_zero_of_pos _ (Scalar.Whole.pos_of_one_le _ hpower))

/-- Numbers are fractions in lowest terms. -/
theorem lowestTerms_ofScalar (v : α) : (ofScalar v).LowestTerms :=
  lowestTerms_ofFraction v Scalar.Unital.eq_one_zero

/-- Opposites of fractions are in lowest terms. -/
theorem LowestTerms.neg {c : Coefficient α} (h : c.LowestTerms) : (-c).LowestTerms := by
  obtain ⟨hn, hd, hpos, hgcd⟩ | hone := h
  · change LowestTerms ⟨Scalar.unsignZero (-c.numer), c.denom⟩
    cases hzero : Scalar.eq c.numer Scalar.zero with
    | true =>
      right
      obtain ⟨hint, hback⟩ := Scalar.ofInt_toInt_of_pos hd (Scalar.Signed.lt_of_pos _ hpos)
        (Scalar.Signed.eq_zero_of_pos _ hpos)
      rw [Scalar.Whole.toInt_of_zero _ hzero, Int.gcd_zero_left] at hgcd
      have hone : Scalar.toInt c.denom = 1 := by omega
      rw [← hback, hone]
      rfl
    | false =>
      left
      have hback := Scalar.Whole.ofInt_toInt _ hn hzero
      have hsmall := Scalar.Whole.natAbs_toInt_lt _ hn
      have hneg : -c.numer = Scalar.ofInt (-Scalar.toInt c.numer) := by
        conv_lhs => rw [← hback]
        exact Scalar.Whole.neg_ofInt _ hsmall (Scalar.toInt_ne_of_isExact hn hzero)
      rw [Scalar.unsignZero_of_ne ((Scalar.Lawful.eq_neg_zero _).trans hzero), hneg]
      rw [← Int.natAbs_neg] at hsmall
      refine ⟨Scalar.Whole.isExact_ofInt _ hsmall, hd, hpos, ?_⟩
      rw [Scalar.Whole.toInt_ofInt _ hsmall, Int.neg_gcd, hgcd]
  · exact .inr hone

end Whole

end SymbolicAlgebra.Coefficient
