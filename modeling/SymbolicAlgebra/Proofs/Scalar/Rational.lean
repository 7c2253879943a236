import SymbolicAlgebra.Proofs.Scalar.Integers

/-!
# Coefficients as rational numbers

A coefficient with whole parts is a rational number. As long as the numerator and the denominator of a result
stay below `2 ^ 53` before they are reduced, computing with coefficients is computing with these numbers: each
result is the fraction in lowest terms, with a positive denominator, of the exact one. Such a fraction is
known by its number, so that the laws of the rational numbers hold of coefficients within that range.
-/

namespace SymbolicAlgebra.Coefficient

open Binary64

/-- The rational number that a fraction of whole numbers is. -/
def ratio (c : Coefficient Float) : ℚ := Scalar.toInt c.numer / Scalar.toInt c.denom

/-- The coefficient is a rational number in lowest terms: its parts are the numerator and the positive
denominator of the number, exactly, and zero has no sign. -/
structure Represents (c : Coefficient Float) (q : ℚ) : Prop where
  numer : Exactly c.numer q.num
  denom : Exactly c.denom q.den
  numer_ne : c.numer ≠ -Scalar.zero

/-- A proper coefficient whose numerator is whole; its denominator then is whole as well. -/
structure Rational (c : Coefficient Float) : Prop extends c.Proper where
  isWhole_numer : Scalar.isWhole c.numer = true

/-- The integer is below the bound of the exact numbers. -/
def Fits (i : Int) : Prop := i.natAbs < 2 ^ 53

instance (i : Int) : Decidable (Fits i) := inferInstanceAs (Decidable (_ < _))

section Ranges

variable (a b : Coefficient Float) (n : Nat)

/-- The cross products, their sum and the product of the denominators are below the bound. -/
def SumFits : Prop :=
  Fits (Scalar.toInt a.numer * Scalar.toInt b.denom) ∧
  Fits (Scalar.toInt b.numer * Scalar.toInt a.denom) ∧
  Fits (Scalar.toInt a.numer * Scalar.toInt b.denom + Scalar.toInt b.numer * Scalar.toInt a.denom) ∧
  Fits (Scalar.toInt a.denom * Scalar.toInt b.denom)

/-- The products of the numerators and of the denominators are below the bound. -/
def ProductFits : Prop :=
  Fits (Scalar.toInt a.numer * Scalar.toInt b.numer) ∧ Fits (Scalar.toInt a.denom * Scalar.toInt b.denom)

/-- The products of each numerator with the other denominator are below the bound. -/
def QuotientFits : Prop :=
  Fits (Scalar.toInt a.numer * Scalar.toInt b.denom) ∧ Fits (Scalar.toInt a.denom * Scalar.toInt b.numer)

/-- The powers of the parts are below the bound. -/
def PowerFits : Prop := Fits (Scalar.toInt a.numer ^ n) ∧ Fits (Scalar.toInt a.denom ^ n)

instance : Decidable (SumFits a b) := inferInstanceAs (Decidable (_ ∧ _))

instance : Decidable (ProductFits a b) := inferInstanceAs (Decidable (_ ∧ _))

instance : Decidable (QuotientFits a b) := inferInstanceAs (Decidable (_ ∧ _))

instance : Decidable (PowerFits a n) := inferInstanceAs (Decidable (_ ∧ _))

end Ranges

/-- The order of the addends does not matter for the range. -/
theorem SumFits.symm {a b : Coefficient Float} (h : SumFits a b) : SumFits b a := by
  obtain ⟨hleft, hright, hsum, hdenom⟩ := h
  refine ⟨hright, hleft, ?_, ?_⟩
  · rwa [Int.add_comm]
  · rwa [Int.mul_comm]

/-- The order of the factors does not matter for the range. -/
theorem ProductFits.symm {a b : Coefficient Float} (h : ProductFits a b) : ProductFits b a := by
  obtain ⟨hnumer, hdenom⟩ := h
  refine ⟨?_, ?_⟩ <;> rwa [Int.mul_comm]

/-- A coefficient with exact parts without a common divisor, over a positive denominator, is the quotient of
its parts in lowest terms. -/
theorem represents_of_coprime {c : Coefficient Float} {i j : Int} (hnumer : Exactly c.numer i)
    (hdenom : Exactly c.denom j) (hj : 0 < j) (hgcd : Int.gcd i j = 1) (hne : c.numer ≠ -Scalar.zero) :
    c.Represents (i / j) where
  numer := by rwa [Rat.num_div_eq_of_coprime hj hgcd]
  denom := by rwa [Rat.den_div_eq_of_coprime hj hgcd]
  numer_ne := hne

/-- A coefficient that is a rational number in lowest terms has this ratio. -/
theorem Represents.ratio_eq {c : Coefficient Float} {q : ℚ} (h : c.Represents q) : c.ratio = q := by
  rw [ratio, h.numer.2, h.denom.2, Int.cast_natCast, Rat.num_div_den]

/-- A coefficient in lowest terms is known by the number that it is. -/
theorem Represents.unique {a b : Coefficient Float} {q : ℚ} (ha : a.Represents q) (hb : b.Represents q) :
    a = b := by
  have hden : (q.den : Int) ≠ 0 := Int.natCast_ne_zero.mpr q.den_nz
  rw [eq_mk (ha.numer.unique hb.numer ha.numer_ne hb.numer_ne)
    ((ha.denom.eq_ofInt hden).trans (hb.denom.eq_ofInt hden).symm)]

/-- A coefficient in lowest terms is proper and has whole parts. -/
theorem Represents.rational {c : Coefficient Float} {q : ℚ} (h : c.Represents q) : c.Rational where
  denom_pos := by
    have hpos : 0 < (q.den : Int) := Int.natCast_pos.mpr q.den_pos
    rw [h.denom.eq_ofInt (Int.ne_of_gt hpos)]
    exact Scalar.Whole.pos_of_one_le _ (Scalar.Whole.one_le_ofInt _ h.denom.natAbs_lt hpos)
  numer_ne := h.numer_ne
  fraction _ := by
    rw [h.numer.2, h.denom.2]
    exact ⟨⟨h.numer.isWhole, h.numer.natAbs_lt⟩, ⟨h.denom.isWhole, h.denom.natAbs_lt⟩, q.reduced⟩
  isWhole_numer := h.numer.isWhole

/-- The denominator of a coefficient with whole parts is an exact positive integer. -/
theorem Rational.exactly_denom {c : Coefficient Float} (h : c.Rational) :
    Exactly c.denom (Scalar.toInt c.denom) ∧ 0 < Scalar.toInt c.denom := by
  have hexact : Exactly c.denom (Scalar.toInt c.denom) := by
    by_cases hone : c.denom = Scalar.one
    · rw [hone]
      exact ⟨rfl, rfl⟩
    · obtain ⟨-, ⟨hwhole, hsmall⟩, -⟩ := h.fraction hone
      exact exactly_of_isWhole hwhole hsmall
  exact ⟨hexact, (Scalar.ofInt_toInt_of_pos hexact.1 (Scalar.Signed.lt_of_pos _ h.denom_pos)
    (Scalar.Signed.eq_zero_of_pos _ h.denom_pos)).1⟩

/-- The denominator of a coefficient with whole parts is not the integer zero. -/
theorem Rational.denom_ne_zero {c : Coefficient Float} (h : c.Rational) :
    (Scalar.toInt c.denom : ℚ) ≠ 0 := Int.cast_ne_zero.mpr (Int.ne_of_gt h.exactly_denom.2)

/-- The numerator of a coefficient other than zero with whole parts is not the integer zero. -/
theorem Rational.numer_ne_zero {c : Coefficient Float} (h : c.Rational) (hzero : c.isZero = false) :
    Scalar.toInt c.numer ≠ 0 := toInt_ne_zero h.isWhole_numer hzero

/-- A coefficient with whole parts is its ratio in lowest terms if its numerator is below the bound. -/
theorem Rational.represents {c : Coefficient Float} (h : c.Rational) (hfits : Fits (Scalar.toInt c.numer)) :
    c.Represents c.ratio := by
  obtain ⟨hdenom, hpos⟩ := h.exactly_denom
  refine represents_of_coprime (exactly_of_isWhole h.isWhole_numer hfits) hdenom hpos ?_ h.numer_ne
  by_cases hone : c.denom = Scalar.one
  · rw [hone, Scalar.Unital.toInt_one, Int.gcd_one]
  · exact (h.fraction hone).2.2

/-- Exact parts are reduced to the quotient in lowest terms. -/
theorem represents_reduced {n d : Float} {i j : Int} (hn : Exactly n i) (hd : Exactly d j) (hj : 0 < j) :
    Represents (if 1 < Int.gcd (Scalar.toInt n) (Scalar.toInt d) then
      ⟨Scalar.unsignZero (n / Scalar.ofInt (Int.gcd (Scalar.toInt n) (Scalar.toInt d))),
        d / Scalar.ofInt (Int.gcd (Scalar.toInt n) (Scalar.toInt d))⟩
      else ⟨Scalar.unsignZero n, d⟩ : Coefficient Float) (i / j) := by
  have hgcd := Int.gcd_pos_of_ne_zero_right i (Int.ne_of_gt hj)
  rw [hn.2, hd.2]
  split
  · have hpos : 0 < (Int.gcd i j : Int) := Int.natCast_pos.mpr hgcd
    have hsmall : (Int.gcd i j : Int).natAbs < 2 ^ 53 :=
      (Nat.le_of_dvd (Int.natAbs_pos.mpr (Int.ne_of_gt hj)) (Nat.gcd_dvd_right _ _)).trans_lt hd.natAbs_lt
    have hquotient {x : Float} {k : Int} (hx : Exactly x k) (hdvd : (Int.gcd i j : Int) ∣ k) :
        Exactly (x / Scalar.ofInt (Int.gcd i j)) (k / Int.gcd i j) :=
      Exactly.div (by rwa [Int.ediv_mul_cancel hdvd]) hpos hsmall
    have hratio : ((i / Int.gcd i j : Int) : ℚ) / (j / Int.gcd i j : Int) = i / j := by
      have hne : ((Int.gcd i j : Int) : ℚ) ≠ 0 := Int.cast_ne_zero.mpr (Int.ne_of_gt hpos)
      rw [Int.cast_div (Int.gcd_dvd_left i j) hne, Int.cast_div (Int.gcd_dvd_right i j) hne,
        div_div_div_cancel_right₀ hne]
    rw [← hratio]
    exact represents_of_coprime (hquotient hn (Int.gcd_dvd_left i j)).unsignZero
      (hquotient hd (Int.gcd_dvd_right i j))
      (Int.ediv_pos_of_pos_of_dvd hj hpos.le (Int.gcd_dvd_right i j))
      (Int.gcd_ediv_gcd_ediv_gcd hgcd) (unsignZero_ne_neg_zero _)
  · exact represents_of_coprime hn.unsignZero hd hj (by omega) (unsignZero_ne_neg_zero _)

/-- The fraction of exact numbers is their quotient in lowest terms. -/
theorem represents_ofFraction {n d : Float} {i j : Int} (hn : Exactly n i) (hd : Exactly d j) (hj : j ≠ 0) :
    (ofFraction n d).Represents (i / j) := by
  cases hneg : Scalar.lt d Scalar.zero with
  | true =>
    have hnonneg := Scalar.Whole.toInt_nonneg _ (Scalar.Signed.lt_neg d hneg)
    rw [hd.neg.2] at hnonneg
    have hreduced := represents_reduced hn.neg hd.neg (by omega)
    rw [Int.cast_neg, Int.cast_neg, neg_div_neg_eq] at hreduced
    simpa only [ofFraction, hneg, if_true, hn.neg.1, hd.neg.1, Bool.and_self] using hreduced
  | false =>
    have hnonneg := Scalar.Whole.toInt_nonneg _ hneg
    rw [hd.2] at hnonneg
    have hreduced := represents_reduced hn hd (by omega)
    simpa only [ofFraction, hneg, Bool.false_eq_true, if_false, hn.1, hd.1, Bool.and_self, if_true]
      using hreduced

section Arithmetic

variable {a b c : Coefficient Float}

/-- The sum of coefficients with whole parts is the sum of the numbers, in lowest terms. -/
theorem Rational.add (ha : a.Rational) (hb : b.Rational) (h : SumFits a b) :
    (a + b).Represents (a.ratio + b.ratio) := by
  obtain ⟨hleft, hright, hsum, hdenom⟩ := h
  have hnumer := (exactly_mul ha.isWhole_numer hb.exactly_denom.1.isWhole hleft).add
    (exactly_mul hb.isWhole_numer ha.exactly_denom.1.isWhole hright) hsum
  have hresult := represents_ofFraction hnumer
    (exactly_mul ha.exactly_denom.1.isWhole hb.exactly_denom.1.isWhole hdenom)
    (Int.mul_ne_zero (Int.ne_of_gt ha.exactly_denom.2) (Int.ne_of_gt hb.exactly_denom.2))
  have hratio : ((Scalar.toInt a.numer * Scalar.toInt b.denom +
      Scalar.toInt b.numer * Scalar.toInt a.denom : Int) : ℚ) /
      (Scalar.toInt a.denom * Scalar.toInt b.denom : Int) = a.ratio + b.ratio := by
    rw [ratio, ratio, div_add_div _ _ ha.denom_ne_zero hb.denom_ne_zero]
    push_cast
    ring
  exact hratio ▸ hresult

/-- The product of coefficients with whole parts is the product of the numbers, in lowest terms. -/
theorem Rational.mul (ha : a.Rational) (hb : b.Rational) (h : ProductFits a b) :
    (a * b).Represents (a.ratio * b.ratio) := by
  have hresult := represents_ofFraction (exactly_mul ha.isWhole_numer hb.isWhole_numer h.1)
    (exactly_mul ha.exactly_denom.1.isWhole hb.exactly_denom.1.isWhole h.2)
    (Int.mul_ne_zero (Int.ne_of_gt ha.exactly_denom.2) (Int.ne_of_gt hb.exactly_denom.2))
  rwa [Int.cast_mul, Int.cast_mul, ← div_mul_div_comm] at hresult

/-- The quotient of coefficients with whole parts is the quotient of the numbers, in lowest terms. -/
theorem Rational.div (ha : a.Rational) (hb : b.Rational) (hzero : b.isZero = false)
    (h : QuotientFits a b) : (a / b).Represents (a.ratio / b.ratio) := by
  have hresult := represents_ofFraction
    (exactly_mul ha.isWhole_numer hb.exactly_denom.1.isWhole h.1)
    (exactly_mul ha.exactly_denom.1.isWhole hb.isWhole_numer h.2)
    (Int.mul_ne_zero (Int.ne_of_gt ha.exactly_denom.2) (hb.numer_ne_zero hzero))
  rwa [Int.cast_mul, Int.cast_mul, ← div_div_div_eq] at hresult

/-- The opposite of a coefficient with whole parts is the opposite number, in lowest terms. -/
theorem Rational.neg (ha : a.Rational) (h : Fits (Scalar.toInt a.numer)) :
    (-a).Represents (-a.ratio) := by
  obtain ⟨hnumer, hdenom, -⟩ := ha.represents h
  exact ⟨by rw [Rat.neg_num]; exact hnumer.neg.unsignZero, by rwa [Rat.neg_den],
    unsignZero_ne_neg_zero _⟩

/-- The power of a coefficient with whole parts is the power of the number, in lowest terms. -/
theorem Rational.zpow (ha : a.Rational) {n : Nat} (h : PowerFits a n) :
    (a.zpow n).Represents (a.ratio ^ n) := by
  have hresult := represents_ofFraction (exactly_npow ha.isWhole_numer h.1)
    (exactly_npow ha.exactly_denom.1.isWhole h.2) (pow_ne_zero n (Int.ne_of_gt ha.exactly_denom.2))
  rwa [Int.cast_pow, Int.cast_pow, ← div_pow] at hresult

/-- Sums do not depend on the order of the addends. -/
theorem Rational.sum_comm (ha : a.Rational) (hb : b.Rational) (h : SumFits a b) : a + b = b + a :=
  (ha.add hb h).unique (add_comm b.ratio a.ratio ▸ hb.add ha h.symm)

/-- Products do not depend on the order of the factors. -/
theorem Rational.product_comm (ha : a.Rational) (hb : b.Rational) (h : ProductFits a b) : a * b = b * a :=
  (ha.mul hb h).unique (mul_comm b.ratio a.ratio ▸ hb.mul ha h.symm)

/-- Sums do not depend on how the addends are grouped. -/
theorem Rational.sum_assoc (ha : a.Rational) (hb : b.Rational) (hc : c.Rational) (hab : SumFits a b)
    (habc : SumFits (a + b) c) (hbc : SumFits b c) (habc' : SumFits a (b + c)) :
    a + b + c = a + (b + c) := by
  have hleft := ha.add hb hab
  have hright := hb.add hc hbc
  have hfirst := hleft.rational.add hc habc
  have hlast := ha.add hright.rational habc'
  rw [hleft.ratio_eq, add_assoc] at hfirst
  rw [hright.ratio_eq] at hlast
  exact hfirst.unique hlast

/-- Products do not depend on how the factors are grouped. -/
theorem Rational.product_assoc (ha : a.Rational) (hb : b.Rational) (hc : c.Rational)
    (hab : ProductFits a b) (habc : ProductFits (a * b) c) (hbc : ProductFits b c)
    (habc' : ProductFits a (b * c)) : a * b * c = a * (b * c) := by
  have hleft := ha.mul hb hab
  have hright := hb.mul hc hbc
  have hfirst := hleft.rational.mul hc habc
  have hlast := ha.mul hright.rational habc'
  rw [hleft.ratio_eq, mul_assoc] at hfirst
  rw [hright.ratio_eq] at hlast
  exact hfirst.unique hlast

/-- Dividing by a factor other than zero undoes multiplying by it. -/
theorem Rational.product_div (ha : a.Rational) (hb : b.Rational) (hzero : b.isZero = false)
    (h : ProductFits a b) (h' : QuotientFits (a * b) b) : a * b / b = a := by
  have hproduct := ha.mul hb h
  have hquotient := hproduct.rational.div hb hzero h'
  have hne := hb.numer_ne_zero hzero
  have hratio : b.ratio ≠ 0 := div_ne_zero (Int.cast_ne_zero.mpr hne) hb.denom_ne_zero
  rw [hproduct.ratio_eq, mul_div_cancel_right₀ _ hratio] at hquotient
  have hfits : Fits (Scalar.toInt a.numer) := by
    have hnumers := h.1
    rw [Fits, Int.natAbs_mul] at hnumers
    exact (Nat.le_mul_of_pos_right _ (Int.natAbs_pos.mpr hne)).trans_lt hnumers
  exact hquotient.unique (ha.represents hfits)

/-- Computing with coefficients that have whole parts is computing with the rational numbers that they are,
as long as no part of a result exceeds the range of the exact numbers before it is reduced. -/
theorem exact_within_range (ha : a.Rational) (hb : b.Rational) (hc : c.Rational) :
    (SumFits a b → (a + b).Represents (a.ratio + b.ratio) ∧ a + b = b + a) ∧
    (ProductFits a b → (a * b).Represents (a.ratio * b.ratio) ∧ a * b = b * a) ∧
    (b.isZero = false → QuotientFits a b → (a / b).Represents (a.ratio / b.ratio)) ∧
    (Fits (Scalar.toInt a.numer) → (-a).Represents (-a.ratio)) ∧
    (∀ n : Nat, PowerFits a n → (a.zpow n).Represents (a.ratio ^ n)) ∧
    (SumFits a b → SumFits (a + b) c → SumFits b c → SumFits a (b + c) → a + b + c = a + (b + c)) ∧
    (ProductFits a b → ProductFits (a * b) c → ProductFits b c → ProductFits a (b * c) →
      a * b * c = a * (b * c)) ∧
    (b.isZero = false → ProductFits a b → QuotientFits (a * b) b → a * b / b = a) :=
  ⟨fun h => ⟨ha.add hb h, ha.sum_comm hb h⟩, fun h => ⟨ha.mul hb h, ha.product_comm hb h⟩, ha.div hb,
    ha.neg, fun _ => ha.zpow, ha.sum_assoc hb hc, ha.product_assoc hb hc, ha.product_div hb⟩

/-- A third, minus a sixth and a half stay in the range. -/
theorem exact_within_range_third :
    let third : Coefficient Float := ofFraction (Scalar.ofInt 1) (Scalar.ofInt 3)
    let sixth : Coefficient Float := ofFraction (Scalar.ofInt 1) (Scalar.ofInt (-6))
    let half : Coefficient Float := ofFraction (Scalar.ofInt 2) (Scalar.ofInt 4)
    third.Rational ∧ sixth.Rational ∧ half.Rational ∧
      (third + sixth).Represents (third.ratio + sixth.ratio) ∧
      (third * sixth).Represents (third.ratio * sixth.ratio) ∧
      (third / sixth).Represents (third.ratio / sixth.ratio) ∧
      (-third).Represents (-third.ratio) ∧ (third.zpow 30).Represents (third.ratio ^ 30) ∧
      third + sixth + half = third + (sixth + half) ∧ third * sixth * half = third * (sixth * half) ∧
      third * sixth / sixth = third := by
  intro third sixth half
  have hthird : third.Rational := (represents_ofFraction (exactly_ofInt (by decide))
    (exactly_ofInt (by decide)) (by decide)).rational
  have hsixth : sixth.Rational := (represents_ofFraction (exactly_ofInt (by decide))
    (exactly_ofInt (by decide)) (by decide)).rational
  have hhalf : half.Rational := (represents_ofFraction (exactly_ofInt (by decide))
    (exactly_ofInt (by decide)) (by decide)).rational
  obtain ⟨hadd, hmul, hdiv, hneg, hzpow, hsum, hproduct, hcancel⟩ := exact_within_range hthird hsixth hhalf
  exact ⟨hthird, hsixth, hhalf, (hadd (by decide +kernel)).1, (hmul (by decide +kernel)).1,
    hdiv (by decide +kernel) (by decide +kernel), hneg (by decide +kernel), hzpow 30 (by decide +kernel),
    hsum (by decide +kernel) (by decide +kernel) (by decide +kernel) (by decide +kernel),
    hproduct (by decide +kernel) (by decide +kernel) (by decide +kernel) (by decide +kernel),
    hcancel (by decide +kernel) (by decide +kernel) (by decide +kernel)⟩

end Arithmetic

end SymbolicAlgebra.Coefficient
