import SymbolicAlgebra.Proofs.Exact.Sum
import SymbolicAlgebra.Proofs.Reduction.Hereditary

/-!
# What products in the making mean

A factor that is put on a side of the fraction line multiplies what is there already, or divides it;
a zero below the line makes it infinite. Finishing a product keeps what it means if no factor has a
coefficient of its own.
-/

namespace SymbolicAlgebra.Reduction

open Exact Projective SymbolicAlgebra.Expr

/-- What a factor contributes to a product from one of its sides. -/
noncomputable def Side.factor (side : Side) (p : Projective) : Projective :=
  match side with
  | .above => p
  | .below => p⁻¹

namespace Side

variable {side : Side} {p q : Projective}

/-- Two factors contribute what each of them does. -/
theorem factor_mul (side : Side) (p q : Projective) :
    side.factor (p * q) = side.factor p * side.factor q := by
  cases side with
  | above => rfl
  | below => exact mul_inv p q

/-- Nothing contributes one. -/
theorem factor_one (side : Side) : side.factor 1 = 1 := by
  cases side with
  | above => rfl
  | below => exact inv_one

/-- A reciprocal contributes from the other side. -/
theorem factor_inv (side : Side) (p : Projective) : side.factor p⁻¹ = side.flip.factor p := by
  cases side with
  | above => rfl
  | below => exact inv_inv p

/-- Only what has a meaning contributes something that has one. -/
theorem ne_absent_of_factor (h : side.factor p ≠ absent) : p ≠ absent := by
  cases side with
  | above => exact h
  | below => exact inv_eq_absent.not.mp h

/-- A larger factor contributes more. -/
theorem factor_mono (h : p ≤ q) : side.factor p ≤ side.factor q := by
  cases side with
  | above => exact h
  | below => exact inv_mono h

end Side

namespace Fraction

/-- What a product in the making means. -/
noncomputable def meaning (b : Bindings Exact) (f : Fraction Exact) : Projective :=
  f.coefficient.meaning * (f.numerator.map (Expr.meaning b)).prod *
    (f.denominator.map (Expr.meaning b)).prod⁻¹ * (if f.zeroDivisor then infinite else 1)

variable {b : Bindings Exact}

/-- Placing a factor multiplies or divides by it. -/
theorem meaning_place (side : Side) (e : Expr Exact) (f : Fraction Exact) :
    (f.place side e).meaning b = f.meaning b * side.factor (e.meaning b) := by
  cases side with
  | above =>
    simp only [meaning, place, Side.factor, List.map_append, List.prod_append, List.map_singleton,
      List.prod_singleton]
    ac_rfl
  | below =>
    simp only [meaning, place, Side.factor, List.map_append, List.prod_append, List.map_singleton,
      List.prod_singleton, mul_inv]
    ac_rfl

/-- Scaling multiplies or divides by the coefficient, which must not be zero for the latter. -/
theorem meaning_scale_le (side : Side) {c : Coefficient Exact} (f : Fraction Exact)
    (h : side = .below → c.isZero = false) :
    f.meaning b * side.factor c.meaning ≤ (f.scale side c).meaning b := by
  cases side with
  | above =>
    refine le_of_eq ?_
    simp only [meaning, scale, Side.factor, Coefficient.meaning_mul]
    ac_rfl
  | below =>
    calc f.meaning b * c.meaning⁻¹
        = f.coefficient.meaning * c.meaning⁻¹ * ((f.numerator.map (Expr.meaning b)).prod *
            (f.denominator.map (Expr.meaning b)).prod⁻¹ *
            (if f.zeroDivisor then infinite else 1)) := by
          rw [meaning]
          ac_rfl
      _ ≤ (f.coefficient / c).meaning * ((f.numerator.map (Expr.meaning b)).prod *
            (f.denominator.map (Expr.meaning b)).prod⁻¹ *
            (if f.zeroDivisor then infinite else 1)) :=
          mul_le_mul_left (Coefficient.meaning_mul_inv_le _ (h rfl)) _
      _ = (f.scale .below c).meaning b := by
          rw [meaning, scale]
          ac_rfl

/-- A zero below the line divides by zero. -/
theorem meaning_zeroDivisor (f : Fraction Exact) :
    ({ f with zeroDivisor := true } : Fraction Exact).meaning b = f.meaning b * infinite := by
  cases hzero : f.zeroDivisor with
  | true => simp only [meaning, hzero, if_true, mul_assoc, infinite_mul_infinite]
  | false => simp only [meaning, hzero, if_true, Bool.false_eq_true, if_false, mul_assoc, one_mul]

mutual

/-- Multiplying by an expression, or dividing by it, does so with what it means. -/
theorem meaning_absorb (side : Side) (f : Fraction Exact) (e : Expr Exact) :
    f.meaning b * side.factor (e.meaning b) ≤ (absorb side f e).value.meaning b := by
  cases e with
  | number v =>
    cases v with
    | real v =>
      have hv : (Expr.number (.real v)).meaning b = (Coefficient.ofScalar v).meaning :=
        (Coefficient.meaning_ofScalar v).symm
      rw [absorb]
      split
      · rename_i hzero
        rw [Bool.and_eq_true, decide_eq_true_eq, Exact.zero_eq] at hzero
        obtain ⟨rfl, hzero⟩ := hzero
        rw [Traced.pure_value, meaning_zeroDivisor, hv, Coefficient.meaning_ofScalar,
          ofExact_of_eq hzero, Side.factor, inv_zero]
      · rename_i hzero
        rw [hv]
        refine meaning_scale_le side f ?_
        rintro rfl
        exact Coefficient.isZero_ofScalar (by simpa using hzero)
    | constant c => exact (meaning_place side _ f).ge
  | product c n d =>
    rw [absorb]
    split
    · rename_i hzero
      rw [Bool.and_eq_true, decide_eq_true_eq] at hzero
      obtain ⟨rfl, hzero⟩ := hzero
      have hzero : (Expr.product c n d).isZero = true := hzero
      rw [Traced.pure_value, meaning_zeroDivisor, ← inv_zero]
      exact mul_le_mul_right (inv_mono (meaning_le_of_isZero hzero)) _
    · rename_i hzero
      have hscale := meaning_scale_le (b := b) side (c := c) f (by
        rintro rfl
        simpa using hzero)
      calc f.meaning b * side.factor ((Expr.product c n d).meaning b)
          = f.meaning b * side.factor c.meaning * side.factor (n.map (Expr.meaning b)).prod *
              side.flip.factor (d.map (Expr.meaning b)).prod := by
            rw [meaning_product, Side.factor_mul, Side.factor_mul, Side.factor_inv]
            ac_rfl
        _ ≤ (absorbAll side (f.scale side c) n).value.meaning b *
              side.flip.factor (d.map (Expr.meaning b)).prod :=
            mul_le_mul_left ((mul_le_mul_left hscale _).trans (meaning_absorbAll side _ n)) _
        _ ≤ _ := meaning_absorbAll side.flip _ d
  | _ => exact (meaning_place side _ f).ge

/-- Multiplying by expressions, or dividing by them, does so with what they mean. -/
theorem meaning_absorbAll (side : Side) (f : Fraction Exact) (es : List (Expr Exact)) :
    f.meaning b * side.factor (es.map (Expr.meaning b)).prod ≤
      (absorbAll side f es).value.meaning b := by
  cases es with
  | nil =>
    rw [List.map_nil, List.prod_nil, Side.factor_one, mul_one]
    exact le_rfl
  | cons e es =>
    calc f.meaning b * side.factor ((e :: es).map (Expr.meaning b)).prod
        = f.meaning b * side.factor (e.meaning b) *
            side.factor (es.map (Expr.meaning b)).prod := by
          rw [List.map_cons, List.prod_cons, Side.factor_mul, mul_assoc]
      _ ≤ (absorb side f e).value.meaning b * side.factor (es.map (Expr.meaning b)).prod :=
          mul_le_mul_left (meaning_absorb side f e) _
      _ ≤ _ := meaning_absorbAll side _ es

end

/-- A base on both sides of the line contributes its power to the difference of the exponents. -/
theorem meaning_common {f : Fraction Exact} {common : Common Exact}
    (h : common? f.denominator f.numerator = some common) :
    f.meaning b ≤ (f.without common).meaning b * (common.base.meaning b).power
      (common.upper.meaning b + finite (-1) * common.lower.meaning b) := by
  obtain ⟨before, e, after, hn, hnumerator, hparts, -, htake⟩ := common?_some h
  obtain ⟨before', e', after', hd, hdenominator, hbase, hlower⟩ := takeBase?_some htake
  have hupper : e.meaning b = (common.base.meaning b).power (common.upper.meaning b) := by
    rw [← power_powerParts e, hparts]
  have hbelow : e'.meaning b = (common.base.meaning b).power (common.lower.meaning b) := by
    rw [← power_powerParts e', meaning_eq_of_beq hbase, hlower]
  calc f.meaning b
      = (f.without common).meaning b * ((common.base.meaning b).power (common.upper.meaning b) *
          (common.base.meaning b).power (finite (-1) * common.lower.meaning b)) := by
        rw [power_neg, ← hupper, ← hbelow]
        simp only [meaning, without, hn, hd, hnumerator, hdenominator, List.map_append,
          List.map_cons, List.prod_append, List.prod_cons, mul_inv]
        ac_rfl
    _ ≤ _ := mul_le_mul_right (power_mul_power_le _ _ _) _

/-- A base with literal exponents contributes its power to their difference. -/
theorem meaning_common_literal {f : Fraction Exact} {common : Common Exact} {u l : Exact}
    (h : common? f.denominator f.numerator = some common) (hu : common.upper.real? = some u)
    (hl : common.lower.real? = some l) : f.meaning b ≤
      (f.without common).meaning b * (common.base.meaning b).power (ofExact (u - l)) := by
  rw [ofExact_sub, ← meaning_of_real? hu, ← meaning_of_real? hl]
  exact meaning_common h

/-- A common base whose literal exponents differ by more than zero leaves a power above the line. -/
theorem meaning_common_above {f : Fraction Exact} {common : Common Exact} {u l : Exact}
    (h : common? f.denominator f.numerator = some common) (hu : common.upper.real? = some u)
    (hl : common.lower.real? = some l) : f.meaning b ≤ (f.without common).meaning b *
      Side.above.factor ((common.base.meaning b).power ((real (u - l)).meaning b)) := by
  rw [meaning_real]
  exact meaning_common_literal h hu hl

/-- A common base whose literal exponents differ by less than zero leaves a power below the line. -/
theorem meaning_common_below {f : Fraction Exact} {common : Common Exact} {u l : Exact}
    (h : common? f.denominator f.numerator = some common) (hu : common.upper.real? = some u)
    (hl : common.lower.real? = some l) : f.meaning b ≤ (f.without common).meaning b *
      Side.below.factor ((common.base.meaning b).power ((real (-(u - l))).meaning b)) := by
  rw [meaning_real, ofExact_neg, power_neg, Side.factor, inv_inv]
  exact meaning_common_literal h hu hl

/-- A common base with other exponents leaves a power to their difference above the line. -/
theorem meaning_common_symbolic {f : Fraction Exact} {common : Common Exact}
    (h : common? f.denominator f.numerator = some common) :
    f.meaning b ≤ (f.without common).meaning b * Side.above.factor ((common.base.meaning b).power
      ((sumRule [common.upper, common.lower.neg]).value.meaning b)) := by
  have hdifference := meaning_sumRule (b := b) [common.upper, common.lower.neg]
  rw [List.map_cons, List.map_singleton, List.sum_cons, List.sum_singleton, meaning_neg] at hdifference
  exact (meaning_common h).trans (mul_le_mul_right (power_mono le_rfl hdifference) _)

/-- The power that a common base leaves may be absorbed again. -/
theorem meaning_restore {f : Fraction Exact} {common : Common Exact} {side : Side}
    {exponent factor : Expr Exact} (h : f.meaning b ≤ (f.without common).meaning b *
      side.factor ((common.base.meaning b).power (exponent.meaning b)))
    (hfactor : (common.base.meaning b).power (exponent.meaning b) ≤ factor.meaning b) :
    f.meaning b ≤ (absorb side (f.without common) factor).value.meaning b :=
  h.trans ((mul_le_mul_right (Side.factor_mono hfactor) _).trans (meaning_absorb side _ factor))

/-- A common base with literal exponents that do not differ contributes nothing. -/
theorem meaning_without {f : Fraction Exact} {common : Common Exact} {u l : Exact}
    (h : common? f.denominator f.numerator = some common) (hu : common.upper.real? = some u)
    (hl : common.lower.real? = some l) (hpos : Scalar.lt Scalar.zero (u - l) = false)
    (hneg : Scalar.lt (u - l) Scalar.zero = false) :
    f.meaning b ≤ (f.without common).meaning b := by
  have hzero : ofExact (u - l) ≤ finite 0 := by
    cases hdifference : u - l with
    | missing => exact absent_le
    | number r =>
      rw [hdifference, Exact.zero_eq, lt_number, decide_eq_false_iff_not, not_lt] at hpos hneg
      rw [le_antisymm hpos hneg, ofExact_number]
  calc f.meaning b
      ≤ (f.without common).meaning b * (common.base.meaning b).power (ofExact (u - l)) :=
        meaning_common_literal h hu hl
    _ ≤ (f.without common).meaning b * 1 :=
        mul_le_mul_right ((power_mono le_rfl hzero).trans (power_zero_le _)) _
    _ = (f.without common).meaning b := mul_one _

/-- Gathering factors from both sides multiplies and divides by them. -/
theorem meaning_gather (c : Coefficient Exact) (n d : List (Expr Exact)) :
    c.meaning * (n.map (Expr.meaning b)).prod * (d.map (Expr.meaning b)).prod⁻¹ ≤
      (absorbAll .below (absorbAll .above { coefficient := c } n).value d).value.meaning b := by
  have hstart : c.meaning = ({ coefficient := c } : Fraction Exact).meaning b := by
    simp [Fraction.meaning]
  have habove := meaning_absorbAll (b := b) .above { coefficient := c } n
  rw [← hstart] at habove
  exact (mul_le_mul_left habove _).trans (meaning_absorbAll .below _ d)

/-- A plain addend is multiplied by multiplying its coefficient. -/
theorem meaning_multiple (c : Coefficient Exact) {e : Expr Exact} (he : e.Plain) :
    c.meaning * e.meaning b ≤ (ofScaleParts (c * e.scaleParts.1) e.scaleParts.2).meaning b := by
  rw [← meaning_scaleParts e, ← mul_assoc, ← Coefficient.meaning_mul]
  exact meaning_ofScaleParts _ he.unscaled_scaleParts

/-- A sum of plain addends is multiplied by multiplying every addend. -/
theorem meaning_distribute (c : Coefficient Exact) {addends : List (Expr Exact)}
    (h : ∀ e ∈ addends, e.Plain) : c.meaning * (addends.map (Expr.meaning b)).sum ≤
      ((distribute c addends).map (Expr.meaning b)).sum := by
  cases hc : c.value with
  | missing =>
    rw [Coefficient.meaning, hc, ofExact_missing, absent_mul]
    exact absent_le
  | number r =>
    have hr : c.meaning = finite r := congrArg ofExact hc
    rw [hr, finite_mul_sum, List.map_map, distribute, List.map_map]
    refine List.Forall₂.sum_le_sum ?_
    rw [List.forall₂_map_left_iff, List.forall₂_map_right_iff, List.forall₂_same]
    intro e he
    have hmultiple := meaning_multiple (b := b) c (h e he)
    rwa [hr] at hmultiple

/-- Finishing a product keeps what it means if its factors are plain. -/
theorem meaning_finish {f : Fraction Exact} (h : f.Has Plain) :
    f.meaning b ≤ f.finish.value.meaning b := by
  cases hc : f.coefficient.isZero with
  | true =>
    rw [finish, if_pos hc, meaning_zero, meaning, mul_assoc, mul_assoc]
    exact (mul_le_mul_left (Coefficient.meaning_le_of_isZero hc) _).trans (zero_mul_le _)
  | false =>
    rw [finish_eq hc]
    have hplain : ∀ e ∈ sort f.numerator, e.Plain :=
      fun e he => (h.1 e ((sort_perm _).mem_iff.mp he)).1
    have hmeaning : f.meaning b ≤ f.coefficient.meaning *
        ((sort f.numerator).map (Expr.meaning b)).prod *
        ((sort f.divisors).map (Expr.meaning b)).prod⁻¹ := by
      rw [((sort_perm _).map _).prod_eq, ((sort_perm _).map _).prod_eq, meaning, divisors]
      cases f.zeroDivisor with
      | true =>
        rw [if_pos rfl, if_pos rfl, List.map_singleton, List.prod_singleton, meaning_zero, inv_zero,
          mul_assoc]
        exact mul_le_mul_right (mul_infinite_le _) _
      | false =>
        rw [if_neg Bool.false_ne_true, if_neg Bool.false_ne_true, mul_one]
    refine hmeaning.trans ?_
    generalize sort f.numerator = n at hplain
    generalize sort f.divisors = d
    have outcome := assembly f.coefficient n d
    generalize (assemble f.coefficient n d).value = e at outcome
    cases outcome with
    | sum hone =>
      rw [Coefficient.meaning_of_isOne hone, one_mul, List.map_singleton, List.prod_singleton,
        List.map_nil, List.prod_nil, inv_one, mul_one]
    | distributed =>
      rw [List.map_singleton, List.prod_singleton, List.map_nil, List.prod_nil, inv_one, mul_one,
        meaning_sum]
      have hsum := hereditary_plain.sum.mp (hplain _ List.mem_cons_self)
      exact (meaning_distribute _ hsum).trans (meaning_sumRule _)
    | number =>
      rw [meaning_real, List.map_nil, List.prod_nil, inv_one, mul_one, mul_one]
      exact le_rfl
    | factor hone =>
      rw [Coefficient.meaning_of_isOne hone, one_mul, List.map_singleton, List.prod_singleton,
        List.map_nil, List.prod_nil, inv_one, mul_one]
    | product _ => exact (meaning_product _ _ _).ge

end Fraction

end SymbolicAlgebra.Reduction
