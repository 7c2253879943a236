import SymbolicAlgebra.Proofs.Exact.Coefficient
import SymbolicAlgebra.Proofs.Expr.Value

/-!
# Expressions as functions of one variable

With all other variables fixed, an expression over exact numbers is a partial function of one
variable. It is defined where its value is a number. Where a sum, a product, a logarithm or a
function is defined its parts are defined; a power may be one without that, since the power of
anything to zero is one and so is every power of one.
-/

namespace SymbolicAlgebra

open Exact

namespace Exact

/-- A sum is a number if all its addends are. -/
theorem foldl_add_eq_number {vs : List Exact} {x : Exact} {r : ℝ}
    (h : vs.foldl (· + ·) x = number r) :
    ∃ (a : ℝ) (as : List ℝ), x = number a ∧ vs = as.map number ∧ r = a + as.sum := by
  induction vs generalizing x with
  | nil => exact ⟨r, [], h, rfl, by simp⟩
  | cons v vs ih =>
    obtain ⟨s, as, hs, rfl, rfl⟩ := ih h
    cases x with
    | missing => simp at hs
    | number a =>
      cases v with
      | missing => simp at hs
      | number a' =>
        cases hs
        exact ⟨a, a' :: as, rfl, rfl, by rw [List.sum_cons]; ring⟩

/-- A product is a number if all its factors are. -/
theorem foldl_mul_eq_number {vs : List Exact} {x : Exact} {r : ℝ}
    (h : vs.foldl (· * ·) x = number r) :
    ∃ (a : ℝ) (as : List ℝ), x = number a ∧ vs = as.map number ∧ r = a * as.prod := by
  induction vs generalizing x with
  | nil => exact ⟨r, [], h, rfl, by simp⟩
  | cons v vs ih =>
    obtain ⟨s, as, hs, rfl, rfl⟩ := ih h
    cases x with
    | missing => simp at hs
    | number a =>
      cases v with
      | missing => simp at hs
      | number a' =>
        cases hs
        exact ⟨a, a' :: as, rfl, rfl, by rw [List.prod_cons]; ring⟩

/-- Multiplying numbers gives their product. -/
theorem foldl_mul_number (as : List ℝ) (a : ℝ) :
    (as.map number).foldl (· * ·) (number a) = number (a * as.prod) := by
  induction as generalizing a with
  | nil => simp
  | cons a' as ih => simp [ih, mul_assoc]

/-- Adding numbers gives their sum. -/
theorem foldl_add_number (as : List ℝ) (a : ℝ) :
    (as.map number).foldl (· + ·) (number a) = number (a + as.sum) := by
  induction as generalizing a with
  | nil => simp
  | cons a' as ih => simp [ih, add_assoc]

/-- A quotient is a number if both its parts are and the divisor is not zero. -/
theorem div_eq_number {x y : Exact} {r : ℝ} (h : x / y = number r) :
    ∃ a b, x = number a ∧ y = number b ∧ b ≠ 0 ∧ r = a / b := by
  obtain ⟨a, b, rfl, rfl, hb⟩ | rfl | rfl | rfl := Coefficient.fraction_cases x y
  · rw [number_div hb] at h
    cases h
    exact ⟨a, b, rfl, rfl, hb, rfl⟩
  · simp at h
  · simp at h
  · simp at h

end Exact

namespace Coefficient

/-- The number that a coefficient is; zero if it is none. -/
noncomputable def real (c : Coefficient Exact) : ℝ :=
  match c.value with
  | number r => r
  | missing => 0

/-- The coefficient is a number. -/
def IsNumber (c : Coefficient Exact) : Prop := c.value = number c.real

variable {c c' : Coefficient Exact}

/-- A coefficient is the number that its value is. -/
theorem isNumber_of_value {r : ℝ} (h : c.value = number r) : c.IsNumber ∧ c.real = r := by
  have hreal : c.real = r := by rw [real, h]
  exact ⟨by rw [IsNumber, hreal, h], hreal⟩

/-- A coefficient that is a number is the quotient of two others. -/
theorem IsNumber.exists_parts (h : c.IsNumber) :
    ∃ p q, c.numer = number p ∧ c.denom = number q ∧ q ≠ 0 ∧ c.real = p / q := div_eq_number h

/-- The coefficient zero is the number zero, if any. -/
theorem real_of_isZero (h : c.isZero = true) : c.real = 0 := by
  rw [isZero, Exact.zero_eq, eq_iff] at h
  obtain ⟨r, hnumer, hr⟩ := h
  cases hr
  rw [real, value, hnumer]
  obtain ⟨a, b, ha, hb, hne⟩ | h | h | h := fraction_cases (number 0) c.denom
  · rw [hb, number_div hne, zero_div]
  · cases h
  · rw [h, div_missing]
  · rw [h, div_number_zero]

/-- A product of coefficients is a number if both are. -/
theorem isNumber_mul (h : (c * c').IsNumber) :
    c.IsNumber ∧ c'.IsNumber ∧ (c * c').real = c.real * c'.real := by
  have hvalue : c.value * c'.value = number (c * c').real := (value_mul c c').symm.trans h
  cases hc : c.value with
  | missing =>
    rw [hc, missing_mul] at hvalue
    cases hvalue
  | number a =>
    cases hc' : c'.value with
    | missing =>
      rw [hc', mul_missing] at hvalue
      cases hvalue
    | number a' =>
      obtain ⟨hnumber, rfl⟩ := isNumber_of_value hc
      obtain ⟨hnumber', rfl⟩ := isNumber_of_value hc'
      rw [hc, hc', number_mul] at hvalue
      exact ⟨hnumber, hnumber', (Exact.number.inj hvalue).symm⟩

/-- The coefficient of a number is that number. -/
theorem isNumber_ofScalar {x : Exact} (h : (ofScalar x).IsNumber) :
    x = number (ofScalar x).real := by
  have hvalue : x / number 1 = number (ofScalar x).real := by
    rw [← Exact.one_eq, ← value_ofFraction]
    exact h
  obtain ⟨a, b, rfl, hb, -, hr⟩ := div_eq_number hvalue
  cases hb
  rw [hr, div_one]

/-- No fraction is zero whose upper part is not. -/
theorem isZero_ofFraction {n d : Exact} (h : (ofFraction n d).isZero = true) : n = number 0 := by
  have hzero {x : Exact} (hx : Scalar.eq (Scalar.unsignZero x) Scalar.zero = true) :
      x = number 0 := by
    rw [unsignZero_eq, Exact.zero_eq, eq_iff] at hx
    obtain ⟨r, hx, hr⟩ := hx
    exact hx.trans hr.symm
  have hquotient {x y : Exact} (hxy : x / y = number 0) : x = number 0 := by
    obtain ⟨a, b, rfl, rfl, hb, hab⟩ := div_eq_number hxy
    rw [(div_eq_zero_iff.mp hab.symm).resolve_right hb]
  have hneg {x : Exact} (hx : -x = number 0) : x = number 0 := by
    cases x with
    | missing => cases hx
    | number a =>
      rw [neg_number] at hx
      rw [neg_eq_zero.mp (Exact.number.inj hx)]
  -- the sign that the divisor gives away is the only difference
  have hreduced {n d : Exact} (h : (if isExact n && isExact d then
      if 1 < Int.gcd (Scalar.toInt n) (Scalar.toInt d) then
        (⟨Scalar.unsignZero (n / Scalar.ofInt (Int.gcd (Scalar.toInt n) (Scalar.toInt d))),
          d / Scalar.ofInt (Int.gcd (Scalar.toInt n) (Scalar.toInt d))⟩ : Coefficient Exact)
      else ⟨Scalar.unsignZero n, d⟩
    else ⟨Scalar.unsignZero (n / d), Scalar.one⟩).isZero = true) : n = number 0 := by
    split at h
    · split at h
      · exact hquotient (hzero h)
      · exact hzero h
    · exact hquotient (hzero h)
  rw [ofFraction] at h
  cases hflip : Scalar.lt d Scalar.zero with
  | false =>
    simp only [hflip, Bool.false_eq_true, if_false] at h
    exact hreduced h
  | true =>
    simp only [hflip, if_true] at h
    exact hneg (hreduced h)

/-- A product of coefficients is zero only if one of them is. -/
theorem isZero_mul (h : (c * c').isZero = true) : c.isZero = true ∨ c'.isZero = true := by
  have hnumer : c.numer * c'.numer = number 0 := isZero_ofFraction h
  rw [isZero, isZero, Exact.zero_eq]
  cases hc : c.numer with
  | missing =>
    rw [hc, missing_mul] at hnumer
    cases hnumer
  | number a =>
    cases hc' : c'.numer with
    | missing =>
      rw [hc', mul_missing] at hnumer
      cases hnumer
    | number a' =>
      rw [hc, hc', number_mul] at hnumer
      simpa using mul_eq_zero.mp (Exact.number.inj hnumer)

end Coefficient

/-- The points at which all variables have values but one, which varies. -/
structure Line where
  rest : Bindings Exact
  name : String

namespace Line

variable (ℓ : Line)

/-- The point at which the variable has the given value. -/
def point (y : ℝ) : Bindings Exact := ℓ.rest.insert ℓ.name (number y)

/-- The value of an expression as a function of the variable; zero where there is none. -/
noncomputable def fn (e : Expr Exact) (y : ℝ) : ℝ :=
  match e.value (ℓ.point y) with
  | .ok (number r) => r
  | _ => 0

/-- The values of the variable at which an expression is defined. -/
def domain (e : Expr Exact) : Set ℝ := {y | e.value (ℓ.point y) = .ok (number (ℓ.fn e y))}

/-- The expression has the same value wherever it is defined. -/
def Steady (e : Expr Exact) : Prop := ∀ y ∈ ℓ.domain e, ∀ z ∈ ℓ.domain e, ℓ.fn e y = ℓ.fn e z

/-- The expression is defined, or it is recognized as zero, and counts as zero even where it is not
defined. -/
def Counts (e : Expr Exact) (y : ℝ) : Prop := e.isZero = true ∨ y ∈ ℓ.domain e

variable {ℓ} {e : Expr Exact} {y r : ℝ}

/-- What an expression takes as its value is that of the function. -/
theorem fn_eq_of_value (h : e.value (ℓ.point y) = .ok (number r)) : ℓ.fn e y = r := by
  rw [fn, h]

/-- An expression is defined where its value is a number. -/
theorem mem_domain_of_value (h : e.value (ℓ.point y) = .ok (number r)) : y ∈ ℓ.domain e := by
  rw [domain, Set.mem_ofPred_eq, fn_eq_of_value h, h]

/-- Where an expression is not defined the function is zero. -/
theorem fn_of_notMem_domain (h : y ∉ ℓ.domain e) : ℓ.fn e y = 0 := by
  rw [fn]
  split
  · rename_i r hr
    exact absurd (mem_domain_of_value hr) h
  · rfl

/-- Expressions with the same values have the same domain. -/
theorem mem_domain_iff_of_value_eq {e' : Expr Exact} {z : ℝ}
    (h : e.value (ℓ.point y) = e'.value (ℓ.point z)) :
    (y ∈ ℓ.domain e ↔ z ∈ ℓ.domain e') ∧ ℓ.fn e y = ℓ.fn e' z := by
  have hfn : ℓ.fn e y = ℓ.fn e' z := by rw [fn, fn, h]
  refine ⟨?_, hfn⟩
  rw [domain, domain, Set.mem_ofPred_eq, Set.mem_ofPred_eq, h, hfn]

section Lists

/-- Expressions of a list whose values are numbers are defined, and these are their values. -/
theorem map_fn_of_values {es : List (Expr Exact)} {rs : List ℝ}
    (h : Expr.values (ℓ.point y) es = .ok (rs.map number)) :
    (∀ e ∈ es, y ∈ ℓ.domain e) ∧ rs = es.map (ℓ.fn · y) := by
  have hforall := Expr.values_eq_ok.mp h
  rw [List.forall₂_map_right_iff] at hforall
  induction hforall with
  | nil => exact ⟨List.forall_mem_nil _, rfl⟩
  | cons hhead htail ih =>
    obtain ⟨hdomain, rfl⟩ := ih (Expr.values_eq_ok.mpr (List.forall₂_map_right_iff.mpr htail))
    exact ⟨List.forall_mem_cons.mpr ⟨mem_domain_of_value hhead, hdomain⟩,
      by rw [List.map_cons, fn_eq_of_value hhead]⟩

/-- Expressions that are all defined have their functions' values. -/
theorem values_of_forall_mem_domain {es : List (Expr Exact)} (h : ∀ e ∈ es, y ∈ ℓ.domain e) :
    Expr.values (ℓ.point y) es = .ok ((es.map (ℓ.fn · y)).map number) := by
  rw [Expr.values_eq_ok, List.map_map, List.forall₂_map_right_iff, List.forall₂_same]
  exact fun e he => h e he

end Lists

section Sum

variable {as : List (Expr Exact)}

/-- The value of a sum of numbers is their sum. -/
theorem value_sum (h : ∀ e ∈ as, y ∈ ℓ.domain e) :
    (Expr.sum as).value (ℓ.point y) = .ok (number (as.map (ℓ.fn · y)).sum) := by
  rw [Expr.value, values_of_forall_mem_domain h]
  change Except.ok (List.foldl _ _ _) = _
  rw [Exact.zero_eq, foldl_add_number, zero_add]

/-- A sum is defined where its addends are. -/
theorem mem_domain_sum : y ∈ ℓ.domain (.sum as) ↔ ∀ e ∈ as, y ∈ ℓ.domain e := by
  constructor
  · intro h
    have hvalue : (Expr.sum as).value (ℓ.point y) = .ok (number (ℓ.fn (.sum as) y)) := h
    rw [Expr.value] at hvalue
    obtain ⟨vs, hvs, hfold⟩ := Reduction.ok_of_bind hvalue
    obtain ⟨a, rs, -, rfl, -⟩ := foldl_add_eq_number (Except.ok.inj hfold)
    exact (map_fn_of_values hvs).1
  · exact fun h => mem_domain_of_value (value_sum h)

/-- Where a sum is defined it adds up its addends. -/
theorem fn_sum (h : y ∈ ℓ.domain (.sum as)) : ℓ.fn (.sum as) y = (as.map (ℓ.fn · y)).sum :=
  fn_eq_of_value (value_sum (mem_domain_sum.mp h))

end Sum

section Product

variable {c : Coefficient Exact} {n d : List (Expr Exact)}

/-- The value of a product of numbers is the quotient of the products. -/
theorem value_product (hc : c.IsNumber) (hn : ∀ e ∈ n, y ∈ ℓ.domain e)
    (hd : ∀ e ∈ d, y ∈ ℓ.domain e) (hne : (d.map (ℓ.fn · y)).prod ≠ 0) :
    (Expr.product c n d).value (ℓ.point y) =
      .ok (number (c.real * (n.map (ℓ.fn · y)).prod / (d.map (ℓ.fn · y)).prod)) := by
  obtain ⟨p, q, hp, hq, hq0, hreal⟩ := hc.exists_parts
  have hbelow : ¬ Scalar.eq (number (q * (d.map (ℓ.fn · y)).prod)) Scalar.zero = true := by
    simp [hq0, hne]
  rw [Expr.value, values_of_forall_mem_domain hn, values_of_forall_mem_domain hd]
  change Except.ok (Expr.productValue _ _ _) = _
  rw [Expr.productValue, hp, hq, foldl_mul_number, foldl_mul_number, if_neg hbelow,
    number_div (mul_ne_zero hq0 hne), hreal, div_mul_eq_mul_div, div_div]

/-- A product is defined where its coefficient and its factors are and the divisor is not zero. -/
theorem mem_domain_product :
    y ∈ ℓ.domain (.product c n d) ↔ c.IsNumber ∧ (∀ e ∈ n, y ∈ ℓ.domain e) ∧
      (∀ e ∈ d, y ∈ ℓ.domain e) ∧ (d.map (ℓ.fn · y)).prod ≠ 0 := by
  constructor
  · intro h
    have hvalue : (Expr.product c n d).value (ℓ.point y) = .ok (number (ℓ.fn _ y)) := h
    rw [Expr.value] at hvalue
    obtain ⟨ns, hns, hvalue⟩ := Reduction.ok_of_bind hvalue
    obtain ⟨ds, hds, hvalue⟩ := Reduction.ok_of_bind hvalue
    have hproduct : Expr.productValue c ns ds = number (ℓ.fn (.product c n d) y) :=
      Except.ok.inj hvalue
    rw [Expr.productValue] at hproduct
    split at hproduct
    · cases hproduct
    · obtain ⟨a, b, ha, hb, hne, -⟩ := div_eq_number hproduct
      obtain ⟨p, ps, hp, rfl, -⟩ := foldl_mul_eq_number ha
      obtain ⟨q, qs, hq, rfl, rfl⟩ := foldl_mul_eq_number hb
      obtain ⟨hn, -⟩ := map_fn_of_values hns
      obtain ⟨hd, rfl⟩ := map_fn_of_values hds
      obtain ⟨hq0, hd0⟩ := mul_ne_zero_iff.mp hne
      refine ⟨(Coefficient.isNumber_of_value (r := p / q) ?_).1, hn, hd, hd0⟩
      rw [Coefficient.value, hp, hq, number_div hq0]
  · rintro ⟨hc, hn, hd, hne⟩
    exact mem_domain_of_value (value_product hc hn hd hne)

/-- Where a product is defined its value is the quotient of the products of its factors. -/
theorem fn_product (h : y ∈ ℓ.domain (.product c n d)) :
    ℓ.fn (.product c n d) y =
      c.real * (n.map (ℓ.fn · y)).prod / (d.map (ℓ.fn · y)).prod := by
  obtain ⟨hc, hn, hd, hne⟩ := mem_domain_product.mp h
  exact fn_eq_of_value (value_product hc hn hd hne)

end Product

open scoped Classical in
/-- A power is defined where its base and its exponent have a power, or where only one of them is
defined and makes the power one. -/
theorem mem_domain_power {a : Expr Exact} (h : y ∈ ℓ.domain (.power a e)) :
    (y ∈ ℓ.domain a ∧ y ∈ ℓ.domain e ∧ HasPower (ℓ.fn a y) (ℓ.fn e y) ∧
        ℓ.fn (.power a e) y = ℓ.fn a y ^ ℓ.fn e y) ∨
      (y ∉ ℓ.domain a ∧ y ∈ ℓ.domain e ∧ ℓ.fn e y = 0 ∧ ℓ.fn (.power a e) y = 1) ∨
      (y ∈ ℓ.domain a ∧ y ∉ ℓ.domain e ∧ ℓ.fn a y = 1 ∧ ℓ.fn (.power a e) y = 1) := by
  have hvalue : (Expr.power a e).value (ℓ.point y) = .ok (number (ℓ.fn _ y)) := h
  rw [Expr.value] at hvalue
  obtain ⟨v, hv, hvalue⟩ := Reduction.ok_of_bind hvalue
  obtain ⟨w, hw, hvalue⟩ := Reduction.ok_of_bind hvalue
  have hpower : Expr.powerValue v w = number (ℓ.fn (.power a e) y) := Except.ok.inj hvalue
  have undefined {x : Expr Exact} (hx : x.value (ℓ.point y) = .ok missing) : y ∉ ℓ.domain x := by
    intro hmem
    cases hx.symm.trans hmem
  rw [Expr.powerValue] at hpower
  split at hpower
  · cases hpower
  · split at hpower
    · cases hpower
    · cases v with
      | missing =>
        cases w with
        | missing => cases hpower
        | number g =>
          refine .inr (.inl ⟨undefined hv, mem_domain_of_value hw, ?_⟩)
          rw [fn_eq_of_value hw]
          change (if g = 0 then number 1 else missing) = _ at hpower
          split at hpower
          · rename_i hg
            exact ⟨hg, (Exact.number.inj hpower).symm⟩
          · cases hpower
      | number f =>
        cases w with
        | missing =>
          refine .inr (.inr ⟨mem_domain_of_value hv, undefined hw, ?_⟩)
          rw [fn_eq_of_value hv]
          change (if f = 1 then number 1 else missing) = _ at hpower
          split at hpower
          · rename_i hf
            exact ⟨hf, (Exact.number.inj hpower).symm⟩
          · cases hpower
        | number g =>
          refine .inl ⟨mem_domain_of_value hv, mem_domain_of_value hw, ?_⟩
          rw [fn_eq_of_value hv, fn_eq_of_value hw]
          change (if HasPower f g then number (f ^ g) else missing) = _ at hpower
          split at hpower
          · rename_i hhas
            exact ⟨hhas, (Exact.number.inj hpower).symm⟩
          · cases hpower

section Logarithm

variable {a : Expr Exact}

/-- The value of a logarithm of numbers is the quotient of the natural logarithms. -/
theorem value_log (ha : y ∈ ℓ.domain a) (he : y ∈ ℓ.domain e) (hpos : 0 < ℓ.fn a y)
    (hne : ℓ.fn a y ≠ 1) (hbody : 0 < ℓ.fn e y) :
    (Expr.log a e).value (ℓ.point y) =
      .ok (number (Real.log (ℓ.fn e y) / Real.log (ℓ.fn a y))) := by
  have hvalues : a.value (ℓ.point y) = .ok (number (ℓ.fn a y)) ∧
      e.value (ℓ.point y) = .ok (number (ℓ.fn e y)) := ⟨ha, he⟩
  have hdefined : ¬ (Scalar.le (number (ℓ.fn a y)) Scalar.zero ||
      Scalar.eq (number (ℓ.fn a y)) Scalar.one ||
      Scalar.le (number (ℓ.fn e y)) Scalar.zero) = true := by
    simp [hpos, hne, hbody]
  have hlog (r : ℝ) (hr : 0 < r) : Scalar.log (number r) = number (Real.log r) := if_pos hr
  rw [Expr.value, hvalues.1, hvalues.2]
  change Except.ok (Expr.logValue _ _) = _
  rw [Expr.logValue, if_neg hdefined, hlog _ hpos, hlog _ hbody,
    number_div (Real.log_ne_zero_of_pos_of_ne_one hpos hne)]

/-- A logarithm is defined where its base is positive and not one and its body is positive. -/
theorem mem_domain_log :
    y ∈ ℓ.domain (.log a e) ↔ y ∈ ℓ.domain a ∧ y ∈ ℓ.domain e ∧ 0 < ℓ.fn a y ∧ ℓ.fn a y ≠ 1 ∧
      0 < ℓ.fn e y := by
  constructor
  · intro h
    have hvalue : (Expr.log a e).value (ℓ.point y) = .ok (number (ℓ.fn _ y)) := h
    rw [Expr.value] at hvalue
    obtain ⟨v, hv, hvalue⟩ := Reduction.ok_of_bind hvalue
    obtain ⟨w, hw, hvalue⟩ := Reduction.ok_of_bind hvalue
    have hlog : Expr.logValue v w = number (ℓ.fn (.log a e) y) := Except.ok.inj hvalue
    have hmissing : Scalar.log missing = missing := rfl
    rw [Expr.logValue] at hlog
    split at hlog
    · cases hlog
    · rename_i hdefined
      cases v with
      | missing =>
        rw [hmissing, div_missing] at hlog
        cases hlog
      | number f =>
        cases w with
        | missing =>
          rw [hmissing, missing_div] at hlog
          cases hlog
        | number g =>
          have hparts : 0 < f ∧ f ≠ 1 ∧ 0 < g := by simpa [and_assoc] using hdefined
          rw [fn_eq_of_value hv, fn_eq_of_value hw]
          exact ⟨mem_domain_of_value hv, mem_domain_of_value hw, hparts⟩
  · rintro ⟨ha, he, hpos, hne, hbody⟩
    exact mem_domain_of_value (value_log ha he hpos hne hbody)

/-- Where a logarithm is defined it is the quotient of the natural logarithms. -/
theorem fn_log (h : y ∈ ℓ.domain (.log a e)) :
    ℓ.fn (.log a e) y = Real.log (ℓ.fn e y) / Real.log (ℓ.fn a y) := by
  obtain ⟨ha, he, hpos, hne, hbody⟩ := mem_domain_log.mp h
  exact fn_eq_of_value (value_log ha he hpos hne hbody)

/-- A constant has its value everywhere. -/
theorem value_constant (k : Constant) : (Expr.constant k).value (ℓ.point y) = .ok k.value := rfl

/-- Euler's number is defined everywhere. -/
theorem fn_euler (y : ℝ) :
    y ∈ ℓ.domain (.constant .e) ∧ ℓ.fn (.constant .e) y = Real.exp 1 :=
  ⟨mem_domain_of_value (value_constant .e), fn_eq_of_value (value_constant .e)⟩

/-- A natural logarithm is defined where its body is positive. -/
theorem mem_domain_ln : y ∈ ℓ.domain (.ln e) ↔ y ∈ ℓ.domain e ∧ 0 < ℓ.fn e y := by
  obtain ⟨hmem, heuler⟩ := fn_euler (ℓ := ℓ) y
  have hne : Real.exp 1 ≠ 1 := by simp
  rw [Expr.ln, mem_domain_log, heuler]
  exact ⟨fun h => ⟨h.2.1, h.2.2.2.2⟩, fun h => ⟨hmem, h.1, Real.exp_pos 1, hne, h.2⟩⟩

/-- Where a natural logarithm is defined it is one. -/
theorem fn_ln (h : y ∈ ℓ.domain (.ln e)) : ℓ.fn (.ln e) y = Real.log (ℓ.fn e y) := by
  rw [Expr.ln, fn_log h, (fn_euler y).2, Real.log_exp, div_one]

end Logarithm

/-- A function is defined where its body is, a tangent only away from its poles. -/
theorem mem_domain_trig {f : Trig} (h : y ∈ ℓ.domain (.trig f e)) :
    y ∈ ℓ.domain e ∧ match f with
      | .sin => ℓ.fn (.trig f e) y = Real.sin (ℓ.fn e y)
      | .cos => ℓ.fn (.trig f e) y = Real.cos (ℓ.fn e y)
      | .tan => ℓ.fn (.trig f e) y = Real.tan (ℓ.fn e y) ∧ Real.cos (ℓ.fn e y) ≠ 0 := by
  have hvalue : (Expr.trig f e).value (ℓ.point y) = .ok (number (ℓ.fn _ y)) := h
  rw [Expr.value] at hvalue
  obtain ⟨v, hv, hvalue⟩ := Reduction.ok_of_bind hvalue
  have htrig : f.value v = number (ℓ.fn (.trig f e) y) := Except.ok.inj hvalue
  cases v with
  | missing =>
    cases f with
    | sin => cases htrig
    | cos => cases htrig
    | tan =>
      rw [Trig.value] at htrig
      split at htrig <;> cases htrig
  | number g =>
    refine ⟨mem_domain_of_value hv, ?_⟩
    rw [fn_eq_of_value hv]
    cases f with
    | sin => exact (Exact.number.inj htrig).symm
    | cos => exact (Exact.number.inj htrig).symm
    | tan =>
      rw [Trig.value] at htrig
      split at htrig
      · cases htrig
      · rename_i hpole
        refine ⟨(Exact.number.inj htrig).symm, fun hcos => hpole ?_⟩
        change Scalar.lt (number |Real.cos g|) (number ((1 : ℤ) * (10 : ℝ) ^ (-12 : ℤ))) = true
        rw [hcos, lt_number, decide_eq_true_eq]
        norm_num

/-- The variable itself is defined everywhere. -/
theorem fn_var (y : ℝ) : y ∈ ℓ.domain (.var ℓ.name) ∧ ℓ.fn (.var ℓ.name) y = y := by
  have hvalue : (Expr.var ℓ.name).value (ℓ.point y) = .ok (number y) := by
    rw [Expr.value, point, Bindings.get?_insert_self]
  exact ⟨mem_domain_of_value hvalue, fn_eq_of_value hvalue⟩

/-- A literal is defined if it is a number. -/
theorem mem_domain_real {x : Exact} (h : y ∈ ℓ.domain (.number (.real x))) :
    x = number (ℓ.fn (.number (.real x)) y) := Except.ok.inj h

/-- A literal that is a number is defined everywhere. -/
theorem fn_real (r y : ℝ) : y ∈ ℓ.domain (.real (number r)) ∧ ℓ.fn (.real (number r)) y = r := by
  have hvalue : (Expr.real (number r)).value (ℓ.point y) = .ok (number r) := by
    rw [Expr.real, Expr.value, Number.literal, unsignZero_eq, Number.value]
  exact ⟨mem_domain_of_value hvalue, fn_eq_of_value hvalue⟩

/-- A square is defined where its base is. -/
theorem mem_domain_square (h : y ∈ ℓ.domain (.power e (.real (Scalar.ofInt 2)))) :
    y ∈ ℓ.domain e ∧ ℓ.fn (.power e (.real (Scalar.ofInt 2))) y = ℓ.fn e y ^ 2 := by
  obtain ⟨hmem, htwo⟩ := fn_real (ℓ := ℓ) 2 y
  obtain ⟨he, -, -, hvalue⟩ | ⟨-, -, hzero, -⟩ | ⟨-, hundefined, -, -⟩ := mem_domain_power h
  · refine ⟨he, ?_⟩
    rw [hvalue]
    change ℓ.fn e y ^ ℓ.fn (.real (number ((2 : ℤ) : ℝ))) y = _
    rw [Int.cast_ofNat, htwo]
    exact Real.rpow_natCast (ℓ.fn e y) 2
  · change ℓ.fn (.real (number ((2 : ℤ) : ℝ))) y = 0 at hzero
    rw [Int.cast_ofNat, htwo] at hzero
    norm_num at hzero
  · change y ∉ ℓ.domain (.real (number ((2 : ℤ) : ℝ))) at hundefined
    rw [Int.cast_ofNat] at hundefined
    exact absurd hmem hundefined

/-- An expression that is recognized as zero is zero where it is defined, and elsewhere the function
is. -/
theorem fn_of_isZero (h : e.isZero = true) : ℓ.fn e y = 0 := by
  by_cases hy : y ∈ ℓ.domain e
  · have literal {x : Expr Exact} (hx : x.isReal Scalar.zero = true) (hy : y ∈ ℓ.domain x) :
        ℓ.fn x y = 0 := by
      cases x with
      | number v =>
        cases v with
        | real v =>
          have hzero : Scalar.eq v Scalar.zero = true := hx
          rw [mem_domain_real hy, Exact.zero_eq, eq_number, decide_eq_true_eq] at hzero
          exact hzero
        | constant k => cases hx
      | _ => cases hx
    cases e with
    | product c n d => rw [fn_product hy, Coefficient.real_of_isZero h, zero_mul, zero_div]
    | _ => exact literal h hy
  · exact fn_of_notMem_domain hy

/-- An expression without the variable has the same value everywhere. -/
theorem value_of_not_dependsOn (h : e.dependsOn ℓ.name = false) (hy : y ∈ ℓ.domain e) (z : ℝ) :
    e.value (ℓ.point y) = e.value (ℓ.point z) := by
  have hbound := Expr.variablesIn_of_value (show e.value (ℓ.point y) = _ from hy)
  apply Expr.value_eq_of_variablesIn
  intro x hx
  have hx' := hbound x hx
  cases x with
  | var other =>
    have hother : other ≠ ℓ.name := by
      rintro rfl
      have hnone := List.any_eq_false.mp h _ hx
      simp [Expr.isVar] at hnone
    obtain ⟨v, hv⟩ := Option.isSome_iff_exists.mp hx'
    refine ⟨v, hv, ?_⟩
    rw [point, Bindings.get?_insert_of_ne _ _ hother] at hv ⊢
    exact hv
  | _ => trivial

/-- An expression without the variable is steady. -/
theorem steady_of_not_dependsOn (h : e.dependsOn ℓ.name = false) : ℓ.Steady e :=
  fun _ hy z _ => (mem_domain_iff_of_value_eq (value_of_not_dependsOn h hy z)).2

/-- An expression without the variable that is defined somewhere is defined everywhere. -/
theorem mem_domain_of_not_dependsOn (h : e.dependsOn ℓ.name = false) (hy : y ∈ ℓ.domain e) (z : ℝ) :
    z ∈ ℓ.domain e := (mem_domain_iff_of_value_eq (value_of_not_dependsOn h hy z)).1.mp hy

end Line

end SymbolicAlgebra
