import SymbolicAlgebra.Proofs.Derivative.Sound

/-!
# Slopes of products

The terms of the slope of a quotient of products add up to what Leibniz's rule and the quotient rule
give. The factors that do not depend on the variable are the same everywhere and stay in front. If
the coefficient or a factor above the line is recognized as zero, no term is left, and the quotient
is zero wherever it is defined.
-/

namespace SymbolicAlgebra.Derivative

open Exact Line

variable {ℓ : Line} {x : ℝ}

/-- The slope of a factor stands in its place between the factors before it and those after it. -/
theorem mem_replaceEach {factors before : List (Expr Exact)} {ps : List (Pair Exact)} :
    factors ∈ replaceEach before ps ↔ ∃ l p r, ps = l ++ p :: r ∧
      factors = before ++ (l.map Pair.expr ++ p.slope :: r.map Pair.expr) := by
  induction ps generalizing before with
  | nil => simp [replaceEach]
  | cons p ps ih =>
    rw [replaceEach, List.mem_cons, ih]
    constructor
    · rintro (rfl | ⟨l, p', r, rfl, rfl⟩)
      · exact ⟨[], p, ps, rfl, rfl⟩
      · exact ⟨p :: l, p', r, rfl, by simp⟩
    · rintro ⟨l, p', r, hps, rfl⟩
      cases l with
      | nil =>
        cases hps
        exact .inl rfl
      | cons p'' l =>
        cases hps
        exact .inr ⟨l, p', r, rfl, by simp⟩

/-- If none of the factors is recognized as zero, only its slope can be in the place of a factor. -/
theorem exists_isZero_iff {l r : List (Pair Exact)} {p : Pair Exact}
    (h : ∀ p' ∈ l ++ p :: r, p'.expr.isZero = false) :
    (∃ e ∈ [] ++ (l.map Pair.expr ++ p.slope :: r.map Pair.expr), e.isZero = true) ↔
      p.slope.isZero = true := by
  rw [List.forall_mem_append, List.forall_mem_cons] at h
  obtain ⟨hl, -, hr⟩ := h
  constructor
  · rintro ⟨e, he, hzero⟩
    rw [List.nil_append, List.mem_append, List.mem_cons, List.mem_map, List.mem_map] at he
    obtain ⟨p', hp', rfl⟩ | rfl | ⟨p', hp', rfl⟩ := he
    · rw [hl p' hp'] at hzero
      cases hzero
    · exact hzero
    · rw [hr p' hp'] at hzero
      cases hzero
  · exact fun hzero => ⟨p.slope, by simp, hzero⟩

/-- Replacing each factor by its slope gives the terms of Leibniz's rule. -/
theorem sum_replaceEach (before : List (Expr Exact)) (ps : List (Pair Exact)) :
    ((replaceEach before ps).map fun factors => (factors.map (ℓ.fn · x)).prod).sum =
      (before.map (ℓ.fn · x)).prod * leibniz ℓ x ps := by
  induction ps generalizing before with
  | nil => simp [replaceEach, leibniz]
  | cons p ps ih =>
    rw [replaceEach, List.map_cons, List.sum_cons, ih, leibniz, List.map_append, List.prod_append,
      List.map_cons, List.prod_cons, prod_map_expr, List.map_append, List.prod_append,
      List.map_singleton, List.prod_singleton]
    ring

namespace Quotient

/-- The coefficient or a factor above the line is recognized as zero. -/
def Vanishes (q : Quotient Exact) : Prop :=
  q.coefficient.isZero = true ∨ (∃ e ∈ q.fixedNumerator, e.isZero = true) ∨
    ∃ p ∈ q.numerator, p.expr.isZero = true

variable {q : Quotient Exact}

/-- The fixed part vanishes with the coefficient or a fixed factor. -/
theorem fixedPart_eq_none :
    q.fixedPart = none ↔ q.coefficient.isZero = true ∨ ∃ e ∈ q.fixedNumerator, e.isZero = true := by
  rw [fixedPart]
  cases hscale : (Term.unit : Term Exact).scale q.coefficient with
  | none => exact iff_of_true rfl (.inl (Term.scale_eq_none.mp hscale))
  | some t =>
    have hc : ¬ q.coefficient.isZero = true := by
      rw [← Term.scale_eq_none (t := Term.unit), hscale]
      nofun
    rw [or_iff_right hc, ← Term.timesAll_eq_none (t := t)]
    cases htimes : t.timesAll q.fixedNumerator <;> simp [htimes]

/-- Where the fixed part is defined it is the coefficient times the fixed factors over the fixed
divisors. -/
theorem multiplied_fixedPart {t : Term Exact} (h : q.fixedPart = some t) :
    Term.Multiplied ℓ
      (fun y => q.coefficient.real * ((q.fixedNumerator.map (ℓ.fn · y)).prod *
        (q.fixedDenominator.map (ℓ.fn · y)).prod⁻¹))
      (fun y => q.coefficient.IsNumber ∧ (∀ e ∈ q.fixedNumerator, y ∈ ℓ.domain e) ∧
        ∀ e ∈ q.fixedDenominator, y ∈ ℓ.domain e ∧ ℓ.fn e y ≠ 0) Term.unit t := by
  rw [fixedPart] at h
  obtain ⟨t₁, hscale, h⟩ := Option.bind_eq_some_iff.mp h
  obtain ⟨t₂, htimes, h⟩ := Option.bind_eq_some_iff.mp h
  cases h
  exact (Term.multiplied_scale hscale).trans
    ((Term.multiplied_timesAll htimes).trans (Term.multiplied_divideAll _ t₂))

section Terms

variable {t : Term Exact}

/-- The term from a factor above the line that is replaced by its slope. -/
noncomputable def upperTerm (q : Quotient Exact) (t : Term Exact) (factors : List (Expr Exact)) :
    Option (Term Exact) :=
  (t.timesAll factors).map (·.divideAll (q.denominator.map Pair.expr))

/-- The term from a factor below the line. -/
noncomputable def lowerTerm (q : Quotient Exact) (t : Term Exact) (h : Pair Exact) :
    Option (Term Exact) := do
  let t ← t.scale .minusOne
  let t ← t.timesAll (q.numerator.map Pair.expr)
  let t ← t.times h.slope
  return (t.divideAll (q.denominator.map Pair.expr)).divide h.expr

/-- The terms from the factors above the line have the fixed part in front. -/
theorem upperTerms_eq (h : q.fixedPart = some t) :
    q.upperTerms = (replaceEach [] q.numerator).map (Term.toExpr <| q.upperTerm t ·) := by
  rw [upperTerms, h]
  refine List.map_congr_left fun factors _ => congrArg Term.toExpr ?_
  change (t.timesAll factors).bind (fun t => some (t.divideAll _)) = _
  rw [upperTerm]
  cases t.timesAll factors <;> rfl

/-- The terms from the factors below the line have the fixed part in front. -/
theorem lowerTerms_eq (h : q.fixedPart = some t) :
    q.lowerTerms = q.denominator.map (Term.toExpr <| q.lowerTerm t ·) := by
  rw [lowerTerms, h]
  rfl

/-- A term from a factor above the line is the fixed part times all factors over the divisors. -/
theorem multiplied_upperTerm {factors : List (Expr Exact)} {t' : Term Exact}
    (h : q.upperTerm t factors = some t') :
    Term.Multiplied ℓ
      (fun y => (factors.map (ℓ.fn · y)).prod *
        ((q.denominator.map Pair.expr).map (ℓ.fn · y)).prod⁻¹)
      (fun y => (∀ e ∈ factors, y ∈ ℓ.domain e) ∧
        ∀ e ∈ q.denominator.map Pair.expr, y ∈ ℓ.domain e ∧ ℓ.fn e y ≠ 0) t t' := by
  obtain ⟨t₁, htimes, rfl⟩ := Option.map_eq_some_iff.mp h
  exact (Term.multiplied_timesAll htimes).trans (Term.multiplied_divideAll _ t₁)

/-- A term from a factor above the line vanishes with one of its factors. -/
theorem upperTerm_eq_none {factors : List (Expr Exact)} :
    q.upperTerm t factors = none ↔ ∃ e ∈ factors, e.isZero = true := by
  rw [upperTerm, Option.map_eq_none_iff, Term.timesAll_eq_none]

/-- A term from a factor below the line is the opposite of the fixed part times the factors above
the line and the slope of the factor over the divisors and the factor. -/
theorem multiplied_lowerTerm {h : Pair Exact} {t' : Term Exact}
    (hsome : q.lowerTerm t h = some t') :
    Term.Multiplied ℓ
      (fun y => (Coefficient.minusOne : Coefficient Exact).real *
        (((q.numerator.map Pair.expr).map (ℓ.fn · y)).prod * (ℓ.fn h.slope y *
          (((q.denominator.map Pair.expr).map (ℓ.fn · y)).prod⁻¹ * (ℓ.fn h.expr y)⁻¹))))
      (fun y => (Coefficient.minusOne : Coefficient Exact).IsNumber ∧
        (∀ e ∈ q.numerator.map Pair.expr, y ∈ ℓ.domain e) ∧ y ∈ ℓ.domain h.slope ∧
          (∀ e ∈ q.denominator.map Pair.expr, y ∈ ℓ.domain e ∧ ℓ.fn e y ≠ 0) ∧
            y ∈ ℓ.domain h.expr ∧ ℓ.fn h.expr y ≠ 0) t t' := by
  obtain ⟨t₁, hscale, hsome⟩ := Option.bind_eq_some_iff.mp hsome
  obtain ⟨t₂, hfactors, hsome⟩ := Option.bind_eq_some_iff.mp hsome
  obtain ⟨t₃, hslope, hsome⟩ := Option.bind_eq_some_iff.mp hsome
  cases hsome
  exact (Term.multiplied_scale hscale).trans ((Term.multiplied_timesAll hfactors).trans
    ((Term.multiplied_times hslope).2.trans
      ((Term.multiplied_divideAll _ t₃).trans (Term.multiplied_divide _ _))))

/-- A term from a factor below the line vanishes with its slope or with a factor above the line. -/
theorem lowerTerm_eq_none {h : Pair Exact} :
    q.lowerTerm t h = none ↔
      (∃ e ∈ q.numerator.map Pair.expr, e.isZero = true) ∨ h.slope.isZero = true := by
  rw [lowerTerm]
  cases hscale : t.scale (Coefficient.minusOne : Coefficient Exact) with
  | none => exact absurd (Term.scale_eq_none.mp hscale) (by simp [Term.isZero_minusOne])
  | some t₁ =>
    rw [← Term.timesAll_eq_none (t := t₁)]
    cases hfactors : t₁.timesAll (q.numerator.map Pair.expr) with
    | none => simp [hfactors]
    | some t₂ =>
      rw [← Term.times_eq_none (t := t₂)]
      cases hslope : t₂.times h.slope <;> simp [hfactors, hslope]

/-- The term for the reciprocal of a factor below the line. -/
noncomputable def reciprocalTerm (t : Term Exact) (g : Pair Exact) : Option (Term Exact) := do
  let t ← t.scale .minusOne
  let t ← t.times g.slope
  return t.divide (.power g.expr (.real (Scalar.ofInt 2)))

/-- The slope of a reciprocal has the fixed part in front. -/
theorem reciprocalSlope_eq (h : q.fixedPart = some t) (g : Pair Exact) :
    q.reciprocalSlope g = Term.toExpr (reciprocalTerm t g) := by
  rw [reciprocalSlope, h]
  rfl

/-- The slope of a reciprocal is the opposite of the fixed part times the slope of the divisor over
its square. -/
theorem multiplied_reciprocalTerm {g : Pair Exact} {t' : Term Exact}
    (h : reciprocalTerm t g = some t') :
    Term.Multiplied ℓ
      (fun y => (Coefficient.minusOne : Coefficient Exact).real * (ℓ.fn g.slope y *
        (ℓ.fn (.power g.expr (.real (Scalar.ofInt 2))) y)⁻¹))
      (fun y => (Coefficient.minusOne : Coefficient Exact).IsNumber ∧ y ∈ ℓ.domain g.slope ∧
        y ∈ ℓ.domain (.power g.expr (.real (Scalar.ofInt 2))) ∧
          ℓ.fn (.power g.expr (.real (Scalar.ofInt 2))) y ≠ 0) t t' := by
  obtain ⟨t₁, hscale, h⟩ := Option.bind_eq_some_iff.mp h
  obtain ⟨t₂, hslope, h⟩ := Option.bind_eq_some_iff.mp h
  cases h
  exact (Term.multiplied_scale hscale).trans
    ((Term.multiplied_times hslope).2.trans (Term.multiplied_divide _ t₂))

/-- The slope of a reciprocal vanishes with the slope of the divisor. -/
theorem reciprocalTerm_eq_none {g : Pair Exact} :
    reciprocalTerm t g = none ↔ g.slope.isZero = true := by
  rw [reciprocalTerm]
  cases hscale : t.scale (Coefficient.minusOne : Coefficient Exact) with
  | none => exact absurd (Term.scale_eq_none.mp hscale) (by simp [Term.isZero_minusOne])
  | some t₁ =>
    rw [← Term.times_eq_none (t := t₁)]
    cases hslope : t₁.times g.slope <;> simp [hslope]

end Terms

section Slope

variable {t : Term Exact}

/-- The terms of a quotient add up to what Leibniz's rule and the quotient rule give. -/
noncomputable def proportion (ℓ : Line) (q : Quotient Exact) (x : ℝ) : ℝ :=
  leibniz ℓ x q.numerator * (factors ℓ q.denominator x)⁻¹ -
    factors ℓ q.numerator x * (factors ℓ q.denominator x)⁻¹ *
      (q.denominator.map fun p => ℓ.fn p.slope x * (ℓ.fn p.expr x)⁻¹).sum

/-- A term from a factor above the line that counts has the slope of the factor count, and the fixed
part is defined unless the term is recognized as zero. -/
theorem counts_upper (ht : t.Proper) (hn : ∀ p ∈ q.numerator, p.expr.isZero = false)
    (h : ∀ e ∈ (replaceEach [] q.numerator).map (Term.toExpr <| q.upperTerm t ·), ℓ.Counts e x) :
    (∀ p ∈ q.numerator, (p.slope.isZero = true ∨ x ∈ ℓ.domain p.slope ∧ x ∈ ℓ.domain t.expr)) ∧
      (((replaceEach [] q.numerator).map (Term.toExpr <| q.upperTerm t ·)).map (ℓ.fn · x)).sum =
        ℓ.fn t.expr x * (leibniz ℓ x q.numerator * (factors ℓ q.denominator x)⁻¹) := by
  rw [List.forall_mem_map] at h
  have hterm {factors : List (Expr Exact)} (hfactors : factors ∈ replaceEach [] q.numerator) :=
    Term.counts_toExpr (h factors hfactors) ht fun _ => multiplied_upperTerm
  constructor
  · intro p hp
    obtain ⟨l, r, hnumerator⟩ := List.append_of_mem hp
    obtain ⟨hnone, -⟩ | ⟨-, hmem, ⟨hdefined, -⟩, -⟩ :=
      hterm (mem_replaceEach.mpr ⟨l, p, r, hnumerator, rfl⟩)
    · rw [hnumerator] at hn
      exact .inl ((exists_isZero_iff hn).mp (upperTerm_eq_none.mp hnone))
    · exact .inr ⟨hdefined _ (by simp), hmem⟩
  · have hvalue : ∀ factors ∈ replaceEach [] q.numerator,
        ℓ.fn (Term.toExpr (q.upperTerm t factors)) x = ℓ.fn t.expr x *
          ((factors.map (ℓ.fn · x)).prod *
            ((q.denominator.map Pair.expr).map (ℓ.fn · x)).prod⁻¹) := by
      intro factors hfactors
      obtain ⟨hnone, hzero⟩ | ⟨-, -, -, hvalue⟩ := hterm hfactors
      · obtain ⟨e, he, hvanish⟩ := upperTerm_eq_none.mp hnone
        have hprod : (factors.map (ℓ.fn · x)).prod = 0 :=
          List.prod_eq_zero (List.mem_map.mpr ⟨e, he, fn_of_isZero hvanish⟩)
        rw [hzero, hprod, zero_mul, mul_zero]
      · exact hvalue
    rw [List.map_map]
    refine (congrArg List.sum (List.map_congr_left hvalue)).trans ?_
    rw [List.sum_map_mul_left, List.sum_map_mul_right, sum_replaceEach, prod_map_expr,
      List.map_nil, List.prod_nil, one_mul]

/-- A term from a factor below the line that counts has the slope of the factor count, and the fixed
part is defined unless the term is recognized as zero. -/
theorem counts_lower (ht : t.Proper) (hn : ∀ p ∈ q.numerator, p.expr.isZero = false)
    (h : ∀ e ∈ q.denominator.map (Term.toExpr <| q.lowerTerm t ·), ℓ.Counts e x) :
    (∀ p ∈ q.denominator, (p.slope.isZero = true ∨ x ∈ ℓ.domain p.slope ∧ x ∈ ℓ.domain t.expr)) ∧
      ((q.denominator.map (Term.toExpr <| q.lowerTerm t ·)).map (ℓ.fn · x)).sum =
        ℓ.fn t.expr x * -(factors ℓ q.numerator x * (factors ℓ q.denominator x)⁻¹ *
          (q.denominator.map fun p => ℓ.fn p.slope x * (ℓ.fn p.expr x)⁻¹).sum) := by
  rw [List.forall_mem_map] at h
  have hterm {p : Pair Exact} (hp : p ∈ q.denominator) :=
    Term.counts_toExpr (h p hp) ht fun _ => multiplied_lowerTerm
  have hfactors : ¬ ∃ e ∈ q.numerator.map Pair.expr, e.isZero = true := by
    rintro ⟨e, he, hzero⟩
    obtain ⟨p, hp, rfl⟩ := List.mem_map.mp he
    rw [hn p hp] at hzero
    cases hzero
  constructor
  · intro p hp
    obtain ⟨hnone, -⟩ | ⟨-, hmem, ⟨-, -, hslope, -⟩, -⟩ := hterm hp
    · exact .inl ((lowerTerm_eq_none.mp hnone).resolve_left hfactors)
    · exact .inr ⟨hslope, hmem⟩
  · have hvalue : ∀ p ∈ q.denominator, ℓ.fn (Term.toExpr (q.lowerTerm t p)) x =
        -(ℓ.fn t.expr x * (factors ℓ q.numerator x * (factors ℓ q.denominator x)⁻¹)) *
          (ℓ.fn p.slope x * (ℓ.fn p.expr x)⁻¹) := by
      intro p hp
      obtain ⟨hnone, hzero⟩ | ⟨-, -, -, hvalue⟩ := hterm hp
      · rw [hzero, fn_of_isZero ((lowerTerm_eq_none.mp hnone).resolve_left hfactors), zero_mul,
          mul_zero]
      · rw [hvalue, prod_map_expr, prod_map_expr, Term.real_minusOne.2]
        ring
    rw [List.map_map]
    refine (congrArg List.sum (List.map_congr_left hvalue)).trans ?_
    rw [List.sum_map_mul_left]
    ring

/-- The slope of a quotient that does not vanish is the fixed part times the proportion in which the
rest of it changes. -/
theorem counts_slope (hfixed : q.fixedPart = some t) (ht : t.Proper)
    (hn : ∀ p ∈ q.numerator, p.expr.isZero = false) (hx : x ∈ ℓ.domain q.slope) :
    (∀ p ∈ q.numerator ++ q.denominator,
        (p.slope.isZero = true ∨ x ∈ ℓ.domain p.slope ∧ x ∈ ℓ.domain t.expr)) ∧
      ℓ.fn q.slope x = ℓ.fn t.expr x * q.proportion ℓ x := by
  rw [proportion]
  unfold slope at hx ⊢
  split at hx
  · rename_i g hnumerator hdenominator
    rw [reciprocalSlope_eq hfixed] at hx ⊢
    rw [hnumerator, hdenominator, List.nil_append, List.forall_mem_singleton]
    have hreciprocal : leibniz ℓ x [] * (factors ℓ [g] x)⁻¹ - factors ℓ [] x * (factors ℓ [g] x)⁻¹ *
        ([g].map fun p => ℓ.fn p.slope x * (ℓ.fn p.expr x)⁻¹).sum =
        -(ℓ.fn g.slope x * (ℓ.fn g.expr x ^ 2)⁻¹) := by
      simp only [leibniz, factors, List.map_nil, List.map_singleton, List.prod_nil,
        List.prod_singleton, List.sum_singleton]
      ring
    rw [hreciprocal]
    obtain ⟨hnone, hzero⟩ | ⟨-, hmem, ⟨-, hslope, hsquare, -⟩, hvalue⟩ :=
      Term.counts_toExpr (.inr hx) ht fun _ => multiplied_reciprocalTerm
    · have hslope := reciprocalTerm_eq_none.mp hnone
      refine ⟨.inl hslope, ?_⟩
      rw [hzero, fn_of_isZero hslope]
      ring
    · refine ⟨.inr ⟨hslope, hmem⟩, ?_⟩
      rw [hvalue, Term.real_minusOne.2, (mem_domain_square hsquare).2]
      ring
  · obtain ⟨hcounts, hsum⟩ := mem_domain_sumOf hx
    rw [hsum, List.map_append, List.sum_append]
    rw [upperTerms_eq hfixed, lowerTerms_eq hfixed, List.forall_mem_append] at hcounts
    rw [upperTerms_eq hfixed, lowerTerms_eq hfixed]
    obtain ⟨hupper, hup⟩ := counts_upper ht hn hcounts.1
    obtain ⟨hlower, hlow⟩ := counts_lower ht hn hcounts.2
    refine ⟨List.forall_mem_append.mpr ⟨hupper, hlower⟩, ?_⟩
    rw [hup, hlow]
    ring

/-- A quotient that vanishes has a slope that is recognized as zero. -/
theorem isZero_slope_of_vanishes
    (hn : ∀ p ∈ q.numerator, p.expr.isZero = true → p.slope.isZero = true) (h : q.Vanishes) :
    q.slope.isZero = true := by
  cases hfixed : q.fixedPart with
  | none =>
    unfold slope
    split
    · rw [reciprocalSlope, hfixed]
      exact Term.isZero_toExpr_none
    · rw [isZero_sumOf, upperTerms, lowerTerms, hfixed]
      simp only [List.forall_mem_append, List.forall_mem_map]
      exact ⟨fun _ _ => Term.isZero_toExpr_none, fun _ _ => Term.isZero_toExpr_none⟩
  | some t =>
    have hpart : ¬ (q.coefficient.isZero = true ∨ ∃ e ∈ q.fixedNumerator, e.isZero = true) := by
      rw [← fixedPart_eq_none, hfixed]
      nofun
    rw [Vanishes, ← or_assoc, or_iff_right hpart] at h
    obtain ⟨p, hp, hzero⟩ := h
    unfold slope
    split
    · rename_i hnumerator _
      rw [hnumerator] at hp
      cases hp
    · rw [isZero_sumOf, upperTerms_eq hfixed, lowerTerms_eq hfixed]
      simp only [List.forall_mem_append, List.forall_mem_map]
      constructor
      · -- the factor is in every term, if only as its slope
        intro factors hfactors
        obtain ⟨l, p', r, hnumerator, rfl⟩ := mem_replaceEach.mp hfactors
        have hnone :
            q.upperTerm t ([] ++ (l.map Pair.expr ++ p'.slope :: r.map Pair.expr)) = none := by
          rw [hnumerator, List.mem_append, List.mem_cons] at hp
          rw [upperTerm_eq_none]
          obtain hp | rfl | hp := hp
          · exact ⟨p.expr, by simp [List.mem_map_of_mem hp], hzero⟩
          · exact ⟨p.slope, by simp, hn p (hnumerator ▸ by simp) hzero⟩
          · exact ⟨p.expr, by simp [List.mem_map_of_mem hp], hzero⟩
        rw [hnone]
        exact Term.isZero_toExpr_none
      · intro p' _
        have hnone : q.lowerTerm t p' = none :=
          lowerTerm_eq_none.mpr (.inl ⟨p.expr, List.mem_map_of_mem hp, hzero⟩)
        rw [hnone]
        exact Term.isZero_toExpr_none

/-- A quotient that does not vanish has a slope that is recognized as zero if the slopes of all its
factors are. -/
theorem isZero_slope (ℓ : Line) (hfixed : q.fixedPart = some t) (ht : t.Proper)
    (hn : ∀ p ∈ q.numerator, p.expr.isZero = false) :
    q.slope.isZero = true ↔ ∀ p ∈ q.numerator ++ q.denominator, p.slope.isZero = true := by
  unfold slope
  split
  · rename_i g hnumerator hdenominator
    rw [reciprocalSlope_eq hfixed,
      Term.isZero_toExpr ht fun _ => multiplied_reciprocalTerm (ℓ := ℓ), reciprocalTerm_eq_none,
      hnumerator, hdenominator, List.nil_append, List.forall_mem_singleton]
  · have hfactors : ¬ ∃ e ∈ q.numerator.map Pair.expr, e.isZero = true := by
      rintro ⟨e, he, hzero⟩
      obtain ⟨p, hp, rfl⟩ := List.mem_map.mp he
      rw [hn p hp] at hzero
      cases hzero
    have hupper (factors : List (Expr Exact)) :
        (Term.toExpr (q.upperTerm t factors)).isZero = true ↔ ∃ e ∈ factors, e.isZero = true := by
      rw [Term.isZero_toExpr ht fun _ => multiplied_upperTerm (ℓ := ℓ), upperTerm_eq_none]
    have hlower (p : Pair Exact) :
        (Term.toExpr (q.lowerTerm t p)).isZero = true ↔ p.slope.isZero = true := by
      rw [Term.isZero_toExpr ht fun _ => multiplied_lowerTerm (ℓ := ℓ), lowerTerm_eq_none,
        or_iff_right hfactors]
    rw [isZero_sumOf, upperTerms_eq hfixed, lowerTerms_eq hfixed]
    simp only [List.forall_mem_append, List.forall_mem_map, hupper, hlower]
    refine and_congr_left fun _ => ⟨fun h p hp => ?_, fun h factors hfactors => ?_⟩
    · obtain ⟨l, r, hnumerator⟩ := List.append_of_mem hp
      have hterm := h _ (mem_replaceEach.mpr ⟨l, p, r, hnumerator, rfl⟩)
      rw [hnumerator] at hn
      exact (exists_isZero_iff hn).mp hterm
    · obtain ⟨l, p, r, hnumerator, rfl⟩ := mem_replaceEach.mp hfactors
      exact ⟨p.slope, by simp, h p (by simp [hnumerator])⟩

end Slope

end Quotient

section Pairs

variable {c : Coefficient Exact} {n d : List (Pair Exact)}

/-- The product of the expressions of pairs over the product of those of others. -/
def ratio (c : Coefficient Exact) (n d : List (Pair Exact)) : Expr Exact :=
  .product c (n.map Pair.expr) (d.map Pair.expr)

/-- Those factors that depend on the variable and those that do not make up the product. -/
theorem factors_partition (name : String) (ps : List (Pair Exact)) (y : ℝ) :
    factors ℓ ps y =
      (((ps.filter fun p => !p.expr.dependsOn name).map Pair.expr).map (ℓ.fn · y)).prod *
        factors ℓ (ps.filter fun p => p.expr.dependsOn name) y := by
  rw [prod_map_expr]
  induction ps with
  | nil => simp [factors]
  | cons p ps ih =>
    rw [factors, List.map_cons, List.prod_cons, ← factors, ih, List.filter_cons, List.filter_cons]
    cases p.expr.dependsOn name <;> simp [factors] <;> ring

/-- A ratio is defined where its coefficient and its factors are and no divisor is zero. -/
theorem mem_domain_ratio {y : ℝ} :
    y ∈ ℓ.domain (ratio c n d) ↔ c.IsNumber ∧ (∀ p ∈ n, y ∈ ℓ.domain p.expr) ∧
      (∀ p ∈ d, y ∈ ℓ.domain p.expr) ∧ factors ℓ d y ≠ 0 := by
  rw [ratio, mem_domain_product, prod_map_expr, List.forall_mem_map, List.forall_mem_map]

/-- Where a ratio is defined it is the quotient of the products of its factors. -/
theorem fn_ratio {y : ℝ} (h : y ∈ ℓ.domain (ratio c n d)) :
    ℓ.fn (ratio c n d) y = c.real * factors ℓ n y / factors ℓ d y := by
  rw [ratio, fn_product h, prod_map_expr, prod_map_expr]

/-- Without a factor that depends on the variable a product does not change. -/
theorem prod_fixed {ps : List (Pair Exact)} {y : ℝ} (hx : ∀ p ∈ ps, x ∈ ℓ.domain p.expr)
    (hy : ∀ p ∈ ps, y ∈ ℓ.domain p.expr) :
    (((ps.filter fun p => !p.expr.dependsOn ℓ.name).map Pair.expr).map (ℓ.fn · y)).prod =
      (((ps.filter fun p => !p.expr.dependsOn ℓ.name).map Pair.expr).map (ℓ.fn · x)).prod := by
  rw [List.map_map, List.map_map]
  refine congrArg List.prod (List.map_congr_left fun p hp => ?_)
  obtain ⟨hp, hfixed⟩ := List.mem_filter.mp hp
  exact steady_of_not_dependsOn (by simpa using hfixed) y (hy p hp) x (hx p hp)

/-- A ratio whose factors are all steady is steady. -/
theorem steady_ratio (hn : ∀ p ∈ n, ℓ.Steady p.expr) (hd : ∀ p ∈ d, ℓ.Steady p.expr) :
    ℓ.Steady (ratio c n d) := by
  intro y hy z hz
  obtain ⟨-, hny, hdy, -⟩ := mem_domain_ratio.mp hy
  obtain ⟨-, hnz, hdz, -⟩ := mem_domain_ratio.mp hz
  have hfactors {ps : List (Pair Exact)} (hps : ∀ p ∈ ps, ℓ.Steady p.expr)
      (hpy : ∀ p ∈ ps, y ∈ ℓ.domain p.expr) (hpz : ∀ p ∈ ps, z ∈ ℓ.domain p.expr) :
      factors ℓ ps y = factors ℓ ps z :=
    congrArg List.prod (List.map_congr_left fun p hp => hps p hp y (hpy p hp) z (hpz p hp))
  rw [fn_ratio hy, fn_ratio hz, hfactors hn hny hnz, hfactors hd hdy hdz]

/-- A quotient vanishes with its coefficient or one of all its factors above the line. -/
theorem vanishes_ofPairs {name : String} :
    (Quotient.ofPairs name c n d).Vanishes ↔
      c.isZero = true ∨ ∃ p ∈ n, p.expr.isZero = true := by
  refine or_congr Iff.rfl ⟨?_, ?_⟩
  · rintro (⟨e, he, hzero⟩ | ⟨p, hp, hzero⟩)
    · obtain ⟨p, hp, rfl⟩ := List.mem_map.mp he
      exact ⟨p, (List.mem_filter.mp hp).1, hzero⟩
    · exact ⟨p, (List.mem_filter.mp hp).1, hzero⟩
  · rintro ⟨p, hp, hzero⟩
    cases hdepends : p.expr.dependsOn name with
    | true => exact .inr ⟨p, List.mem_filter.mpr ⟨hp, hdepends⟩, hzero⟩
    | false =>
      exact .inl ⟨p.expr, List.mem_map_of_mem (List.mem_filter.mpr ⟨hp, by simp [hdepends]⟩), hzero⟩

/-- A ratio that vanishes is zero where it is defined. -/
theorem fn_of_vanishes {name : String} (h : (Quotient.ofPairs name c n d).Vanishes) {y : ℝ}
    (hy : y ∈ ℓ.domain (ratio c n d)) : ℓ.fn (ratio c n d) y = 0 := by
  rw [fn_ratio hy]
  obtain hc | ⟨p, hp, hzero⟩ := vanishes_ofPairs.mp h
  · rw [Coefficient.real_of_isZero hc, zero_mul, zero_div]
  · have hprod : factors ℓ n y = 0 :=
      List.prod_eq_zero (List.mem_map.mpr ⟨p, hp, fn_of_isZero hzero⟩)
    rw [hprod, mul_zero, zero_div]

/-- A quotient that does not vanish has a proper fixed part, and no factor that is recognized as
zero. -/
theorem exists_fixedPart {q : Quotient Exact} (h : ¬ q.Vanishes) :
    ∃ t, q.fixedPart = some t ∧ t.Proper ∧ ∀ p ∈ q.numerator, p.expr.isZero = false := by
  rw [Quotient.Vanishes, ← or_assoc, not_or, ← Quotient.fixedPart_eq_none] at h
  obtain ⟨hfixed, hnumerator⟩ := h
  obtain ⟨t, hfixed⟩ := Option.ne_none_iff_exists'.mp hfixed
  refine ⟨t, hfixed, (Quotient.multiplied_fixedPart (ℓ := ⟨.empty, ""⟩) hfixed).proper
    Term.proper_unit, fun p hp => ?_⟩
  rw [← Bool.not_eq_true]
  exact fun hzero => hnumerator ⟨p, hp, hzero⟩

/-- Where a ratio is defined it is its fixed part times the quotient of the factors that depend on
the variable. -/
theorem fn_ratio_eq {t : Term Exact} {y : ℝ}
    (hfixed : (Quotient.ofPairs ℓ.name c n d).fixedPart = some t) (ht : x ∈ ℓ.domain t.expr)
    (hx : x ∈ ℓ.domain (ratio c n d)) (hy : y ∈ ℓ.domain (ratio c n d)) :
    ℓ.fn (ratio c n d) y = ℓ.fn t.expr x *
      (factors ℓ (n.filter fun p => p.expr.dependsOn ℓ.name) y /
        factors ℓ (d.filter fun p => p.expr.dependsOn ℓ.name) y) := by
  obtain ⟨-, hnx, hdx, -⟩ := mem_domain_ratio.mp hx
  obtain ⟨-, hny, hdy, -⟩ := mem_domain_ratio.mp hy
  obtain ⟨-, -, hvalue⟩ := (Quotient.multiplied_fixedPart hfixed).value x ht
  rw [fn_ratio hy, factors_partition ℓ.name n, factors_partition ℓ.name d, prod_fixed hnx hny,
    prod_fixed hdx hdy, hvalue, (Term.fn_unit x).2, one_mul]
  change c.real * (_ * _) / (_ * _) = c.real * (_ * _) * _
  rw [← div_eq_mul_inv, ← mul_assoc, mul_div_mul_comm, mul_div_assoc]
  rfl

/-- The slope of a quotient of products is sound if those of the factors are. -/
theorem sound_product (hn : ∀ p ∈ n, Sound ℓ p) (hd : ∀ p ∈ d, Sound ℓ p) :
    Sound ℓ ⟨ratio c n d, productSlope ℓ.name c n d⟩ := by
  have hvanish (h : (Quotient.ofPairs ℓ.name c n d).Vanishes) :
      (productSlope ℓ.name c n d).isZero = true :=
    Quotient.isZero_slope_of_vanishes
      (fun p hp => (hn p (List.mem_filter.mp hp).1).vanishing) h
  refine .of_slope (fun hzero => ?_) (fun hzero => hvanish (.inl hzero)) fun hzero x hx hslope => ?_
  · by_cases h : (Quotient.ofPairs ℓ.name c n d).Vanishes
    · intro y hy z hz
      rw [fn_of_vanishes h hy, fn_of_vanishes h hz]
    · obtain ⟨t, hfixed, ht, hnumerator⟩ := exists_fixedPart h
      have hslopes := (Quotient.isZero_slope ℓ hfixed ht hnumerator).mp hzero
      rw [List.forall_mem_append] at hslopes
      have hsteady {ps : List (Pair Exact)} (hps : ∀ p ∈ ps, Sound ℓ p)
          (hzeros : ∀ p ∈ ps.filter fun p => p.expr.dependsOn ℓ.name, p.slope.isZero = true) :
          ∀ p ∈ ps, ℓ.Steady p.expr := by
        intro p hp
        cases hdepends : p.expr.dependsOn ℓ.name with
        | true => exact (hps p hp).steady (hzeros p (List.mem_filter.mpr ⟨hp, hdepends⟩))
        | false => exact steady_of_not_dependsOn hdepends
      exact steady_ratio (hsteady hn hslopes.1) (hsteady hd hslopes.2)
  · have hnot : ¬ (Quotient.ofPairs ℓ.name c n d).Vanishes := fun h => by
      rw [hvanish h] at hzero
      cases hzero
    obtain ⟨t, hfixed, ht, hnumerator⟩ := exists_fixedPart hnot
    obtain ⟨hcounts, hvalue⟩ := Quotient.counts_slope hfixed ht hnumerator hslope
    have hdefined : x ∈ ℓ.domain t.expr := by
      by_contra hundefined
      have hslopes := (Quotient.isZero_slope ℓ hfixed ht hnumerator).mpr fun p hp =>
        (hcounts p hp).resolve_right fun h => hundefined h.2
      exact nomatch hzero.symm.trans hslopes
    rw [List.forall_mem_append] at hcounts
    obtain ⟨-, hnx, hdx, hne⟩ := mem_domain_ratio.mp hx
    have hderiv {ps : List (Pair Exact)} (hps : ∀ p ∈ ps, Sound ℓ p)
        (hpx : ∀ p ∈ ps, x ∈ ℓ.domain p.expr)
        (hsub : ∀ p ∈ ps, ℓ.domain (ratio c n d) ⊆ ℓ.domain p.expr)
        (hslopes : ∀ p ∈ ps.filter fun p => p.expr.dependsOn ℓ.name,
          p.slope.isZero = true ∨ x ∈ ℓ.domain p.slope ∧ x ∈ ℓ.domain t.expr) :
        HasDerivWithinAt (factors ℓ (ps.filter fun p => p.expr.dependsOn ℓ.name))
          (leibniz ℓ x (ps.filter fun p => p.expr.dependsOn ℓ.name))
          (ℓ.domain (ratio c n d)) x := by
      refine hasDerivWithinAt_factors fun p hp => ?_
      have hmem := (List.mem_filter.mp hp).1
      exact ((hps p hmem).hasDerivWithinAt (hpx p hmem) ((hslopes p hp).imp_right And.left)).mono
        (hsub p hmem)
    have habove := hderiv hn hnx (fun p hp y hy => (mem_domain_ratio.mp hy).2.1 p hp) hcounts.1
    have hbelow := hderiv hd hdx (fun p hp y hy => (mem_domain_ratio.mp hy).2.2.1 p hp) hcounts.2
    have hdepending : factors ℓ (d.filter fun p => p.expr.dependsOn ℓ.name) x ≠ 0 := by
      rw [factors_partition ℓ.name] at hne
      exact (mul_ne_zero_iff.mp hne).2
    refine (((habove.div hbelow hdepending).const_mul (ℓ.fn t.expr x)).congr_of_mem
      (fun y hy => fn_ratio_eq hfixed hdefined hx hy) hx).congr_deriv ?_
    change _ = ℓ.fn (Quotient.slope _) x
    rw [hvalue, Quotient.proportion, leibniz_eq_sum hdepending]
    change _ = ℓ.fn t.expr x * (leibniz ℓ x (n.filter _) * (factors ℓ (d.filter _) x)⁻¹ -
      factors ℓ (n.filter _) x * (factors ℓ (d.filter _) x)⁻¹ * ((d.filter _).map _).sum)
    field_simp

end Pairs

end SymbolicAlgebra.Derivative
