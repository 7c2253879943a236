import SymbolicAlgebra.Proofs.Derivative.Function

/-!
# Slopes of powers

A power whose base and exponent are defined changes by the chain rule. It is also defined, and one,
where only the base is one or only the exponent is zero. If such points come close to a point where
both are defined, then the base is one there and does not change, or the exponent is zero there and
does not change, so that the slope is zero.
-/

namespace SymbolicAlgebra.Derivative

open Exact Line Filter Topology

variable {ℓ : Line} {x : ℝ}

section Accumulation

variable {f g : ℝ → ℝ} {d g' v : ℝ} {s u : Set ℝ}

/-- A function with a derivative that has one value at points close by has it at the point too, and
its derivative is zero. -/
theorem eq_of_accPt (h : HasDerivWithinAt g g' u x) (hs : s ⊆ u) (hv : ∀ y ∈ s, g y = v)
    (hacc : AccPt x (𝓟 s)) : g x = v ∧ g' = 0 := by
  have hnear : (𝓝[s] x).NeBot := mem_closure_iff_nhdsWithin_neBot.mp hacc.clusterPt.mem_closure
  have hvalue : Tendsto g (𝓝[s] x) (𝓝 v) :=
    tendsto_const_nhds.congr' (eventually_nhdsWithin_of_forall fun y hy => (hv y hy).symm)
  have hx : g x = v := tendsto_nhds_unique (h.mono hs).continuousWithinAt hvalue
  refine ⟨hx, hacc.uniqueDiffWithinAt.eq_deriv s (h.mono hs) ?_⟩
  exact hasDerivWithinAt_zero fun y hy => (hv y hy).trans hx.symm

/-- Only points that come close matter to a derivative. -/
theorem hasDerivWithinAt_of_accPt (h : AccPt x (𝓟 s) → HasDerivWithinAt f d s x) :
    HasDerivWithinAt f d s x := by
  by_cases hacc : AccPt x (𝓟 s)
  · exact h hacc
  · exact hasDerivWithinAt_iff_hasFDerivWithinAt.mpr (.of_not_accPt hacc)

end Accumulation

variable {a e : Expr Exact} {a' e' : ℝ}

/-- A power of what is steady to a steady exponent is steady. -/
theorem steady_power (ha : ℓ.Steady a) (he : ℓ.Steady e) : ℓ.Steady (.power a e) := by
  intro y hy z hz
  obtain ⟨hay, hey, -, hfy⟩ | ⟨-, hey, hzero, hfy⟩ | ⟨hay, -, hone, hfy⟩ := mem_domain_power hy
  · obtain ⟨haz, hez, -, hfz⟩ | ⟨-, hez, hzero, hfz⟩ | ⟨haz, -, hone, hfz⟩ := mem_domain_power hz
    · rw [hfy, hfz, ha y hay z haz, he y hey z hez]
    · rw [hfy, hfz, he y hey z hez, hzero, Real.rpow_zero]
    · rw [hfy, hfz, ha y hay z haz, hone, Real.one_rpow]
  · obtain ⟨haz, hez, -, hfz⟩ | ⟨-, -, -, hfz⟩ | ⟨-, -, -, hfz⟩ := mem_domain_power hz
    · rw [hfy, hfz, ← he y hey z hez, hzero, Real.rpow_zero]
    · rw [hfy, hfz]
    · rw [hfy, hfz]
  · obtain ⟨haz, hez, -, hfz⟩ | ⟨-, -, -, hfz⟩ | ⟨-, -, -, hfz⟩ := mem_domain_power hz
    · rw [hfy, hfz, ← ha y hay z haz, hone, Real.one_rpow]
    · rw [hfy, hfz]
    · rw [hfy, hfz]

/-- A power is one where its exponent is zero wherever that is defined. -/
theorem fn_power_of_exponent_zero {y : ℝ} (he : ℓ.fn e y = 0) (hy : y ∈ ℓ.domain (.power a e)) :
    ℓ.fn (.power a e) y = 1 := by
  obtain ⟨-, -, -, hf⟩ | ⟨-, -, -, hf⟩ | ⟨-, -, -, hf⟩ := mem_domain_power hy
  · rw [hf, he, Real.rpow_zero]
  · exact hf
  · exact hf

/-- A power is one where its base is one wherever that is defined. -/
theorem fn_power_of_base_one {y : ℝ} (ha : y ∈ ℓ.domain a → ℓ.fn a y = 1)
    (hy : y ∈ ℓ.domain (.power a e)) : ℓ.fn (.power a e) y = 1 := by
  obtain ⟨hay, -, -, hf⟩ | ⟨-, -, -, hf⟩ | ⟨-, -, -, hf⟩ := mem_domain_power hy
  · rw [hf, ha hay, Real.one_rpow]
  · exact hf
  · exact hf

/-- The derivative of a power whose base and exponent have derivatives, where the base is positive,
or is not zero and the exponent is steady. -/
theorem hasDerivWithinAt_power (hx : x ∈ ℓ.domain (.power a e)) (hax : x ∈ ℓ.domain a)
    (hex : x ∈ ℓ.domain e) (ha : HasDerivWithinAt (ℓ.fn a) a' (ℓ.domain a) x)
    (he : HasDerivWithinAt (ℓ.fn e) e' (ℓ.domain e) x)
    (hbase : 0 < ℓ.fn a x ∨ ℓ.fn a x ≠ 0 ∧ ℓ.Steady e ∧ e' = 0) :
    HasDerivWithinAt (ℓ.fn (.power a e))
      (ℓ.fn (.power a e) x * (e' * Real.log (ℓ.fn a x) + ℓ.fn e x * (a' / ℓ.fn a x)))
      (ℓ.domain (.power a e)) x := by
  have hfx : ℓ.fn (.power a e) x = ℓ.fn a x ^ ℓ.fn e x := by
    obtain ⟨-, -, -, hf⟩ | ⟨hundefined, -⟩ | ⟨-, hundefined, -⟩ := mem_domain_power hx
    · exact hf
    · exact absurd hax hundefined
    · exact absurd hex hundefined
  have hne : ℓ.fn a x ≠ 0 := hbase.elim (fun h => h.ne') fun h => h.1
  -- the points where both parts are defined, where the base is not, and where the exponent is not
  let both := {y ∈ ℓ.domain (.power a e) | y ∈ ℓ.domain a ∧ y ∈ ℓ.domain e}
  let noBase := {y ∈ ℓ.domain (.power a e) | y ∉ ℓ.domain a}
  let noExponent := {y ∈ ℓ.domain (.power a e) | y ∈ ℓ.domain a ∧ y ∉ ℓ.domain e}
  have hcover : ℓ.domain (.power a e) = both ∪ (noBase ∪ noExponent) := by
    ext y
    simp only [both, noBase, noExponent, Set.mem_union, Set.mem_sep_iff]
    tauto
  have hboth : HasDerivWithinAt (ℓ.fn (.power a e))
      (ℓ.fn (.power a e) x * (e' * Real.log (ℓ.fn a x) + ℓ.fn e x * (a' / ℓ.fn a x))) both x := by
    have ha' := ha.mono (show both ⊆ ℓ.domain a from fun y hy => hy.2.1)
    have he' := he.mono (show both ⊆ ℓ.domain e from fun y hy => hy.2.2)
    have hvalue : ∀ y ∈ both, ℓ.fn (.power a e) y = ℓ.fn a y ^ ℓ.fn e y := by
      rintro y ⟨hy, hay, hey⟩
      obtain ⟨-, -, -, hf⟩ | ⟨hundefined, -⟩ | ⟨-, hundefined, -⟩ := mem_domain_power hy
      · exact hf
      · exact absurd hay hundefined
      · exact absurd hey hundefined
    obtain hpos | ⟨-, hsteady, rfl⟩ := hbase
    · refine ((ha'.rpow he' hpos).congr hvalue hfx).congr_deriv ?_
      rw [hfx, Real.rpow_sub_one hne]
      field_simp
      ring
    · have hconst : ∀ y ∈ both, ℓ.fn (.power a e) y = ℓ.fn a y ^ ℓ.fn e x := fun y hy => by
        rw [hvalue y hy, hsteady y hy.2.2 x hex]
      refine ((ha'.rpow_const (p := ℓ.fn e x) (.inl hne)).congr hconst hfx).congr_deriv ?_
      rw [hfx, Real.rpow_sub_one hne]
      field_simp
      ring
  have hnoBase : HasDerivWithinAt (ℓ.fn (.power a e))
      (ℓ.fn (.power a e) x * (e' * Real.log (ℓ.fn a x) + ℓ.fn e x * (a' / ℓ.fn a x))) noBase x := by
    have hpart : ∀ y ∈ noBase, y ∈ ℓ.domain e ∧ ℓ.fn e y = 0 ∧ ℓ.fn (.power a e) y = 1 := by
      rintro y ⟨hy, hay⟩
      obtain ⟨h, -⟩ | ⟨-, h⟩ | ⟨h, -⟩ := mem_domain_power hy
      · exact absurd h hay
      · exact h
      · exact absurd h hay
    refine hasDerivWithinAt_of_accPt fun hacc => ?_
    obtain ⟨hzero, rfl⟩ :=
      eq_of_accPt he (fun y hy => (hpart y hy).1) (fun y hy => (hpart y hy).2.1) hacc
    rw [hfx, hzero, Real.rpow_zero, zero_mul, zero_mul, zero_add, mul_zero]
    refine hasDerivWithinAt_zero fun y hy => ?_
    rw [(hpart y hy).2.2, hfx, hzero, Real.rpow_zero]
  have hnoExponent : HasDerivWithinAt (ℓ.fn (.power a e))
      (ℓ.fn (.power a e) x * (e' * Real.log (ℓ.fn a x) + ℓ.fn e x * (a' / ℓ.fn a x)))
      noExponent x := by
    have hpart : ∀ y ∈ noExponent, ℓ.fn a y = 1 ∧ ℓ.fn (.power a e) y = 1 := by
      rintro y ⟨hy, hay, hey⟩
      obtain ⟨-, h, -⟩ | ⟨-, h, -⟩ | ⟨-, -, h⟩ := mem_domain_power hy
      · exact absurd h hey
      · exact absurd h hey
      · exact h
    refine hasDerivWithinAt_of_accPt fun hacc => ?_
    obtain ⟨hone, rfl⟩ := eq_of_accPt ha (fun y hy => hy.2.1) (fun y hy => (hpart y hy).1) hacc
    rw [hfx, hone, Real.one_rpow, Real.log_one, mul_zero, zero_div, mul_zero, add_zero, mul_zero]
    refine hasDerivWithinAt_zero fun y hy => ?_
    rw [(hpart y hy).2, hfx, hone, Real.one_rpow]
  rw [hcover]
  exact hboth.union (hnoBase.union hnoExponent)

section Factors

variable {fs : List (Expr Exact)}

/-- A product of factors is recognized as zero if one of them is. -/
theorem isZero_timesAll :
    (Term.toExpr ((Term.unit : Term Exact).timesAll fs)).isZero = true ↔
      ∃ f ∈ fs, f.isZero = true := by
  rw [Term.isZero_toExpr Term.proper_unit fun _ => Term.multiplied_timesAll (ℓ := ⟨.empty, ""⟩),
    Term.timesAll_eq_none]

/-- A product of factors that counts is zero with one of them, or all of them are defined. -/
theorem fn_timesAll (h : ℓ.Counts (Term.toExpr ((Term.unit : Term Exact).timesAll fs)) x) :
    ((∃ f ∈ fs, f.isZero = true) ∨ ∀ f ∈ fs, x ∈ ℓ.domain f) ∧
      ℓ.fn (Term.toExpr ((Term.unit : Term Exact).timesAll fs)) x = (fs.map (ℓ.fn · x)).prod := by
  obtain ⟨hnone, hvalue⟩ | ⟨-, -, hdefined, hvalue⟩ :=
    Term.counts_toExpr h Term.proper_unit fun _ => Term.multiplied_timesAll
  · obtain ⟨f, hf, hzero⟩ := Term.timesAll_eq_none.mp hnone
    refine ⟨.inl ⟨f, hf, hzero⟩, ?_⟩
    rw [hvalue, List.prod_eq_zero (List.mem_map.mpr ⟨f, hf, fn_of_isZero hzero⟩)]
  · exact ⟨.inr hdefined, by rw [hvalue, (Term.fn_unit x).2, one_mul]⟩

end Factors

variable {base exponent : Pair Exact}

/-- An exponent less one is defined where the exponent is. -/
theorem fn_decrement (he : x ∈ ℓ.domain e) :
    x ∈ ℓ.domain (decrement e) ∧ ℓ.fn (decrement e) x = ℓ.fn e x - 1 := by
  have hminus : x ∈ ℓ.domain (.real (Scalar.ofInt (-1))) ∧
      ℓ.fn (.real (Scalar.ofInt (-1))) x = -1 := by
    have hreal := fn_real (ℓ := ℓ) (((-1 : ℤ) : ℝ)) x
    rw [Int.cast_neg, Int.cast_one] at hreal
    have hliteral : (Expr.real (Scalar.ofInt (-1)) : Expr Exact) = .real (number (-1)) := by
      rw [ofInt_eq, Int.cast_neg, Int.cast_one]
    rw [hliteral]
    exact hreal
  have hplus {es : List (Expr Exact)} (hes : ∀ b ∈ es, x ∈ ℓ.domain b)
      (hsum : (es.map (ℓ.fn · x)).sum = ℓ.fn e x) :
      x ∈ ℓ.domain (.sum (es ++ [.real (Scalar.ofInt (-1))])) ∧
        ℓ.fn (.sum (es ++ [.real (Scalar.ofInt (-1))])) x = ℓ.fn e x - 1 := by
    have hmem : x ∈ ℓ.domain (.sum (es ++ [.real (Scalar.ofInt (-1))])) :=
      mem_domain_sum.mpr (List.forall_mem_append.mpr ⟨hes, List.forall_mem_singleton.mpr hminus.1⟩)
    refine ⟨hmem, ?_⟩
    rw [fn_sum hmem, List.map_append, List.sum_append, hsum, List.map_singleton, List.sum_singleton,
      hminus.2, sub_eq_add_neg]
  have single : e.addends = [e] → x ∈ ℓ.domain (e.plus (.real (Scalar.ofInt (-1)))) ∧
      ℓ.fn (e.plus (.real (Scalar.ofInt (-1)))) x = ℓ.fn e x - 1 := by
    intro hsingle
    rw [Expr.plus, hsingle]
    exact hplus (List.forall_mem_singleton.mpr he) (by simp)
  cases e with
  | number v =>
    cases v with
    | real v =>
      have hv := mem_domain_real he
      change x ∈ ℓ.domain (.real (v - Scalar.one)) ∧ ℓ.fn (.real (v - Scalar.one)) x = _
      rw [hv, Exact.one_eq, number_sub]
      exact fn_real _ x
    | constant k => exact single rfl
  | sum as => exact hplus (mem_domain_sum.mp he) (fn_sum he).symm
  | product c n d => exact single rfl
  | power a e => exact single rfl
  | log a e => exact single rfl
  | trig f a => exact single rfl
  | var v => exact single rfl

/-- The slope of a power with an exponent that does not depend on the variable is sound. -/
theorem sound_power_fixedExponent (hexponent : exponent.expr.dependsOn ℓ.name = false)
    (hbase : Sound ℓ base) :
    Sound ℓ ⟨.power base.expr exponent.expr, Term.toExpr (Term.unit.timesAll
      [exponent.expr, .power base.expr (decrement exponent.expr), base.slope])⟩ := by
  have hsteady := steady_of_not_dependsOn hexponent
  refine .of_slope (fun hzero => ?_) (absurd · Bool.false_ne_true) fun hzero x hx hslope => ?_
  · obtain ⟨f, hf, hzero⟩ := isZero_timesAll.mp hzero
    simp only [List.mem_cons, List.not_mem_nil, or_false] at hf
    obtain rfl | rfl | rfl := hf
    · intro y hy z hz
      rw [fn_power_of_exponent_zero (fn_of_isZero hzero) hy,
        fn_power_of_exponent_zero (fn_of_isZero hzero) hz]
    · cases hzero
    · exact steady_power (hbase.steady hzero) hsteady
  · obtain ⟨hvanishes | hdefined, hvalue⟩ := fn_timesAll (.inr hslope)
    · exact absurd (hzero.symm.trans (isZero_timesAll.mpr hvanishes)) Bool.false_ne_true
    simp only [List.forall_mem_cons, List.map_cons, List.map_nil, List.prod_cons, List.prod_nil,
      mul_one] at hdefined hvalue
    obtain ⟨hex, hpower, hbaseSlope, -⟩ := hdefined
    rw [hvalue]
    by_cases hc : ℓ.fn exponent.expr x = 0
    · -- the power is one at all points
      rw [hc, zero_mul]
      refine hasDerivWithinAt_zero fun y hy => ?_
      rw [fn_power_of_exponent_zero hc hx, fn_power_of_exponent_zero _ hy]
      by_cases hey : y ∈ ℓ.domain exponent.expr
      · rw [hsteady y hey x hex, hc]
      · exact fn_of_notMem_domain hey
    · have hpart : ∀ y ∈ ℓ.domain (.power base.expr exponent.expr), y ∈ ℓ.domain base.expr ∧
          ℓ.fn (.power base.expr exponent.expr) y = ℓ.fn base.expr y ^ ℓ.fn exponent.expr x := by
        intro y hy
        have hey := mem_domain_of_not_dependsOn hexponent hex y
        obtain ⟨hay, -, -, hf⟩ | ⟨-, -, hnone, -⟩ | ⟨-, hundefined, -⟩ := mem_domain_power hy
        · exact ⟨hay, by rw [hf, hsteady y hey x hex]⟩
        · rw [hsteady y hey x hex] at hnone
          exact absurd hnone hc
        · exact absurd hey hundefined
      obtain ⟨hless, hdecrement⟩ := fn_decrement hex
      obtain ⟨-, -, hhas, hf⟩ | ⟨hundefined, -⟩ | ⟨-, hundefined, -⟩ := mem_domain_power hpower
      · rw [hdecrement] at hhas hf
        have hregular : ℓ.fn base.expr x ≠ 0 ∨ 1 ≤ ℓ.fn exponent.expr x := by
          by_cases hne : ℓ.fn base.expr x = 0
          · have := hhas.2 hne
            exact .inr (by linarith)
          · exact .inl hne
        have hsub := fun y hy => (hpart y hy).1
        have hderiv := ((hbase.derives x (hpart x hx).1 hbaseSlope).mono hsub).rpow_const hregular
        refine (hderiv.congr (fun y hy => (hpart y hy).2) (hpart x hx).2).congr_deriv ?_
        rw [hf]
        ring
      · exact absurd (hpart x hx).1 hundefined
      · exact absurd hless hundefined

/-- The slope of a power with a base that does not depend on the variable is sound. -/
theorem sound_power_fixedBase (hbase : base.expr.dependsOn ℓ.name = false)
    (hexponent : Sound ℓ exponent) :
    Sound ℓ ⟨.power base.expr exponent.expr, Term.toExpr (Term.unit.timesAll
      [.power base.expr exponent.expr, .ln base.expr, exponent.slope])⟩ := by
  have hsteady := steady_of_not_dependsOn hbase
  refine .of_slope (fun hzero => ?_) (absurd · Bool.false_ne_true) fun hzero x hx hslope => ?_
  · obtain ⟨f, hf, hzero⟩ := isZero_timesAll.mp hzero
    simp only [List.mem_cons, List.not_mem_nil, or_false] at hf
    obtain rfl | rfl | rfl := hf
    · cases hzero
    · cases hzero
    · exact steady_power hsteady (hexponent.steady hzero)
  · obtain ⟨hvanishes | hdefined, hvalue⟩ := fn_timesAll (.inr hslope)
    · exact absurd (hzero.symm.trans (isZero_timesAll.mpr hvanishes)) Bool.false_ne_true
    simp only [List.forall_mem_cons, List.map_cons, List.map_nil, List.prod_cons, List.prod_nil,
      mul_one] at hdefined hvalue
    obtain ⟨-, hln, hexponentSlope, -⟩ := hdefined
    obtain ⟨hax, hpos⟩ := mem_domain_ln.mp hln
    rw [hvalue, fn_ln hln]
    by_cases hone : ℓ.fn base.expr x = 1
    · rw [hone, Real.log_one, zero_mul, mul_zero]
      have hall {y : ℝ} (hy : y ∈ ℓ.domain (.power base.expr exponent.expr)) :
          ℓ.fn (.power base.expr exponent.expr) y = 1 :=
        fn_power_of_base_one (fun hay => (hsteady y hay x hax).trans hone) hy
      exact hasDerivWithinAt_zero fun y hy => (hall hy).trans (hall hx).symm
    · have hex : x ∈ ℓ.domain exponent.expr := by
        obtain ⟨-, hex, -⟩ | ⟨-, hex, -⟩ | ⟨-, -, h, -⟩ := mem_domain_power hx
        · exact hex
        · exact hex
        · exact absurd h hone
      refine (hasDerivWithinAt_power hx hax hex (hasDerivWithinAt_of_steady hsteady hax)
        (hexponent.derives x hex hexponentSlope) (.inl hpos)).congr_deriv ?_
      ring

section Both

variable {p q : Pair Exact}

/-- The slope of a product of two factors that both depend on the variable has one term for each. -/
theorem productSlope_pair (hp : p.expr.dependsOn ℓ.name = true)
    (hq : q.expr.dependsOn ℓ.name = true) :
    ∃ t : Term Exact, t.Proper ∧ (∀ y, y ∈ ℓ.domain t.expr → ℓ.fn t.expr y = 1) ∧
      productSlope ℓ.name .one [p, q] [] = sumOf [Term.toExpr (t.timesAll [p.slope, q.expr]),
        Term.toExpr (t.timesAll [p.expr, q.slope])] := by
  have hpairs : Quotient.ofPairs ℓ.name .one [p, q] [] = ⟨.one, [], [], [p, q], []⟩ := by
    simp [Quotient.ofPairs, hp, hq]
  have hone : ¬ (Coefficient.one : Coefficient Exact).isZero = true := by
    simp [Coefficient.one, Coefficient.isZero]
  have hfixed : (⟨.one, [], [], [p, q], []⟩ : Quotient Exact).fixedPart ≠ none := by
    simp [Quotient.fixedPart_eq_none, hone]
  obtain ⟨t, hfixed⟩ := Option.ne_none_iff_exists'.mp hfixed
  have hmultiplied := Quotient.multiplied_fixedPart (ℓ := ℓ) hfixed
  refine ⟨t, hmultiplied.proper Term.proper_unit, fun y hy => ?_, ?_⟩
  · obtain ⟨-, -, hvalue⟩ := hmultiplied.value y hy
    simpa [(Term.fn_unit y).2, Term.real_one.2] using hvalue
  · rw [productSlope, hpairs]
    change sumOf (Quotient.upperTerms _ ++ Quotient.lowerTerms _) = _
    rw [Quotient.upperTerms_eq hfixed, Quotient.lowerTerms_eq hfixed]
    simp [replaceEach, Quotient.upperTerm, Term.divideAll]

/-- Where the slope of such a product is defined, each of its terms vanishes or its factors are
defined. -/
theorem fn_productSlope_pair (hp : p.expr.dependsOn ℓ.name = true)
    (hq : q.expr.dependsOn ℓ.name = true) (hx : x ∈ ℓ.domain (productSlope ℓ.name .one [p, q] [])) :
    ((p.slope.isZero = true ∨ q.expr.isZero = true) ∨ x ∈ ℓ.domain p.slope ∧ x ∈ ℓ.domain q.expr) ∧
      ((p.expr.isZero = true ∨ q.slope.isZero = true) ∨
        x ∈ ℓ.domain p.expr ∧ x ∈ ℓ.domain q.slope) ∧
      ℓ.fn (productSlope ℓ.name .one [p, q] []) x =
        ℓ.fn p.slope x * ℓ.fn q.expr x + ℓ.fn p.expr x * ℓ.fn q.slope x := by
  obtain ⟨t, ht, hone, hslope⟩ := productSlope_pair hp hq
  have hterm {f g : Expr Exact} (hcounts : ℓ.Counts (Term.toExpr (t.timesAll [f, g])) x) :
      ((f.isZero = true ∨ g.isZero = true) ∨ x ∈ ℓ.domain f ∧ x ∈ ℓ.domain g) ∧
        ℓ.fn (Term.toExpr (t.timesAll [f, g])) x = ℓ.fn f x * ℓ.fn g x := by
    obtain ⟨hnone, hvalue⟩ | ⟨-, hmem, hdefined, hvalue⟩ :=
      Term.counts_toExpr hcounts ht fun _ => Term.multiplied_timesAll
    · have hzero : f.isZero = true ∨ g.isZero = true := by
        simpa using Term.timesAll_eq_none.mp hnone
      refine ⟨.inl hzero, ?_⟩
      rw [hvalue]
      obtain hzero | hzero := hzero
      · rw [fn_of_isZero hzero, zero_mul]
      · rw [fn_of_isZero hzero, mul_zero]
    · refine ⟨.inr (by simpa using hdefined), ?_⟩
      rw [hvalue, hone x hmem]
      simp
  rw [hslope] at hx ⊢
  obtain ⟨hcounts, hsum⟩ := mem_domain_sumOf hx
  simp only [List.forall_mem_cons] at hcounts
  obtain ⟨hfirst, hfirstValue⟩ := hterm hcounts.1
  obtain ⟨hsecond, hsecondValue⟩ := hterm hcounts.2.1
  refine ⟨hfirst, hsecond, ?_⟩
  simpa [hfirstValue, hsecondValue] using hsum

/-- The slope of such a product is recognized as zero if each of its terms has such a factor. -/
theorem isZero_productSlope_pair (hp : p.expr.dependsOn ℓ.name = true)
    (hq : q.expr.dependsOn ℓ.name = true) :
    (productSlope ℓ.name .one [p, q] []).isZero = true ↔
      (p.slope.isZero = true ∨ q.expr.isZero = true) ∧
        (p.expr.isZero = true ∨ q.slope.isZero = true) := by
  obtain ⟨t, ht, -, hslope⟩ := productSlope_pair hp hq
  have hterm (f g : Expr Exact) :
      (Term.toExpr (t.timesAll [f, g])).isZero = true ↔ f.isZero = true ∨ g.isZero = true := by
    rw [Term.isZero_toExpr ht fun _ => Term.multiplied_timesAll (ℓ := ℓ), Term.timesAll_eq_none]
    simp
  rw [hslope, isZero_sumOf]
  simp [hterm]

end Both

/-- What a power times the slope of its exponent times the logarithm of its base comes to. -/
noncomputable def logarithmicSlope (ℓ : Line) (base exponent : Pair Exact) (x : ℝ) : ℝ :=
  ℓ.fn (.power base.expr exponent.expr) x * (ℓ.fn exponent.slope x * ℓ.fn (.ln base.expr) x +
    ℓ.fn exponent.expr x * ℓ.fn (logSlope (.constant .e) base) x)

/-- The logarithmic slope is the derivative of a power with a steady exponent, also where the base
is negative. -/
theorem hasDerivWithinAt_power_of_steady (hbase : Sound ℓ base) (hexponent : Sound ℓ exponent)
    (hzero : exponent.slope.isZero = true) (hne : base.slope.isZero = false)
    (hx : x ∈ ℓ.domain (.power base.expr exponent.expr)) (hex : x ∈ ℓ.domain exponent.expr)
    (hlog : x ∈ ℓ.domain (logSlope (.constant .e) base)) :
    HasDerivWithinAt (ℓ.fn (.power base.expr exponent.expr)) (logarithmicSlope ℓ base exponent x)
      (ℓ.domain (.power base.expr exponent.expr)) x := by
  obtain ⟨hslope, hmem, hne, hrate⟩ := fn_lnSlope hne hlog
  have hsteady := hexponent.steady hzero
  refine (hasDerivWithinAt_power hx hmem hex (hbase.derives x hmem hslope)
    (hasDerivWithinAt_of_steady hsteady hex) (.inr ⟨hne, hsteady, rfl⟩)).congr_deriv ?_
  rw [logarithmicSlope, hrate, fn_of_isZero hzero, zero_mul, zero_mul]

/-- The logarithmic slope is the derivative of a power where the base is positive. -/
theorem hasDerivWithinAt_power_of_ln (hbase : Sound ℓ base) (hexponent : Sound ℓ exponent)
    (hx : x ∈ ℓ.domain (.power base.expr exponent.expr)) (hslope : x ∈ ℓ.domain exponent.slope)
    (hln : x ∈ ℓ.domain (.ln base.expr))
    (hlog : base.slope.isZero = true ∨
      x ∈ ℓ.domain exponent.expr ∧ x ∈ ℓ.domain (logSlope (.constant .e) base)) :
    HasDerivWithinAt (ℓ.fn (.power base.expr exponent.expr)) (logarithmicSlope ℓ base exponent x)
      (ℓ.domain (.power base.expr exponent.expr)) x := by
  obtain ⟨hmem, hpos⟩ := mem_domain_ln.mp hln
  rw [logarithmicSlope, fn_ln hln]
  cases hzero : base.slope.isZero with
  | true =>
    have hlogZero : (logSlope (.constant .e) base).isZero = true := isZero_logSlope.mpr hzero
    have hsteady := hbase.steady hzero
    rw [fn_of_isZero hlogZero, mul_zero, add_zero]
    by_cases hex : x ∈ ℓ.domain exponent.expr
    · refine (hasDerivWithinAt_power hx hmem hex (hasDerivWithinAt_of_steady hsteady hmem)
        (hexponent.derives x hex hslope) (.inl hpos)).congr_deriv ?_
      rw [zero_div, mul_zero, add_zero]
    · -- the base is one, and so is the power
      obtain ⟨-, h, -⟩ | ⟨-, h, -⟩ | ⟨-, -, hone, -⟩ := mem_domain_power hx
      · exact absurd h hex
      · exact absurd h hex
      rw [hone, Real.log_one, mul_zero, mul_zero]
      have hall {y : ℝ} (hy : y ∈ ℓ.domain (.power base.expr exponent.expr)) :
          ℓ.fn (.power base.expr exponent.expr) y = 1 :=
        fn_power_of_base_one (fun hay => (hsteady y hay x hmem).trans hone) hy
      exact hasDerivWithinAt_zero fun y hy => (hall hy).trans (hall hx).symm
  | false =>
    obtain ⟨hex, hlog⟩ := hlog.resolve_left (by simp [hzero])
    obtain ⟨hbaseSlope, -, -, hrate⟩ := fn_lnSlope hzero hlog
    refine (hasDerivWithinAt_power hx hmem hex (hbase.derives x hmem hbaseSlope)
      (hexponent.derives x hex hslope) (.inl hpos)).congr_deriv ?_
    rw [hrate]

/-- The slope of a power whose base and exponent both depend on the variable is sound. -/
theorem sound_power_both (hbaseDepends : base.expr.dependsOn ℓ.name = true)
    (hexponentDepends : exponent.expr.dependsOn ℓ.name = true) (hbase : Sound ℓ base)
    (hexponent : Sound ℓ exponent) :
    Sound ℓ ⟨.power base.expr exponent.expr, Term.toExpr (Term.unit.timesAll
      [.power base.expr exponent.expr,
        productSlope ℓ.name .one [exponent, lnPair ℓ.name base] []])⟩ := by
  have hln : lnPair ℓ.name base = ⟨.ln base.expr, logSlope (.constant .e) base⟩ := by
    rw [lnPair, if_pos hbaseDepends]
  have hlnDepends : (lnPair ℓ.name base).expr.dependsOn ℓ.name = true := by
    obtain ⟨v, hv, hvar⟩ := List.any_eq_true.mp hbaseDepends
    have hchild : base.expr ∈ (Expr.ln base.expr).children := by simp [Expr.ln, Expr.children]
    exact List.any_eq_true.mpr ⟨v, Expr.mem_postOrder.mpr (.inr ⟨base.expr, hchild, hv⟩), hvar⟩
  have hlnZero : (Expr.ln base.expr).isZero = false := rfl
  have hproduct : (productSlope ℓ.name .one [exponent, lnPair ℓ.name base] []).isZero = true ↔
      exponent.slope.isZero = true ∧
        (exponent.expr.isZero = true ∨ base.slope.isZero = true) := by
    rw [isZero_productSlope_pair hexponentDepends hlnDepends, hln, isZero_logSlope, hlnZero]
    simp
  refine .of_slope (fun hzero => ?_) (absurd · Bool.false_ne_true) fun hzero x hx hslope => ?_
  · obtain ⟨f, hf, hzero⟩ := isZero_timesAll.mp hzero
    simp only [List.mem_cons, List.not_mem_nil, or_false] at hf
    obtain rfl | rfl := hf
    · cases hzero
    · obtain ⟨hexponentSlope, hvanishes | hbaseSlope⟩ := hproduct.mp hzero
      · intro y hy z hz
        rw [fn_power_of_exponent_zero (fn_of_isZero hvanishes) hy,
          fn_power_of_exponent_zero (fn_of_isZero hvanishes) hz]
      · exact steady_power (hbase.steady hbaseSlope) (hexponent.steady hexponentSlope)
  · obtain ⟨hvanishes | hdefined, hvalue⟩ := fn_timesAll (.inr hslope)
    · exact absurd (hzero.symm.trans (isZero_timesAll.mpr hvanishes)) Bool.false_ne_true
    simp only [List.forall_mem_cons, List.map_cons, List.map_nil, List.prod_cons, List.prod_nil,
      mul_one] at hdefined hvalue
    obtain ⟨hfirst, hsecond, hsum⟩ := fn_productSlope_pair hexponentDepends hlnDepends hdefined.2.1
    rw [hln] at hfirst hsecond hsum
    rw [isZero_logSlope] at hsecond
    have hderivative : ℓ.fn (Term.toExpr (Term.unit.timesAll [.power base.expr exponent.expr,
        productSlope ℓ.name .one [exponent, lnPair ℓ.name base] []])) x =
          logarithmicSlope ℓ base exponent x := by
      rw [hvalue, hln, hsum, logarithmicSlope]
    rw [hderivative]
    cases hexponentSlope : exponent.slope.isZero with
    | true =>
      have hnot : ¬ (exponent.expr.isZero = true ∨ base.slope.isZero = true) := fun h =>
        absurd (hzero.symm.trans
          (isZero_timesAll.mpr ⟨_, by simp, hproduct.mpr ⟨hexponentSlope, h⟩⟩)) Bool.false_ne_true
      obtain ⟨hex, hlog⟩ := hsecond.resolve_left hnot
      exact hasDerivWithinAt_power_of_steady hbase hexponent hexponentSlope
        (by simpa using fun h => hnot (.inr h)) hx hex hlog
    | false =>
      obtain ⟨hexSlope, hlnMem⟩ := hfirst.resolve_left (by simp [hexponentSlope, hlnZero])
      have hexpr : ¬ exponent.expr.isZero = true := fun h =>
        absurd (hexponentSlope.symm.trans (hexponent.vanishing h)) Bool.false_ne_true
      rw [or_iff_right hexpr] at hsecond
      exact hasDerivWithinAt_power_of_ln hbase hexponent hx hexSlope hlnMem hsecond

/-- The slope of a power is sound. -/
theorem sound_power (hbase : Sound ℓ base) (hexponent : Sound ℓ exponent) :
    Sound ℓ ⟨.power base.expr exponent.expr, powerSlope ℓ.name base exponent⟩ := by
  unfold powerSlope
  cases hexponentDepends : exponent.expr.dependsOn ℓ.name with
  | false => exact sound_power_fixedExponent hexponentDepends hbase
  | true =>
    cases hbaseDepends : base.expr.dependsOn ℓ.name with
    | false => exact sound_power_fixedBase hbaseDepends hexponent
    | true => exact sound_power_both hbaseDepends hexponentDepends hbase hexponent

end SymbolicAlgebra.Derivative
