import SymbolicAlgebra.Proofs.Derivative.Product

/-!
# Slopes of logarithms and functions

A logarithm whose base depends on the variable is differentiated as a quotient of natural
logarithms, which is defined wherever the logarithm is and has its value. The other rules are those
of the chain rule.
-/

namespace SymbolicAlgebra.Derivative

open Exact Line

variable {ℓ : Line} {x : ℝ}

/-- A slope that is sound for an expression is sound for any other that has its values. -/
theorem Sound.congr {e e' s : Expr Exact} (h : Sound ℓ ⟨e, s⟩)
    (hvalue : ∀ y ∈ ℓ.domain e', y ∈ ℓ.domain e ∧ ℓ.fn e' y = ℓ.fn e y)
    (hzero : e'.isZero = true → s.isZero = true) : Sound ℓ ⟨e', s⟩ where
  steady hs y hy z hz := by
    obtain ⟨hey, hfy⟩ := hvalue y hy
    obtain ⟨hez, hfz⟩ := hvalue z hz
    exact hfy.trans ((h.steady hs y hey z hez).trans hfz.symm)
  vanishing := hzero
  derives x hx hs :=
    (h.derives x (hvalue x hx).1 hs).congr_mono (fun y hy => (hvalue y hy).2) (hvalue x hx).2
      fun y hy => (hvalue y hy).1

section Logarithm

variable {base : Expr Exact} {body : Pair Exact} {t : Term Exact}

/-- The slope of a logarithm as a product in the making. -/
noncomputable def logTerm (base : Expr Exact) (body : Pair Exact) : Option (Term Exact) :=
  (Term.unit.times body.slope).map fun t => (t.divide body.expr).divide (.ln base)

/-- The slope of a logarithm is the product that it is put together from. -/
theorem logSlope_eq : logSlope base body = Term.toExpr (logTerm base body) := by
  rw [logSlope, logTerm]
  cases (Term.unit : Term Exact).times body.slope <;> rfl

/-- The slope of a logarithm is that of its body over the body and the logarithm of the base. -/
theorem multiplied_logTerm (h : logTerm base body = some t) :
    Term.Multiplied ℓ
      (fun y => ℓ.fn body.slope y * ((ℓ.fn body.expr y)⁻¹ * (ℓ.fn (.ln base) y)⁻¹))
      (fun y => y ∈ ℓ.domain body.slope ∧ (y ∈ ℓ.domain body.expr ∧ ℓ.fn body.expr y ≠ 0) ∧
        y ∈ ℓ.domain (.ln base) ∧ ℓ.fn (.ln base) y ≠ 0) Term.unit t := by
  obtain ⟨t₁, hslope, rfl⟩ := Option.map_eq_some_iff.mp h
  exact (Term.multiplied_times hslope).2.trans
    ((Term.multiplied_divide body.expr t₁).trans (Term.multiplied_divide _ _))

/-- The slope of a logarithm is recognized as zero if that of its body is. -/
theorem isZero_logSlope : (logSlope base body).isZero = true ↔ body.slope.isZero = true := by
  rw [logSlope_eq, Term.isZero_toExpr Term.proper_unit
    fun _ => multiplied_logTerm (ℓ := ⟨.empty, ""⟩), logTerm, Option.map_eq_none_iff,
    Term.times_eq_none]

/-- Where the slope of a logarithm is defined the parts that it is put together from are. -/
theorem fn_logSlope (hzero : (logSlope base body).isZero = false)
    (hx : x ∈ ℓ.domain (logSlope base body)) :
    x ∈ ℓ.domain body.slope ∧ x ∈ ℓ.domain body.expr ∧ ℓ.fn body.expr x ≠ 0 ∧
      x ∈ ℓ.domain (.ln base) ∧
      ℓ.fn (logSlope base body) x =
        ℓ.fn body.slope x / ℓ.fn body.expr x / Real.log (ℓ.fn base x) := by
  rw [logSlope_eq] at hzero hx ⊢
  obtain ⟨hnone, -⟩ | ⟨-, -, ⟨hslope, hbody, hln, -⟩, hvalue⟩ :=
    Term.counts_toExpr (.inr hx) Term.proper_unit fun _ => multiplied_logTerm
  · rw [hnone, Term.isZero_toExpr_none] at hzero
    cases hzero
  · refine ⟨hslope, hbody.1, hbody.2, hln, ?_⟩
    rw [hvalue, (Term.fn_unit x).2, fn_ln hln]
    ring

/-- Where the slope of a natural logarithm is defined it is that of its body over the body. -/
theorem fn_lnSlope (hzero : body.slope.isZero = false)
    (hx : x ∈ ℓ.domain (logSlope (.constant .e) body)) :
    x ∈ ℓ.domain body.slope ∧ x ∈ ℓ.domain body.expr ∧ ℓ.fn body.expr x ≠ 0 ∧
      ℓ.fn (logSlope (.constant .e) body) x = ℓ.fn body.slope x / ℓ.fn body.expr x := by
  have hlogZero : (logSlope (.constant .e) body).isZero = false := by
    rw [← Bool.not_eq_true, isZero_logSlope, hzero]
    nofun
  obtain ⟨hslope, hmem, hne, -, hlog⟩ := fn_logSlope hlogZero hx
  refine ⟨hslope, hmem, hne, ?_⟩
  rw [hlog, (fn_euler x).2, Real.log_exp, div_one]

/-- A logarithm of what is steady to a steady base is steady. -/
theorem steady_log {e : Expr Exact} (hbase : ℓ.Steady base) (he : ℓ.Steady e) :
    ℓ.Steady (.log base e) := by
  intro y hy z hz
  obtain ⟨hby, hey, -⟩ := mem_domain_log.mp hy
  obtain ⟨hbz, hez, -⟩ := mem_domain_log.mp hz
  rw [fn_log hy, fn_log hz, hbase y hby z hbz, he y hey z hez]

/-- The slope of a logarithm is sound if its base does not depend on the variable. -/
theorem sound_log (hbase : base.dependsOn ℓ.name = false) (h : Sound ℓ body) :
    Sound ℓ ⟨.log base body.expr, logSlope base body⟩ := by
  have hsteady := steady_of_not_dependsOn hbase
  refine .of_slope (fun hzero => steady_log hsteady (h.steady (isZero_logSlope.mp hzero))) nofun ?_
  intro hzero x hx hslope
  obtain ⟨hbodySlope, hbody, hne, -, hvalue⟩ := fn_logSlope hzero hslope
  have hsub : ℓ.domain (.log base body.expr) ⊆ ℓ.domain body.expr :=
    fun y hy => (mem_domain_log.mp hy).2.1
  have hderiv := (((h.derives x hbody hbodySlope).mono hsub).log hne).div_const
    (Real.log (ℓ.fn base x))
  rw [hvalue]
  refine hderiv.congr_of_mem (fun y hy => ?_) hx
  rw [fn_log hy, hsteady y (mem_domain_log.mp hy).1 x (mem_domain_log.mp hx).1]

/-- The slope of a natural logarithm is sound. -/
theorem sound_lnPair (h : Sound ℓ body) : Sound ℓ (lnPair ℓ.name body) := by
  have hbase : (Expr.constant .e : Expr Exact).dependsOn ℓ.name = false := rfl
  cases hdepends : body.expr.dependsOn ℓ.name with
  | true =>
    rw [lnPair, if_pos hdepends]
    exact sound_log hbase h
  | false =>
    rw [lnPair, if_neg (by simp [hdepends])]
    exact sound_zero (steady_log (steady_of_not_dependsOn hbase) (steady_of_not_dependsOn hdepends))

/-- The slope of any logarithm is sound. -/
theorem sound_anyLog {base : Pair Exact} (hbase : Sound ℓ base) (hbody : Sound ℓ body) :
    Sound ℓ ⟨.log base.expr body.expr, anyLogSlope ℓ.name base body⟩ := by
  rw [anyLogSlope]
  cases hdepends : base.expr.dependsOn ℓ.name with
  | false =>
    rw [if_neg (by simp)]
    exact sound_log hdepends hbody
  | true =>
    rw [if_pos rfl]
    -- the quotient of the natural logarithms is defined wherever the logarithm is
    have hquotient : Sound ℓ ⟨ratio .one [lnPair ℓ.name body] [lnPair ℓ.name base],
        productSlope ℓ.name .one [lnPair ℓ.name body] [lnPair ℓ.name base]⟩ :=
      sound_product (List.forall_mem_singleton.mpr (sound_lnPair hbody))
        (List.forall_mem_singleton.mpr (sound_lnPair hbase))
    refine hquotient.congr (fun y hy => ?_) nofun
    obtain ⟨hb, he, hpos, hne, hepos⟩ := mem_domain_log.mp hy
    have hupper : y ∈ ℓ.domain (.ln body.expr) := mem_domain_ln.mpr ⟨he, hepos⟩
    have hlower : y ∈ ℓ.domain (.ln base.expr) := mem_domain_ln.mpr ⟨hb, hpos⟩
    have hmem : y ∈ ℓ.domain (ratio .one [lnPair ℓ.name body] [lnPair ℓ.name base]) := by
      refine mem_domain_ratio.mpr ⟨Term.real_one.1, List.forall_mem_singleton.mpr hupper,
        List.forall_mem_singleton.mpr hlower, ?_⟩
      rw [factors, List.map_singleton, List.prod_singleton]
      change ℓ.fn (.ln base.expr) y ≠ 0
      rw [fn_ln hlower]
      exact Real.log_ne_zero_of_pos_of_ne_one hpos hne
    refine ⟨hmem, ?_⟩
    rw [fn_log hy, fn_ratio hmem, Term.real_one.2, one_mul, factors, factors, List.map_singleton,
      List.map_singleton, List.prod_singleton, List.prod_singleton]
    change _ = ℓ.fn (.ln body.expr) y / ℓ.fn (.ln base.expr) y
    rw [fn_ln hupper, fn_ln hlower]

end Logarithm

section Trigonometry

variable {body : Pair Exact} {t : Term Exact} {f : Trig}

/-- The slope of a function as a product in the making. -/
noncomputable def trigTerm (f : Trig) (body : Pair Exact) : Option (Term Exact) := do
  let t ← Term.unit.times body.slope
  match f with
  | .sin => t.times (.trig .cos body.expr)
  | .cos => (← t.scale .minusOne).times (.trig .sin body.expr)
  | .tan => return t.divide (.power (.trig .cos body.expr) (.real (Scalar.ofInt 2)))

/-- The derivative of a function at a number. -/
noncomputable def trigRate (f : Trig) (r : ℝ) : ℝ :=
  match f with
  | .sin => Real.cos r
  | .cos => -Real.sin r
  | .tan => 1 / Real.cos r ^ 2

/-- The slope of a function is that of its body times its rate. -/
theorem multiplied_trigTerm (h : trigTerm f body = some t) :
    Term.Multiplied ℓ (fun y => ℓ.fn body.slope y * trigRate f (ℓ.fn body.expr y))
      (fun y => y ∈ ℓ.domain body.slope) Term.unit t := by
  obtain ⟨t₁, hslope, h⟩ := Option.bind_eq_some_iff.mp h
  have hfirst := (Term.multiplied_times (ℓ := ℓ) hslope).2
  cases f with
  | sin =>
    have hall := hfirst.trans (Term.multiplied_times h).2
    refine ⟨hall.proper, fun y hy => ?_⟩
    obtain ⟨hmem, ⟨hdefined, hcos⟩, hvalue⟩ := hall.value y hy
    exact ⟨hmem, hdefined, by rw [hvalue, (mem_domain_trig hcos).2, trigRate]⟩
  | cos =>
    obtain ⟨t₂, hscale, h⟩ := Option.bind_eq_some_iff.mp h
    have hall := hfirst.trans ((Term.multiplied_scale hscale).trans (Term.multiplied_times h).2)
    refine ⟨hall.proper, fun y hy => ?_⟩
    obtain ⟨hmem, ⟨hdefined, -, hsin⟩, hvalue⟩ := hall.value y hy
    refine ⟨hmem, hdefined, ?_⟩
    rw [hvalue, (mem_domain_trig hsin).2, Term.real_minusOne.2, trigRate, neg_one_mul]
  | tan =>
    cases h
    have hall := hfirst.trans
      (Term.multiplied_divide (.power (.trig .cos body.expr) (.real (Scalar.ofInt 2))) t₁)
    refine ⟨hall.proper, fun y hy => ?_⟩
    obtain ⟨hmem, ⟨hdefined, hsquare, -⟩, hvalue⟩ := hall.value y hy
    obtain ⟨hcos, hpower⟩ := mem_domain_square hsquare
    refine ⟨hmem, hdefined, ?_⟩
    rw [hvalue, hpower, (mem_domain_trig hcos).2, trigRate, one_div]

/-- The slope of a function vanishes with that of its body. -/
theorem trigTerm_eq_none : trigTerm f body = none ↔ body.slope.isZero = true := by
  rw [← Term.times_eq_none (t := Term.unit), trigTerm]
  cases hslope : (Term.unit : Term Exact).times body.slope with
  | none => simp
  | some t₁ =>
    refine iff_of_false ?_ (Option.some_ne_none t₁)
    cases f with
    | sin =>
      intro (hnone : t₁.times (.trig .cos body.expr) = none)
      cases Term.times_eq_none.mp hnone
    | cos =>
      intro (hnone : (t₁.scale .minusOne).bind (·.times (.trig .sin body.expr)) = none)
      cases hscale : t₁.scale (Coefficient.minusOne : Coefficient Exact) with
      | none => exact absurd (Term.scale_eq_none.mp hscale) (by simp [Term.isZero_minusOne])
      | some t₂ =>
        rw [hscale] at hnone
        cases Term.times_eq_none.mp (hnone : t₂.times _ = none)
    | tan =>
      intro hnone
      cases hnone

/-- Where a function is defined it changes at its rate. -/
theorem hasDerivWithinAt_trig {e : Expr Exact} {s : Set ℝ} {e' : ℝ}
    (hx : x ∈ ℓ.domain (.trig f e)) (hs : s ⊆ ℓ.domain (.trig f e))
    (h : HasDerivWithinAt (ℓ.fn e) e' s x) :
    HasDerivWithinAt (ℓ.fn (.trig f e)) (e' * trigRate f (ℓ.fn e x)) s x := by
  have hfn (y : ℝ) (hy : y ∈ ℓ.domain (.trig f e)) := (mem_domain_trig hy).2
  cases f with
  | sin =>
    refine (h.sin.congr (fun y hy => hfn y (hs hy)) (hfn x hx)).congr_deriv ?_
    rw [trigRate, mul_comm]
  | cos =>
    refine (h.cos.congr (fun y hy => hfn y (hs hy)) (hfn x hx)).congr_deriv ?_
    rw [trigRate, mul_comm]
  | tan =>
    have htan := (Real.hasDerivAt_tan (hfn x hx).2).comp_hasDerivWithinAt x h
    refine (htan.congr (fun y hy => (hfn y (hs hy)).1) (hfn x hx).1).congr_deriv ?_
    rw [trigRate, mul_comm]

/-- The slope of a function is sound. -/
theorem sound_trig (h : Sound ℓ body) : Sound ℓ ⟨.trig f body.expr, trigSlope f body⟩ := by
  have hslope : trigSlope f body = Term.toExpr (trigTerm f body) := rfl
  have hnone : (trigSlope f body).isZero = true ↔ body.slope.isZero = true := by
    rw [hslope, Term.isZero_toExpr Term.proper_unit
      fun _ => multiplied_trigTerm (ℓ := ⟨.empty, ""⟩), trigTerm_eq_none]
  refine .of_slope (fun hzero y hy z hz => ?_) (absurd · Bool.false_ne_true)
    fun hzero x hx hdefined => ?_
  · have hbody := h.steady (hnone.mp hzero) y (mem_domain_trig hy).1 z (mem_domain_trig hz).1
    have hvalues := And.intro (mem_domain_trig hy).2 (mem_domain_trig hz).2
    cases f with
    | sin => rw [hvalues.1, hvalues.2, hbody]
    | cos => rw [hvalues.1, hvalues.2, hbody]
    | tan => rw [hvalues.1.1, hvalues.2.1, hbody]
  · have hcounts := Term.counts_toExpr (.inr (hslope ▸ hdefined)) Term.proper_unit
      fun _ => multiplied_trigTerm
    rw [← hslope] at hcounts
    obtain ⟨hvanishes, -⟩ | ⟨-, -, hbodySlope, hvalue⟩ := hcounts
    · exact absurd (hzero.symm.trans (hnone.mpr (trigTerm_eq_none.mp hvanishes))) Bool.false_ne_true
    · have hsub : ℓ.domain (.trig f body.expr) ⊆ ℓ.domain body.expr :=
        fun y hy => (mem_domain_trig hy).1
      have hbody := (h.derives x (hsub hx) hbodySlope).mono hsub
      refine (hasDerivWithinAt_trig hx subset_rfl hbody).congr_deriv ?_
      rw [hvalue, (Term.fn_unit x).2, one_mul]

end Trigonometry

end SymbolicAlgebra.Derivative
