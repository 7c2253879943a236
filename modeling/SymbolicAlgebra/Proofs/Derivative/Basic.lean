import SymbolicAlgebra.Proofs.Derivative.Power
import SymbolicAlgebra.Proofs.Derivative.Ends

/-!
# The derivative of an expression

The rules put together: the slope that the recursion finds is sound for every expression. So at a
point around which an expression is defined, its symbolic derivative has the derivative as its
value, if it has one there.
-/

namespace SymbolicAlgebra

namespace Derivative

open Exact Line

variable {ℓ : Line}

/-- The slope of a sum is sound if those of its addends are. -/
theorem sound_sum {ps : List (Pair Exact)} (h : ∀ p ∈ ps, Sound ℓ p) :
    Sound ℓ ⟨.sum (ps.map Pair.expr), sumOf (ps.map Pair.slope)⟩ := by
  have hfn {y : ℝ} (hy : y ∈ ℓ.domain (.sum (ps.map Pair.expr))) :
      (∀ p ∈ ps, y ∈ ℓ.domain p.expr) ∧
        ℓ.fn (.sum (ps.map Pair.expr)) y = (ps.map fun p => ℓ.fn p.expr y).sum := by
    refine ⟨List.forall_mem_map.mp (mem_domain_sum.mp hy), ?_⟩
    rw [fn_sum hy, List.map_map]
    rfl
  refine .of_slope (fun hzero y hy z hz => ?_) nofun fun _ x hx hslope => ?_
  · obtain ⟨hdy, hfy⟩ := hfn hy
    obtain ⟨hdz, hfz⟩ := hfn hz
    rw [isZero_sumOf, List.forall_mem_map] at hzero
    rw [hfy, hfz]
    exact congrArg List.sum (List.map_congr_left fun p hp =>
      (h p hp).steady (hzero p hp) y (hdy p hp) z (hdz p hp))
  · obtain ⟨hcounts, hvalue⟩ := mem_domain_sumOf hslope
    rw [List.forall_mem_map] at hcounts
    obtain ⟨hdx, hfx⟩ := hfn hx
    have hderiv := hasDerivWithinAt_sum fun p hp =>
      ((h p hp).hasDerivWithinAt (hdx p hp) (hcounts p hp)).mono fun y hy => (hfn hy).1 p hp
    refine (hderiv.congr (fun y hy => (hfn hy).2) hfx).congr_deriv ?_
    rw [hvalue, List.map_map]
    rfl

/-- The slope of the variable is one. -/
theorem sound_var : Sound ℓ ⟨.var ℓ.name, .one⟩ := by
  have hone : (Expr.one : Expr Exact) = .real (number 1) := by rw [Expr.one, Exact.one_eq]
  refine .of_slope (fun hzero => ?_) nofun fun _ x _ _ => ?_
  · simp [hone, Expr.isZero, Expr.isReal, Expr.real, Expr.real?, Number.literal,
      Number.real?] at hzero
  · rw [hone, (fn_real 1 x).2]
    exact (hasDerivWithinAt_id x _).congr (fun y _ => (fn_var y).2) (fn_var x).2

/-- The slope that the recursion finds is sound. -/
theorem sound_derivative (ℓ : Line) (e : Expr Exact) : Sound ℓ ⟨e, e.derivative ℓ.name⟩ := by
  have ih (child : Expr Exact) (hchild : child ∈ e.children) :
      Sound ℓ ⟨child, child.derivative ℓ.name⟩ := sound_derivative ℓ child
  have hlist {es : List (Expr Exact)}
      (hes : ∀ child ∈ es, Sound ℓ ⟨child, child.derivative ℓ.name⟩) :
      (∀ p ∈ Expr.derivatives ℓ.name es, Sound ℓ p) ∧
        (Expr.derivatives ℓ.name es).map Pair.expr = es := by
    rw [derivatives_eq_map, List.forall_mem_map, List.map_map]
    exact ⟨hes, List.map_id es⟩
  cases hdepends : e.dependsOn ℓ.name with
  | false =>
    rw [derivative_of_not_dependsOn hdepends]
    exact sound_zero (steady_of_not_dependsOn hdepends)
  | true =>
    cases e with
    | sum as =>
      obtain ⟨hsound, hmap⟩ := hlist ih
      have hsum := sound_sum hsound
      rw [hmap] at hsum
      rwa [Expr.derivative, if_pos hdepends]
    | product c n d =>
      rw [Expr.children, List.forall_mem_append] at ih
      obtain ⟨hn, hmapn⟩ := hlist ih.1
      obtain ⟨hd, hmapd⟩ := hlist ih.2
      have hproduct := sound_product (c := c) hn hd
      rw [ratio, hmapn, hmapd] at hproduct
      rwa [Expr.derivative, if_pos hdepends]
    | power a b =>
      rw [Expr.derivative, if_pos hdepends]
      exact sound_power (ih a (by simp [Expr.children])) (ih b (by simp [Expr.children]))
    | log a b =>
      rw [Expr.derivative, if_pos hdepends]
      exact sound_anyLog (ih a (by simp [Expr.children])) (ih b (by simp [Expr.children]))
    | trig f a =>
      rw [Expr.derivative, if_pos hdepends]
      exact sound_trig (ih a (by simp [Expr.children]))
    | var v =>
      have hname : v = ℓ.name := by
        simpa [Expr.dependsOn, Expr.postOrder, Expr.postOrderOnto, Expr.isVar] using hdepends
      rw [Expr.derivative, if_pos hdepends, if_pos hname, hname]
      exact sound_var
    | number v => cases hdepends
termination_by e.size
decreasing_by exact Expr.size_lt_of_mem_children hchild

end Derivative

namespace Expr

open Topology SymbolicAlgebra.Derivative

/-- Where an expression is defined around a point, the value of its symbolic derivative there is the
derivative of its values. -/
theorem hasDerivAt_derivative {e : Expr Exact} {name : String} {b : Bindings Exact} {f : ℝ → ℝ}
    {x d : ℝ} (hf : ∀ᶠ y in 𝓝 x, e.value (b.insert name (.number y)) = .ok (.number (f y)))
    (hd : (e.derivative name).value (b.insert name (.number x)) = .ok (.number d)) :
    HasDerivAt f d x := by
  let ℓ : Line := ⟨b, name⟩
  have hdomain : ℓ.domain e ∈ 𝓝 x := hf.mono fun y hy => Line.mem_domain_of_value hy
  have hfn : f =ᶠ[𝓝 x] ℓ.fn e := hf.mono fun y hy => (Line.fn_eq_of_value (ℓ := ℓ) hy).symm
  have hslope : ℓ.fn (e.derivative name) x = d := Line.fn_eq_of_value hd
  have hderiv := (Derivative.sound_derivative ℓ e).derives x (mem_of_mem_nhds hdomain)
    (Line.mem_domain_of_value hd)
  rw [hslope] at hderiv
  exact (hderiv.hasDerivAt hdomain).congr_of_eventuallyEq hfn

/-- The derivative of a reciprocal is the opposite of the reciprocal of the square. -/
theorem derivative_reciprocal : ∃ c : Coefficient Exact, c.value = .number (-1) ∧
    (Expr.dividedBy .one (.var "x") : Expr Exact).derivative "x" =
      .product c [] [.power (.var "x") (.real (Scalar.ofInt 2))] := by
  have hdepends : (Expr.dividedBy .one (.var "x") : Expr Exact).dependsOn "x" = true := rfl
  have hone : (Expr.one : Expr Exact).dependsOn "x" = false := rfl
  have hvar : (Expr.var "x" : Expr Exact).dependsOn "x" = true := rfl
  have hslope : (Expr.var "x" : Expr Exact).derivative "x" = .one := by
    rw [Expr.derivative, if_pos hvar, if_pos rfl]
  have hliteral : (Expr.one : Expr Exact) = .number (.real (.number 1)) := by
    simp [Expr.one, Expr.real, Number.literal]
  refine ⟨.one * .one * .ofScalar (.number 1) * .minusOne * .ofScalar (.number 1), ?_, ?_⟩
  · rw [Coefficient.value_mul, Coefficient.value_mul, Coefficient.value_mul, Coefficient.value_mul,
      Coefficient.ofScalar, Coefficient.value_ofFraction, Coefficient.one, Coefficient.minusOne,
      Coefficient.value, Coefficient.value]
    simp [Exact.number_div]
  · unfold Expr.dividedBy at hdepends ⊢
    rw [Expr.derivative, if_pos hdepends, productSlope]
    simp only [Expr.derivatives, Quotient.ofPairs, List.filter_cons, List.filter_nil, hone, hvar,
      Quotient.slope, hslope]
    simp [hliteral, Quotient.reciprocalSlope, Quotient.fixedPart, Term.unit, Term.scale,
      Term.timesAll, Term.times, Term.divide, Term.divideAll, Expr.isZero, Expr.isReal, Expr.real?,
      Number.real?, Coefficient.isZero, Coefficient.one, Coefficient.minusOne, Term.toExpr]

/-- The derivative of a reciprocal, at a point where it is defined. -/
theorem hasDerivAt_derivative_reciprocal :
    let e : Expr Exact := .dividedBy .one (.var "x")
    (∀ᶠ y in 𝓝 2, e.value (Bindings.empty.insert "x" (.number y)) = .ok (.number (1 / y))) ∧
      (e.derivative "x").value (Bindings.empty.insert "x" (.number 2)) =
        .ok (.number (-1 / 2 ^ 2)) ∧
      HasDerivAt (fun y : ℝ => 1 / y) (-1 / 2 ^ 2) 2 := by
  intro e
  let ℓ : Line := ⟨.empty, "x"⟩
  have hvar (y : ℝ) : y ∈ ℓ.domain (.var "x") ∧ ℓ.fn (.var "x") y = y := Line.fn_var y
  have hone (y : ℝ) : y ∈ ℓ.domain .one ∧ ℓ.fn .one y = 1 := by
    rw [Expr.one, Exact.one_eq]
    exact Line.fn_real 1 y
  have hvalue (y : ℝ) (hy : y ≠ 0) : e.value (ℓ.point y) = .ok (.number (1 / y)) := by
    have h := Line.value_product (ℓ := ℓ) (y := y) (n := [.one]) (d := [.var "x"]) Term.real_one.1
      (List.forall_mem_singleton.mpr (hone y).1) (List.forall_mem_singleton.mpr (hvar y).1)
      (by simpa [(hvar y).2] using hy)
    simp only [List.map_cons, List.map_nil, List.prod_cons, List.prod_nil, (hone y).2, (hvar y).2,
      Term.real_one.2, mul_one] at h
    exact h
  have hslope : (e.derivative "x").value (ℓ.point 2) = .ok (.number (-1 / 2 ^ 2)) := by
    obtain ⟨c, hc, hderivative⟩ := derivative_reciprocal
    have hsquare : ((Expr.var "x").power (.real (Scalar.ofInt 2)) : Expr Exact).value (ℓ.point 2) =
        .ok (.number (2 ^ 2)) := by
      have hhas : Exact.HasPower 2 2 := ⟨fun h => by norm_num at h, fun h => by norm_num at h⟩
      have hpow : Scalar.pow (Exact.number 2) (Exact.number 2) = .number (2 ^ (2 : ℝ)) :=
        if_pos hhas
      rw [Expr.value, (hvar 2).1, (hvar 2).2]
      change Except.ok
        (powerValue (Exact.number 2) (Scalar.unsignZero (Exact.number ((2 : ℤ) : ℝ)))) = _
      simp [powerValue, hpow]
    obtain ⟨hnumber, hreal⟩ := Coefficient.isNumber_of_value hc
    have h := Line.value_product (ℓ := ℓ) (y := 2) (n := []) hnumber (List.forall_mem_nil _)
      (List.forall_mem_singleton.mpr (Line.mem_domain_of_value hsquare))
      (by rw [List.map_singleton, List.prod_singleton, Line.fn_eq_of_value hsquare]; norm_num)
    rw [hderivative, h]
    simp only [List.map_cons, List.map_nil, List.prod_cons, List.prod_nil,
      Line.fn_eq_of_value hsquare, hreal, mul_one]
  have hdefined : ∀ᶠ y in 𝓝 (2 : ℝ), e.value (Bindings.empty.insert "x" (.number y)) =
      .ok (.number (1 / y)) :=
    (eventually_ne_nhds two_ne_zero).mono hvalue
  exact ⟨hdefined, hslope, hasDerivAt_derivative hdefined hslope⟩

end Expr

end SymbolicAlgebra
