import SymbolicAlgebra.Proofs.Derivative.Term

/-!
# Sound slopes

The slope that goes with an expression is sound if it is the derivative wherever both are defined. A
rule may drop a slope that is recognized as zero without looking at the rest of the term, which can
be undefined. So soundness also says that an expression with such a slope is steady, and an
expression that is itself recognized as zero has such a slope.

Derivatives are taken within the domain of the expression. This is all that is known of a part while
the domain of the whole is smaller.
-/

namespace SymbolicAlgebra.Derivative

open Line

/-- The slope of an expression is its derivative. -/
structure Sound (ℓ : Line) (p : Pair Exact) : Prop where
  steady : p.slope.isZero = true → ℓ.Steady p.expr
  vanishing : p.expr.isZero = true → p.slope.isZero = true
  derives : ∀ x ∈ ℓ.domain p.expr, x ∈ ℓ.domain p.slope →
    HasDerivWithinAt (ℓ.fn p.expr) (ℓ.fn p.slope x) (ℓ.domain p.expr) x

variable {ℓ : Line} {x : ℝ}

/-- A function that is the same at all points of a set has the derivative zero there. -/
theorem hasDerivWithinAt_zero {f : ℝ → ℝ} {s : Set ℝ} (h : ∀ y ∈ s, f y = f x) :
    HasDerivWithinAt f 0 s x :=
  (hasDerivWithinAt_const x s (f x)).congr h rfl

/-- A steady expression has the derivative zero. -/
theorem hasDerivWithinAt_of_steady {e : Expr Exact} (h : ℓ.Steady e) (hx : x ∈ ℓ.domain e) :
    HasDerivWithinAt (ℓ.fn e) 0 (ℓ.domain e) x :=
  hasDerivWithinAt_zero fun y hy => h y hy x hx

/-- The derivative need only be found where the slope is not recognized as zero. -/
theorem Sound.of_slope {p : Pair Exact} (steady : p.slope.isZero = true → ℓ.Steady p.expr)
    (vanishing : p.expr.isZero = true → p.slope.isZero = true)
    (derives : p.slope.isZero = false → ∀ x ∈ ℓ.domain p.expr, x ∈ ℓ.domain p.slope →
      HasDerivWithinAt (ℓ.fn p.expr) (ℓ.fn p.slope x) (ℓ.domain p.expr) x) : Sound ℓ p where
  steady := steady
  vanishing := vanishing
  derives x hx hslope := by
    cases hzero : p.slope.isZero with
    | true =>
      rw [fn_of_isZero hzero]
      exact hasDerivWithinAt_of_steady (steady hzero) hx
    | false => exact derives hzero x hx hslope

/-- A sound slope is the derivative where the expression is defined and the slope counts. -/
theorem Sound.hasDerivWithinAt {p : Pair Exact} (h : Sound ℓ p) (hx : x ∈ ℓ.domain p.expr)
    (hslope : ℓ.Counts p.slope x) :
    HasDerivWithinAt (ℓ.fn p.expr) (ℓ.fn p.slope x) (ℓ.domain p.expr) x := by
  obtain hzero | hslope := hslope
  · rw [fn_of_isZero hzero]
    exact hasDerivWithinAt_of_steady (h.steady hzero) hx
  · exact h.derives x hx hslope

/-- Zero is the slope of what is steady. -/
theorem sound_zero {e : Expr Exact} (h : ℓ.Steady e) : Sound ℓ ⟨e, .zero⟩ :=
  .of_slope (fun _ => h) (fun _ => Term.isZero_toExpr_none) fun hzero =>
    nomatch hzero.symm.trans Term.isZero_toExpr_none

section Lists

variable {ps : List (Pair Exact)} {s : Set ℝ}

/-- The sum of the slopes is the derivative of a sum. -/
theorem hasDerivWithinAt_sum
    (h : ∀ p ∈ ps, HasDerivWithinAt (ℓ.fn p.expr) (ℓ.fn p.slope x) s x) :
    HasDerivWithinAt (fun y => (ps.map fun p => ℓ.fn p.expr y).sum)
      (ps.map fun p => ℓ.fn p.slope x).sum s x := by
  induction ps with
  | nil => exact hasDerivWithinAt_const x s 0
  | cons p ps ih =>
    rw [List.forall_mem_cons] at h
    simp only [List.map_cons, List.sum_cons]
    exact h.1.add (ih h.2)

/-- The product of the values of expressions. -/
noncomputable def factors (ℓ : Line) (ps : List (Pair Exact)) (y : ℝ) : ℝ :=
  (ps.map fun p => ℓ.fn p.expr y).prod

/-- The values of the expressions of pairs multiply to the product. -/
theorem prod_map_expr (ps : List (Pair Exact)) (y : ℝ) :
    ((ps.map Pair.expr).map (ℓ.fn · y)).prod = factors ℓ ps y := by
  rw [List.map_map]
  rfl

/-- The derivative of a product by Leibniz's rule. -/
noncomputable def leibniz (ℓ : Line) (x : ℝ) : List (Pair Exact) → ℝ
  | [] => 0
  | p :: ps => ℓ.fn p.slope x * factors ℓ ps x + ℓ.fn p.expr x * leibniz ℓ x ps

/-- Leibniz's rule gives the derivative of a product. -/
theorem hasDerivWithinAt_factors
    (h : ∀ p ∈ ps, HasDerivWithinAt (ℓ.fn p.expr) (ℓ.fn p.slope x) s x) :
    HasDerivWithinAt (factors ℓ ps) (leibniz ℓ x ps) s x := by
  induction ps with
  | nil => exact hasDerivWithinAt_const x s 1
  | cons p ps ih =>
    rw [List.forall_mem_cons] at h
    have hcons : factors ℓ (p :: ps) = fun y => ℓ.fn p.expr y * factors ℓ ps y := by
      funext y
      rw [factors, List.map_cons, List.prod_cons, factors]
    rw [hcons, leibniz]
    exact h.1.mul (ih h.2)

/-- Where no factor is zero, Leibniz's rule adds up the slopes in proportion to their factors. -/
theorem leibniz_eq_sum (h : factors ℓ ps x ≠ 0) :
    leibniz ℓ x ps = factors ℓ ps x * (ps.map fun p => ℓ.fn p.slope x * (ℓ.fn p.expr x)⁻¹).sum := by
  induction ps with
  | nil => simp [leibniz]
  | cons p ps ih =>
    have hcons : factors ℓ (p :: ps) x = ℓ.fn p.expr x * factors ℓ ps x := by
      rw [factors, List.map_cons, List.prod_cons, factors]
    rw [hcons] at h ⊢
    obtain ⟨hp, hps⟩ := mul_ne_zero_iff.mp h
    rw [leibniz, ih hps, List.map_cons, List.sum_cons]
    field_simp

end Lists

end SymbolicAlgebra.Derivative
