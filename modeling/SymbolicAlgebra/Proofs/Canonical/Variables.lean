import SymbolicAlgebra.Proofs.Canonical.Idempotent
import SymbolicAlgebra.Proofs.Derivative.Products
import SymbolicAlgebra.Proofs.Exact.Canonical

/-!
# Variables of canonical forms

Neither canonical forms nor derivatives have variables that their expressions do not have, and the same
holds of all clauses of their exclusions. Only a variable without a value keeps an expression from being
evaluated, so where an expression can be, all that is made of it can be too.
-/

namespace SymbolicAlgebra

variable {α : Type} [Scalar α] {limits : Limits} {p : String → Prop}

namespace Canonical

/-- All variables of a canonical form and of the clauses of its exclusions are of a kind. -/
structure VariablesIn (p : String → Prop) (k : Canonical α) : Prop where
  expr : k.expr.VariablesIn p
  exclusions : k.exclusions.ForallClauses fun c => c.operand.VariablesIn p

/-- A canonical form and its exclusions have no other variables than an expression, and they can be
evaluated wherever the expression can. -/
structure Confined (k : Canonical α) (e : Expr α) : Prop where
  names : ∀ name ∈ k.expr.variableNames, name ∈ e.variableNames
  operands : ∀ group ∈ k.exclusions.groups, ∀ c ∈ group,
    ∀ name ∈ c.operand.variableNames, name ∈ e.variableNames
  value : ∀ b v, e.value b = .ok v → ∃ w, k.expr.value b = .ok w
  excludes : ∀ b v, e.value b = .ok v → ∃ r, k.exclusions.excludes b = .ok r
  valueOutside : ∀ b v, e.value b = .ok v → ∃ w, k.exclusions.valueOutside k.expr b = .ok w

/-- What has only variables of an expression can be evaluated wherever the expression can. -/
theorem confined_of_variablesIn {k : Canonical α} {e : Expr α}
    (h : ∀ p, e.VariablesIn p → k.VariablesIn p) : k.Confined e := by
  have hnames := h (· ∈ e.variableNames) (Expr.variablesIn_iff.mpr fun _ hname => hname)
  have hvalue (b : Bindings α) (v : α) (hv : e.value b = .ok v) :
      ∃ w, k.expr.value b = .ok w :=
    Expr.exists_value k.expr (h _ (Expr.variablesIn_of_value hv)).expr
  have hexcludes (b : Bindings α) (v : α) (hv : e.value b = .ok v) :
      ∃ r, k.exclusions.excludes b = .ok r :=
    Exclusions.exists_excludes fun group hgroup c hc => Clause.exists_holds
      ((h _ (Expr.variablesIn_of_value hv)).exclusions group hgroup c hc)
  refine ⟨Expr.variablesIn_iff.mp hnames.expr, fun group hgroup c hc =>
    Expr.variablesIn_iff.mp (hnames.exclusions group hgroup c hc), hvalue, hexcludes, ?_⟩
  intro b v hv
  obtain ⟨w, hw⟩ := hvalue b v hv
  obtain ⟨r, hr⟩ := hexcludes b v hv
  rw [Exclusions.valueOutside, hr]
  cases r with
  | true => exact ⟨Scalar.nan, rfl⟩
  | false => exact ⟨w, hw⟩

end Canonical

namespace Expr

variable {e : Expr α} {k : Canonical α}

/-- Canonicalizing an expression brings in no variables. -/
theorem variablesIn_canonicalize (h : e.canonicalize limits = .ok k) (he : e.VariablesIn p) :
    k.VariablesIn p := by
  obtain ⟨found, hfound, hvalue, htidy⟩ := settle_of_canonicalize h
  obtain ⟨stages, hstages, hrun⟩ := Reduction.settling_of_settle hfound
  rw [hvalue] at hrun
  have hvariables : ∀ x ∈ found.stages, x.VariablesIn p := by
    rw [hstages, List.forall_mem_cons]
    exact ⟨he, variablesIn_settling hrun he⟩
  have hclauses : (collectAll found.stages).ForallClauses fun c =>
      ∀ c', c.tidy limits = .ok c' → c'.operand.VariablesIn p := by
    refine .collectAll fun stage hstage x hx group hgroup c hc c' hc' => ?_
    have hnode := (hvariables stage hstage).node hx
    exact Clause.variablesIn_tidy hc' (Clause.variablesIn_groupsOf hnode group hgroup c hc)
  exact ⟨variablesIn_settling hrun he _ hrun.last_mem, hclauses.tidy htidy⟩

/-- The kind of the variables is inherited by derivatives. -/
theorem inherited_variablesIn : Derivative.Inherited (fun _ => True) (VariablesIn p : Expr α → Prop) where
  toHereditary := hereditary_variablesIn
  euler := everywhere_of_leaf rfl trivial
  allProducts _ hn hd := variablesIn_product.mpr ⟨hn, hd⟩

/-- Differentiating an expression brings in no variables. -/
theorem variablesIn_differentiate {name : String} (h : e.differentiate limits name = .ok k)
    (he : e.VariablesIn p) : k.VariablesIn p := by
  rw [differentiate] at h
  obtain ⟨canonical, hcanonical, h⟩ := Reduction.ok_of_bind h
  obtain ⟨slope, hslope, h⟩ := Reduction.ok_of_bind h
  cases h
  have hvariables := variablesIn_canonicalize hcanonical he
  have hderivative := inherited_variablesIn.derivative name hvariables.expr
  have hslope := variablesIn_canonicalize hslope hderivative
  exact ⟨hslope.expr, hvariables.exclusions.insertAll hslope.exclusions⟩

/-- The canonical form and the derivative of an expression, with their exclusions, have no variables
that the expression does not have, and they can be evaluated wherever the expression can. -/
theorem canonicalize_and_differentiate_confined (limits : Limits) (name : String) (e : Expr α) :
    (∀ k, e.canonicalize limits = .ok k → k.Confined e) ∧
      ∀ s, e.differentiate limits name = .ok s → s.Confined e :=
  ⟨fun _ h => Canonical.confined_of_variablesIn fun _ => variablesIn_canonicalize h,
    fun _ h => Canonical.confined_of_variablesIn fun _ => variablesIn_differentiate h⟩

/-- A variable divided by itself is one and its derivative zero where the variable is not zero, which
can be found out wherever the variable has a value. -/
theorem canonicalize_and_differentiate_confined_quotient :
    let e : Expr Exact := dividedBy (var "x") (var "x")
    let pole : Clause Exact := .plain (var "x") .eq Scalar.zero
    ∃ k s, e.canonicalize {} = .ok k ∧ e.differentiate {} "x" = .ok s ∧
      (k.expr = one ∧ k.exclusions.groups = [[pole]] ∧ k.Confined e) ∧
      s.expr = zero ∧ s.exclusions.groups = [[pole]] ∧ s.Confined e := by
  intro e pole
  obtain ⟨steps, hk⟩ := canonicalize_quotient
  have hround : Reduction.Round (zero : Expr Exact) zero zero zero :=
    ⟨⟨_, rfl, rfl⟩, ⟨_, rfl, rfl⟩, ⟨_, rfl, rfl⟩⟩
  obtain ⟨slopeSteps, hsettle⟩ : ∃ steps, Reduction.settle {} (zero : Expr Exact) =
      .ok ⟨zero, [zero, zero, zero, zero], steps⟩ := hround.settle_self rfl (by decide)
  have hslope : (zero : Expr Exact).canonicalize {} = .ok ⟨zero, .empty, slopeSteps⟩ :=
    canonicalize_of_settle hsettle rfl
  have hs : e.differentiate {} "x" =
      .ok ⟨zero, Exclusions.extend ⟨[[pole]]⟩ .empty, steps ++ slopeSteps⟩ := by
    have hderivative : (one : Expr Exact).derivative "x" = zero := by
      rw [one, real, derivative, if_neg (by simp [dependsOn, postOrder, postOrderOnto, isVar])]
    rw [differentiate, hk]
    change ((one : Expr Exact).derivative "x").canonicalize {} >>= _ = _
    rw [hderivative, hslope]
    rfl
  obtain ⟨canonical, derivative⟩ := canonicalize_and_differentiate_confined {} "x" e
  exact ⟨_, _, hk, hs, ⟨rfl, rfl, canonical _ hk⟩, rfl, rfl, derivative _ hs⟩

end Expr

end SymbolicAlgebra
