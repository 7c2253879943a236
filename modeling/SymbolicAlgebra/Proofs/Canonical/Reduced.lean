import SymbolicAlgebra.Proofs.Reduction.NormalForm
import SymbolicAlgebra.Proofs.Reduction.Settling
import SymbolicAlgebra.Proofs.Scalar.Binary64
import SymbolicAlgebra.Proofs.Reduction.Unlike

/-!
# Canonical expressions are fully reduced

The last round of a run ends with an expression that counts as equal to the one it started with. The
two weigh the same, so no pass of the round has taken weight away: each pass gives back what it was
given, and there is nothing left to combine.
-/

namespace SymbolicAlgebra

namespace Reduction

open SymbolicAlgebra.Expr

variable {α : Type} [Scalar α] [Scalar.Unital α]

/-- A round does not add weight. If it takes none away, it ends with an expression that is stable, has
nothing to combine and is given back by every pass. -/
theorem Round.reduced {e first second third : Expr α} (h : Round e first second third) :
    third.weight ≤ e.weight ∧
      (third.weight = e.weight → Stable third ∧ Unlike third ∧ Round third third third third) := by
  obtain ⟨hfirst, hstable⟩ := stable_closed.simplify_returns h.simplified
  obtain ⟨hsecond, hmerged⟩ := merge_weight h.merged
  obtain ⟨hthird, -⟩ := stable_closed.simplify_returns h.again
  refine ⟨hthird.trans (hsecond.trans hfirst), fun hweight => ?_⟩
  replace hstable := hstable (by omega)
  obtain ⟨rfl, hunlike⟩ := hmerged hstable (by omega)
  have hsimplified := hstable.simplified_returns
  obtain rfl := hsimplified.unique h.again
  exact ⟨hstable, hunlike, hsimplified, h.merged, hsimplified⟩

/-- What a run settles at is stable and has nothing to combine, and every pass gives it back. -/
theorem Settling.reduced {e last : Expr α} {stages : List (Expr α)}
    (h : Settling e stages last) : Stable last ∧ Unlike last ∧ Round last last last last := by
  induction h with
  | next _ _ ih => exact ih
  | last round hsame => exact round.reduced.2 (weight_eq_of_beq hsame)

/-- A sum has two addends at least, and they scale different expressions. A product has a factor, is
not a single factor with the coefficient one, and on each side of its fraction line the factors are
powers of different bases. -/
def ReducedNode : Expr α → Prop
  | .sum as => 2 ≤ as.length ∧ UnlikeTerms as
  | .product c n d =>
    ¬ (n = [] ∧ d = []) ∧ (∀ e, n = [e] → d = [] → c.isOne = false) ∧
      UnlikeFactors n ∧ UnlikeFactors d
  | _ => True

/-- Stable expressions without anything to combine are reduced at every node. -/
theorem reduced_of_stable {e : Expr α} (hstable : Stable e) (hunlike : Unlike e) :
    e.Everywhere ReducedNode := by
  intro x hx
  have hnode := hstable.node hx
  have hcombined := hunlike x hx
  cases x with
  | sum as => exact ⟨two_le_length_of_stable hnode, hcombined⟩
  | product c n d =>
    obtain ⟨shape, -⟩ := stable_product.mp hnode
    exact ⟨shape.nonempty, shape.scaled, hcombined⟩
  | _ => trivial

end Reduction

namespace Expr

/-- One and one is two. -/
theorem one_add_one :
    (Coefficient.one + Coefficient.one : Coefficient Float) = ⟨Scalar.ofInt 2, Scalar.one⟩ := by
  have hnumer : (Coefficient.one + Coefficient.one : Coefficient Float).numer = Scalar.ofInt 2 := by
    decide +kernel
  have hdenom : (Coefficient.one + Coefficient.one : Coefficient Float).denom = Scalar.one := by
    decide +kernel
  exact Coefficient.eq_mk hnumer hdenom

/-- Either pass gives back a canonical expression: simplifying it and combining its like parts both
result in an expression that counts as equal to it. No two addends of a sum in it scale the same, no
two factors on one side of a product have the same base, and no sum or product is empty or could be
collapsed. -/
theorem canonical_reduced {limits : Limits} {e : Expr Float} {k : Canonical Float}
    (h : e.canonicalize limits = .ok k) :
    (∃ s, (Reduction.simplified k.expr).Returns s ∧ (s == k.expr) = true) ∧
      (∃ m, (Reduction.merged k.expr).Returns m ∧ (m == k.expr) = true) ∧
      k.expr.Everywhere Reduction.ReducedNode := by
  obtain ⟨found, hfound, hvalue, -⟩ := settle_of_canonicalize h
  obtain ⟨stages, -, hrun⟩ := Reduction.settling_of_settle hfound
  rw [hvalue] at hrun
  obtain ⟨hstable, hunlike, round⟩ := hrun.reduced
  exact ⟨⟨_, round.simplified, beq_self _⟩, ⟨_, round.merged, beq_self _⟩,
    Reduction.reduced_of_stable hstable hunlike⟩

open Reduction in
/-- A variable added to itself has twice the variable as its canonical form, which is fully reduced. -/
theorem canonical_reduced_double :
    let e : Expr Float := .sum [.var "x", .var "x"]
    ∃ k, e.canonicalize {} = .ok k ∧ k.expr = .product ⟨Scalar.ofInt 2, Scalar.one⟩ [.var "x"] [] ∧
      ((∃ s, (Reduction.simplified k.expr).Returns s ∧ (s == k.expr) = true) ∧
        (∃ m, (Reduction.merged k.expr).Returns m ∧ (m == k.expr) = true) ∧
        k.expr.Everywhere Reduction.ReducedNode) := by
  intro e
  let p : Expr Float := .product ⟨Scalar.ofInt 2, Scalar.one⟩ [.var "x"] []
  have hsum : Stable e := by
    refine stable_sum.mpr ⟨?_, by simp [stable_var]⟩
    have hterms : sumTerms [.var "x", .var "x"] = ([.var "x", .var "x"] : List (Expr Float)) :=
      if_pos total_nil
    rw [sumRule_value]
    change collapseSum (sort (sumTerms [.var "x", .var "x"])) = e
    rw [hterms, sort_of_sorted (by simp)]
    rfl
  have hp : Stable p := by
    refine stable_product.mpr ⟨?_, by simp [stable_var], by simp⟩
    exact {
      toNormalProduct := (normal_product.mp (normal_scaled rfl ⟨normal_var _, rfl, rfl⟩ rfl)).1
      nonempty := by simp
      scaled := fun _ _ _ => rfl }
  have hmerged : (merged e).Returns (.sum [p]) := by
    have hscaled : ofScaleParts (⟨Scalar.ofInt 2, Scalar.one⟩ : Coefficient Float) (.var "x") = p :=
      rfl
    simp [merged, merge, e, mergeList, mergeAddends, likeTerms, addTerm, scaleParts, beq_self,
      one_add_one, hscaled]
  have hagain : (simplified (.sum [p])).Returns p := by
    have hmembers : List.Forall₂ (fun a b => (simplify (64 * 5 ^ 3 - 1) a).Returns b) [p] [p] :=
      .cons (hp.simplify_returns (by decide)) .nil
    change (simplify (64 * 5 ^ 3 - 1 + 1) (.sum [p])).Returns p
    simp only [simplify, Reducing.returns_bind, Reducing.returns_mapList, Reducing.returns_liftM]
    refine ⟨[p], hmembers, ?_⟩
    have hterms : sumTerms [p] = [p] := if_pos total_nil
    rw [sumRule_value]
    change collapseSum (sort (sumTerms [p])) = p
    rw [hterms, sort_of_sorted (by simp)]
    rfl
  have hround : Round e e (.sum [p]) p := ⟨hsum.simplified_returns, hmerged, hagain⟩
  have hnext : Round p p p p := by
    refine ⟨hp.simplified_returns, ?_, hp.simplified_returns⟩
    simp [merged, merge, mergeList, returns_mergeFactors, likeFactors, addExponent, powerParts,
      gatherPower, isReal_one, p]
  have hsize : ∀ s ∈ [e, e, .sum [p], p], checkSize {} s = .ok () := by
    simp only [List.forall_mem_cons]
    exact ⟨rfl, rfl, rfl, rfl, by simp⟩
  obtain ⟨steps, hsettle⟩ := hround.settle_next hnext rfl hsize (by decide)
  have hcanonical : e.canonicalize {} = .ok ⟨p, .empty, steps⟩ := by
    rw [canonicalize, hsettle]
    rfl
  exact ⟨_, hcanonical, rfl, canonical_reduced hcanonical⟩

end Expr

end SymbolicAlgebra
