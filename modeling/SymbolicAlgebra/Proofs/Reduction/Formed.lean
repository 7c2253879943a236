import SymbolicAlgebra.Proofs.Reduction.Settling
import SymbolicAlgebra.Proofs.Scalar.LowestTerms

/-!
# Well-formed numbers

No constructor makes a literal that is a zero with a sign, or a coefficient that can be reduced or whose
denominator is not positive. The rules make no such numbers either: they take literals and coefficients
from the constructors and never divide by zero.
-/

namespace SymbolicAlgebra.Reduction

open SymbolicAlgebra.Expr

variable {α : Type} [Scalar α]

/-- The number at this node is one that its constructor makes: no literal is a zero with a sign, and a
coefficient is in lowest terms over a positive denominator or over one. -/
def FormedNode : Expr α → Prop
  | .number (.real v) => Scalar.unsignZero v = v
  | .product c _ _ => c.LowestTerms
  | _ => True

/-- A product is well formed if its coefficient and its factors are. -/
theorem formed_product {c : Coefficient α} {n d : List (Expr α)} :
    (product c n d).Everywhere FormedNode ↔
      c.LowestTerms ∧ (∀ x ∈ n, x.Everywhere FormedNode) ∧ ∀ x ∈ d, x.Everywhere FormedNode := by
  rw [everywhere_iff, children, List.forall_mem_append]
  rfl

variable [Scalar.Whole α]

/-- A whole exponent that is not negative is a natural number. -/
theorem wholeExponent?_nonneg {exponent : Expr α} {k : Int} (hneg : exponent.isNegative = false)
    (h : wholeExponent? exponent = some k) : 0 ≤ k := by
  rw [wholeExponent?] at h
  split at h
  · rename_i v hv
    split at h
    · cases h
      cases exponent with
      | number n =>
        cases n with
        | real w =>
          cases hv
          exact Scalar.Whole.toInt_nonneg v hneg
        | constant c => cases hv
      | _ => cases hv
    · cases h
  · cases h

/-- The arithmetic of coefficients keeps them in lowest terms. -/
theorem arithmetic_lowestTerms : Arithmetic (Coefficient.LowestTerms : Coefficient α → Prop) where
  one := .inr rfl
  minusOne := .inr rfl
  ofScalar := Coefficient.lowestTerms_ofScalar
  neg := .neg
  add := .add
  mul := .mul
  div ha _ hb := ha.div hb
  divScalar ha hv := by
    refine ha.div ?_
    rw [Coefficient.ofScalar_eq]
    exact (Scalar.Lawful.eq_unsignZero _).trans hv
  zpow ha hneg hwhole := ha.zpow (wholeExponent?_nonneg hneg hwhole)

/-- Being well formed is hereditary. -/
theorem hereditary_formed :
    Hereditary Coefficient.LowestTerms (Everywhere FormedNode : Expr α → Prop) where
  arithmetic := arithmetic_lowestTerms
  real v := everywhere_of_leaf rfl (Scalar.unsignZero_unsignZero v)
  sum := everywhere_sum trivial
  coefficient h := (formed_product.mp h).1
  factors h := (formed_product.mp h).2
  product hc hn hd :=
    formed_product.mpr ⟨hc, fun x hx => (hn x hx).1, fun x hx => (hd x hx).1⟩
  rescale hc h := formed_product.mpr ⟨hc, (formed_product.mp h).2⟩
  power := everywhere_power trivial
  log := everywhere_log trivial
  trig := everywhere_trig trivial

/-- All stages of a run from a well-formed expression are well formed. -/
theorem formed_settling {e last : Expr α} {stages : List (Expr α)} (h : Settling e stages last)
    (he : e.Everywhere FormedNode) : ∀ x ∈ stages, x.Everywhere FormedNode :=
  hereditary_formed.settling (fun hc hn hd => formed_product.mpr ⟨hc, hn, hd⟩) h he

end SymbolicAlgebra.Reduction
