import SymbolicAlgebra.Derivative.Basic
import SymbolicAlgebra.Exclusion.Tidy

/-!
# Canonical expressions

An expression in canonical form together with the points where the expression that it was made
from has no value. Cancelling may define an expression at more points, so the exclusions are
collected from every expression on the way.
-/

namespace SymbolicAlgebra

variable {α : Type} [Scalar α]

/-- A canonical form, the points that it does not hold for, and the steps that led to it. -/
structure Canonical (α : Type) where
  expr : Expr α
  exclusions : Exclusions α
  steps : List Step

namespace Expr

/-- What the expressions of a list exclude, all together. -/
def collectAll (stages : List (Expr α)) : Exclusions α :=
  stages.foldl (fun x e => x.extend (.collect e)) .empty

/-- The canonical form of an expression, with its exclusions and the steps that led to it. -/
def canonicalize (limits : Limits) (e : Expr α) : Except Failure (Canonical α) := do
  let settled ← Reduction.settle limits e
  let exclusions ← (collectAll settled.stages).tidy limits
  return ⟨settled.value, exclusions, settled.steps⟩

/-- The canonical form of the derivative of a canonical form, with the exclusions of both. -/
def differentiate (limits : Limits) (name : String) (e : Expr α) :
    Except Failure (Canonical α) := do
  let canonical ← canonicalize limits e
  let slope ← canonicalize limits (canonical.expr.derivative name)
  return ⟨slope.expr, canonical.exclusions.extend slope.exclusions,
    canonical.steps ++ slope.steps⟩

end Expr

end SymbolicAlgebra
