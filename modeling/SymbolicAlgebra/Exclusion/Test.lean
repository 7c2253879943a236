import SymbolicAlgebra.Exclusion.Basic
import SymbolicAlgebra.Expr.Value

/-!
# Testing exclusions

Whether a point is excluded, and the value of an expression with respect to exclusions.
-/

namespace SymbolicAlgebra

variable {α : Type} [Scalar α]

namespace Clause

/-- The clause holds where the variables have the given values. -/
def holds (b : Bindings α) (c : Clause α) : Except Failure Bool := do
  return c.test (← c.operand.value b)

/-- Whether the clause holds everywhere or nowhere, if its operand is a number without variables. -/
def constantTruth? (c : Clause α) : Option Bool :=
  if !c.operand.variableNames.isEmpty then none
  else
    match c.operand.value .empty with
    | .error _ => none
    | .ok v => if Scalar.isNaN v then none else some (c.test v)

end Clause

namespace Exclusions

/-- All clauses of a group hold; the first that does not decides. -/
def groupHolds (b : Bindings α) : List (Clause α) → Except Failure Bool
  | [] => .ok true
  | c :: cs => do if ← c.holds b then groupHolds b cs else return false

/-- Some group of a list holds; the first that does decides. -/
def someGroupHolds (b : Bindings α) : List (List (Clause α)) → Except Failure Bool
  | [] => .ok false
  | group :: groups => do if ← groupHolds b group then return true else someGroupHolds b groups

/-- The point is excluded. -/
def excludes (x : Exclusions α) (b : Bindings α) : Except Failure Bool := someGroupHolds b x.groups

/-- The value of an expression; at an excluded point there is none. -/
def valueOutside (x : Exclusions α) (e : Expr α) (b : Bindings α) : Except Failure α := do
  if ← x.excludes b then return Scalar.nan else e.value b

end Exclusions

end SymbolicAlgebra
