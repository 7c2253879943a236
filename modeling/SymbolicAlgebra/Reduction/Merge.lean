import SymbolicAlgebra.Reduction.Simplify

/-!
# Combining like terms and like factors

The pass that combines, at every node from the leaves up, the addends of a sum that scale the same
and the factors on one side of a fraction line that are powers of the same base.
-/

namespace SymbolicAlgebra.Reduction

variable {α : Type} [Scalar α]

/-- Adds a factor's exponent to those of its base, or else starts with it a new base at the end. -/
def addExponent (base exponent : Expr α) :
    List (Expr α × List (Expr α)) → List (Expr α × List (Expr α))
  | [] => [(base, [exponent])]
  | (base₀, exponents) :: groups =>
    if base₀ == base then (base₀, exponents ++ [exponent]) :: groups
    else (base₀, exponents) :: addExponent base exponent groups

/-- The bases of factors, each with all its exponents. -/
def likeFactors (factors : List (Expr α)) : List (Expr α × List (Expr α)) :=
  factors.foldl (fun groups e => addExponent e.powerParts.1 e.powerParts.2 groups) []

/-- The power of a base to the sum of its exponents. -/
def gatherPower (fuel : Nat) (base : Expr α) : List (Expr α) → Reducing (Expr α)
  | [exponent] => pure (if exponent.isReal Scalar.one then base else .power base exponent)
  | exponents => do powerRule fuel base (← sumRule exponents)

/-- Combines the factors that are powers of the same base. -/
def mergeFactors (fuel : Nat) (factors : List (Expr α)) : Reducing (List (Expr α)) := do
  let groups := likeFactors factors
  Traced.noteIf (groups.length < factors.length) .combineLikeFactors
  Reducing.mapList (fun (base, exponents) => gatherPower fuel base exponents) groups

mutual

/-- Combines like terms and like factors at every node, from the leaves up. -/
def merge (fuel : Nat) : Expr α → Reducing (Expr α)
  | .sum addends => do
    let merged ← mergeAddends (← mergeList fuel addends)
    return .sum merged
  | .product c numerator denominator => do
    let numerator ← mergeList fuel numerator
    let denominator ← mergeList fuel denominator
    let numerator ← mergeFactors fuel numerator
    let denominator ← mergeFactors fuel denominator
    return .product c numerator denominator
  | .power base exponent => do
    let base ← merge fuel base
    let exponent ← merge fuel exponent
    return .power base exponent
  | .log base body => do
    let base ← merge fuel base
    let body ← merge fuel body
    return .log base body
  | .trig function body => do
    return .trig function (← merge fuel body)
  | .var name => pure (.var name)
  | .number n => pure (.number n)

/-- Combines like terms and like factors at every node of the expressions of a list. -/
def mergeList (fuel : Nat) : List (Expr α) → Reducing (List (Expr α))
  | [] => pure []
  | e :: es => do
    let e ← merge fuel e
    let es ← mergeList fuel es
    return e :: es

end

end SymbolicAlgebra.Reduction
