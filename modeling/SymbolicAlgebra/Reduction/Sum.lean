import SymbolicAlgebra.Expr.Order
import SymbolicAlgebra.Reduction.Step

/-!
# Rules for sums

Sums within a sum are spliced in, its literals are added up, zeros are dropped and what is left is
sorted. Apart from that, addends that scale the same are combined by adding their coefficients.
-/

namespace SymbolicAlgebra.Reduction

variable {α : Type} [Scalar α]

/-- The sum of literals, from the smallest on. -/
def total (values : List α) : α :=
  (values.mergeSort fun a b => Scalar.order a b != .gt).foldl (· + ·) Scalar.zero

/-- A sum, unless there are too few addends for one. -/
def collapseSum : List (Expr α) → Expr α
  | [] => .zero
  | [e] => e
  | es => .sum es

/-- The sum of addends to which the rules have been applied already. -/
def sumRule (addends : List (Expr α)) : Traced (Expr α) :=
  let flat := addends.flatMap Expr.addends
  let literals := flat.filterMap Expr.real?
  let others := flat.filter fun e => e.real?.isNone
  let kept := others.filter fun e => !e.isZero
  let constant := total literals
  let vanishes := Scalar.eq constant Scalar.zero
  let flattened := (addends.filter Expr.isSum).map fun _ => Step.flattenSum
  let folded := if 1 < literals.length then [Step.foldConstant] else []
  let dropped :=
    if kept.length ≠ others.length || (!literals.isEmpty && vanishes) then [Step.addZero] else []
  let terms := if vanishes then kept else kept ++ [.real constant]
  ⟨collapseSum (Expr.sort terms), flattened ++ folded ++ dropped⟩

/-- Adds a term to the first of the given terms that scales the same, or else to their end. -/
def addTerm (c : Coefficient α) (key : Expr α) :
    List (Coefficient α × Expr α) → List (Coefficient α × Expr α)
  | [] => [(c, key)]
  | (c₀, key₀) :: terms =>
    if key₀ == key then (c₀ + c, key₀) :: terms else (c₀, key₀) :: addTerm c key terms

/-- The terms of addends, with those that scale the same combined. -/
def likeTerms (addends : List (Expr α)) : List (Coefficient α × Expr α) :=
  addends.foldl (fun terms e => addTerm e.scaleParts.1 e.scaleParts.2 terms) []

/-- Combines the addends that scale the same. -/
def mergeAddends (addends : List (Expr α)) : Traced (List (Expr α)) :=
  let terms := likeTerms addends
  ⟨terms.map fun (c, key) => .ofScaleParts c key,
    if terms.length < addends.length then [.combineLikeTerms] else []⟩

end SymbolicAlgebra.Reduction
