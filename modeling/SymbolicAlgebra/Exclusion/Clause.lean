import SymbolicAlgebra.Expr.Order
import SymbolicAlgebra.Expr.Printer

/-!
# Clauses

Conditions on the value of an expression: it is compared with a number, as it is or by its
remainder after division by another number.
-/

namespace SymbolicAlgebra

/-- The comparisons that a clause can make. -/
inductive Comparator where
  | eq
  | ne
  | lt
  | le
deriving DecidableEq, Repr

namespace Comparator

/-- The sign of a comparison. -/
def text : Comparator → String
  | eq => "=="
  | ne => "!="
  | lt => "<"
  | le => "<="

/-- The place of a comparison in the order. -/
def rank : Comparator → Nat
  | eq => 0
  | ne => 1
  | lt => 2
  | le => 3

end Comparator

/-- The condition `operand [mod modulus] comparator threshold`. -/
structure Clause (α : Type) where
  operand : Expr α
  modulus : Option (Number α)
  comparator : Comparator
  threshold : Number α

namespace Clause

variable {α : Type} [Scalar α]

/-- The comparison of an expression with a literal. -/
def plain (operand : Expr α) (comparator : Comparator) (threshold : α) : Clause α :=
  ⟨operand, none, comparator, .literal threshold⟩

/-- The comparison of a remainder with a literal. -/
def modulo (operand : Expr α) (modulus : Number α) (comparator : Comparator) (threshold : α) :
    Clause α :=
  ⟨operand, some modulus, comparator, .literal threshold⟩

/-- A missing modulus comes before any other. -/
def modulusOrder : Option (Number α) → Option (Number α) → Ordering
  | none, none => .eq
  | none, some _ => .lt
  | some _, none => .gt
  | some a, some b => a.order b

/-- Clauses are ordered by operand, modulus, comparison and threshold. -/
def order (a b : Clause α) : Ordering :=
  (((a.operand.order b.operand).then (modulusOrder a.modulus b.modulus)).then
    (compare a.comparator.rank b.comparator.rank)).then (a.threshold.order b.threshold)

instance : BEq (Clause α) where
  beq a b := a.order b == .eq

/-- A remainder this close to the threshold counts as equal to it. -/
def modulusTolerance : α := Scalar.ofDecimal ⟨1, -9⟩

/-- A remainder is within the tolerance of the threshold, from either end of the modulus. -/
def meetsThreshold (remainder modulus threshold : α) : Bool :=
  Scalar.lt (Scalar.abs (remainder - threshold)) modulusTolerance ||
    Scalar.lt (Scalar.abs (remainder - modulus - threshold)) modulusTolerance

/-- The condition on the value of the operand; where there is no value it does not hold. -/
def test (c : Clause α) (value : α) : Bool :=
  let threshold := c.threshold.value
  if Scalar.isNaN value then false
  else
    match c.modulus with
    | some modulus =>
      let remainder := Scalar.emod value modulus.value
      match c.comparator with
      | .eq => meetsThreshold remainder modulus.value threshold
      | .ne => !meetsThreshold remainder modulus.value threshold
      | .lt => Scalar.lt remainder threshold
      | .le => Scalar.le remainder threshold
    | none =>
      match c.comparator with
      | .eq => Scalar.eq value threshold
      | .ne => !Scalar.eq value threshold
      | .lt => Scalar.lt value threshold
      | .le => Scalar.le value threshold

/-- The expression needs parentheses before `mod`. -/
def needsParentheses : Expr α → Bool
  | .sum _ => true
  | .product .. => true
  | _ => false

/-- The text of a clause. -/
def text (c : Clause α) : String :=
  let operand :=
    match c.modulus with
    | some modulus =>
      Expr.wrapped (needsParentheses c.operand) c.operand.text ++ " mod " ++ modulus.text
    | none => c.operand.text
  operand ++ " " ++ c.comparator.text ++ " " ++ c.threshold.text

end Clause

end SymbolicAlgebra
