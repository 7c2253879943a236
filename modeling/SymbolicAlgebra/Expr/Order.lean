import SymbolicAlgebra.Expr.Basic

/-!
# The order of expressions

Expressions are ordered by kind, and within a kind by their parts from left to right. The factors
of a sum or a product are sorted by it, and two expressions count as equal when neither comes
before the other.
-/

namespace SymbolicAlgebra.Expr

variable {α : Type} [Scalar α]

mutual

/-- The order of two expressions. -/
def order : Expr α → Expr α → Ordering
  | sum as, sum bs => orderList as bs
  | product c n d, product c₂ n₂ d₂ =>
    ((orderList n n₂).then (orderList d d₂)).then (c.order c₂)
  | power a b, power a₂ b₂ => (order a a₂).then (order b b₂)
  | log a b, log a₂ b₂ => (order a a₂).then (order b b₂)
  | trig f a, trig f₂ a₂ => (compare f.rank f₂.rank).then (order a a₂)
  | var x, var y => compare x y
  | number a, number b => a.order b
  | a, b => compare a.rank b.rank

/-- Lists are ordered by the first place where they differ; a list comes after its own starts. -/
def orderList : List (Expr α) → List (Expr α) → Ordering
  | [], [] => .eq
  | [], _ :: _ => .lt
  | _ :: _, [] => .gt
  | a :: as, b :: bs => (order a b).then (orderList as bs)

end

instance : BEq (Expr α) where
  beq a b := a.order b == .eq

/-- The expressions of a list in their order; those that are equal keep their places. -/
def sort (es : List (Expr α)) : List (Expr α) := es.mergeSort fun a b => a.order b != .gt

/-- Sorting neither adds nor drops an expression. -/
theorem sort_perm (es : List (Expr α)) : (sort es).Perm es := List.mergeSort_perm es _

end SymbolicAlgebra.Expr
