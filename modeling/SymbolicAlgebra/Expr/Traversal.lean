import SymbolicAlgebra.Expr.Basic

/-!
# Walking expressions

The nodes of an expression, the children of each before itself and from left to right, and what is
counted or collected along the way. A product shows its numerator before its denominator.
-/

namespace SymbolicAlgebra.Expr

variable {α : Type}

/-- The expressions right below the root, from left to right. -/
def children : Expr α → List (Expr α)
  | sum as => as
  | product _ n d => n ++ d
  | power a b => [a, b]
  | log a b => [a, b]
  | trig _ a => [a]
  | var _ => []
  | number _ => []

mutual

/-- The nodes of an expression, children first, before `rest`. -/
def postOrderOnto (rest : List (Expr α)) : Expr α → List (Expr α)
  | sum as => postOrderListOnto (sum as :: rest) as
  | product c n d => postOrderListOnto (postOrderListOnto (product c n d :: rest) d) n
  | power a b => postOrderOnto (postOrderOnto (power a b :: rest) b) a
  | log a b => postOrderOnto (postOrderOnto (log a b :: rest) b) a
  | trig f a => postOrderOnto (trig f a :: rest) a
  | var x => var x :: rest
  | number n => number n :: rest

/-- The nodes of the expressions of a list, children first, before `rest`. -/
def postOrderListOnto (rest : List (Expr α)) : List (Expr α) → List (Expr α)
  | [] => rest
  | e :: es => postOrderOnto (postOrderListOnto rest es) e

end

/-- The nodes of an expression, children first. -/
def postOrder (e : Expr α) : List (Expr α) := postOrderOnto [] e

mutual

/-- The number of nodes. -/
def size : Expr α → Nat
  | sum as => sizeList as + 1
  | product _ n d => sizeList n + sizeList d + 1
  | power a b => size a + size b + 1
  | log a b => size a + size b + 1
  | trig _ a => size a + 1
  | var _ => 1
  | number _ => 1

/-- The number of nodes of all expressions of a list. -/
def sizeList : List (Expr α) → Nat
  | [] => 0
  | e :: es => size e + sizeList es

end

/-- The nodes of two lists in a row are those of the first and those of the second. -/
theorem sizeList_append (es fs : List (Expr α)) :
    sizeList (es ++ fs) = sizeList es + sizeList fs := by
  induction es with
  | nil => simp [sizeList]
  | cons e es ih => simp [sizeList, ih, Nat.add_assoc]

/-- A node counts once, beside the nodes below it. -/
theorem size_eq_sizeList_children (e : Expr α) : e.size = sizeList e.children + 1 := by
  cases e <;> simp [size, sizeList, children, sizeList_append]

mutual

/-- A node list grows by the number of nodes of the expression put before it. -/
theorem length_postOrderOnto (rest : List (Expr α)) (e : Expr α) :
    (postOrderOnto rest e).length = e.size + rest.length := by
  cases e with
  | sum as =>
    rw [postOrderOnto, length_postOrderListOnto, size, List.length_cons]
    omega
  | product c n d =>
    rw [postOrderOnto, length_postOrderListOnto, length_postOrderListOnto, size, List.length_cons]
    omega
  | power a b =>
    rw [postOrderOnto, length_postOrderOnto, length_postOrderOnto, size, List.length_cons]
    omega
  | log a b =>
    rw [postOrderOnto, length_postOrderOnto, length_postOrderOnto, size, List.length_cons]
    omega
  | trig f a =>
    rw [postOrderOnto, length_postOrderOnto, size, List.length_cons]
    omega
  | var x => simp [postOrderOnto, size, Nat.add_comm]
  | number n => simp [postOrderOnto, size, Nat.add_comm]

/-- A node list grows by the number of nodes of the expressions put before it. -/
theorem length_postOrderListOnto (rest es : List (Expr α)) :
    (postOrderListOnto rest es).length = sizeList es + rest.length := by
  cases es with
  | nil => simp [postOrderListOnto, sizeList]
  | cons e es =>
    rw [postOrderListOnto, length_postOrderOnto, length_postOrderListOnto, sizeList]
    omega

end

/-- Every node is listed once. -/
theorem length_postOrder (e : Expr α) : e.postOrder.length = e.size := by
  simp [postOrder, length_postOrderOnto]

mutual

/-- The number of levels; a leaf has one. -/
def depth : Expr α → Nat
  | sum as => depthList as + 1
  | product _ n d => max (depthList n) (depthList d) + 1
  | power a b => max (depth a) (depth b) + 1
  | log a b => max (depth a) (depth b) + 1
  | trig _ a => depth a + 1
  | var _ => 1
  | number _ => 1

/-- The number of levels of the deepest expression of a list. -/
def depthList : List (Expr α) → Nat
  | [] => 0
  | e :: es => max (depth e) (depthList es)

end

/-- The expression is the given variable. -/
def isVar (name : String) : Expr α → Bool
  | var x => x == name
  | _ => false

/-- The variable occurs in the expression. -/
def dependsOn (name : String) (e : Expr α) : Bool := e.postOrder.any (isVar name)

/-- The names of the variables in the expression, sorted and without repeats. -/
def variableNames (e : Expr α) : List String :=
  let names := e.postOrder.filterMap fun
    | var x => some x
    | _ => none
  (names.mergeSort fun a b => decide (a ≤ b)).eraseReps

end SymbolicAlgebra.Expr
