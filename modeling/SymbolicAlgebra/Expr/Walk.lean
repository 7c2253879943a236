import SymbolicAlgebra.Expr.Traversal

/-!
# Walks

The nodes of an expression one at a time, children first. What is still to come is kept on a stack,
and beside it the node that was visited last, so that a walk can be left and taken up again, and
needs no nesting however deep the expression is. The levels are counted with a stack as well.

Equal expressions can stand at several places, so a walk goes through occurrences, which are told
apart by their places.
-/

namespace SymbolicAlgebra.Expr

variable {α : Type}

/-- An expression at its place in another one. The place is the way up to the root: its first number
is that of the expression among the children of the one right above it. -/
structure Occurrence (α : Type) where
  place : List Nat
  expr : Expr α

namespace Occurrence

/-- An expression in itself. -/
def root (e : Expr α) : Occurrence α := ⟨[], e⟩

/-- The occurrences right below, from left to right. -/
def children (o : Occurrence α) : List (Occurrence α) :=
  o.expr.children.zipIdx.map fun (e, i) => ⟨i :: o.place, e⟩

/-- The turn of the occurrence has come when `last?` was visited last: there is nothing below it, or
its last child stands at the place of `last?`. -/
def isNext (last? : Option (Occurrence α)) (o : Occurrence α) : Bool :=
  match o.children.getLast? with
  | none => true
  | some child => last?.any (·.place == child.place)

/-- The occurrences right below are those of the children. -/
theorem map_expr_children (o : Occurrence α) : o.children.map expr = o.expr.children := by
  rw [children, List.map_map]
  exact List.zipIdx_map_fst 0 o.expr.children

/-- Beside the occurrence itself its nodes are those of the occurrences right below. -/
theorem size_eq (o : Occurrence α) : o.expr.size = sizeList (o.children.map expr) + 1 := by
  rw [size_eq_sizeList_children, map_expr_children]

/-- An occurrence whose turn has not come has something below it. -/
theorem children_ne_nil {last? : Option (Occurrence α)} {o : Occurrence α}
    (h : o.isNext last? = false) : o.children ≠ [] := by
  intro hleaf
  rw [isNext, hleaf] at h
  cases h

end Occurrence

/-- A walk under way: a stack of occurrences, of which the first is visited next after everything
below it, and the occurrence that was visited last. -/
structure Walk (α : Type) where
  stack : List (Occurrence α)
  last? : Option (Occurrence α)

namespace Walk

/-- The walk through an expression. -/
def ofExpr (e : Expr α) : Walk α := ⟨[.root e], none⟩

/-- The next node, and the walk after it. -/
def next? : Walk α → Option (Occurrence α × Walk α)
  | ⟨[], _⟩ => none
  | ⟨o :: stack, last?⟩ =>
    if o.isNext last? then some (o, ⟨stack, some o⟩)
    else next? ⟨o.children ++ o :: stack, last?⟩
termination_by walk => (walk.stack.head?.map (·.expr.size)).getD 0
decreasing_by
  rename_i hturn
  have hsize := o.size_eq
  cases hchildren : o.children with
  | nil => exact absurd hchildren (Occurrence.children_ne_nil (Bool.eq_false_iff.mpr hturn))
  | cons child rest =>
    rw [hchildren] at hsize
    simp only [List.map_cons, sizeList] at hsize
    simp only [List.cons_append, List.head?_cons, Option.map_some, Option.getD_some]
    omega

/-- A bound on the number of visits that are left: an occurrence whose turn has come when everything
above it on the stack has been visited is visited alone, any other with all nodes below it. -/
def bound : List (Occurrence α) → Option (Occurrence α) → Nat
  | [], _ => 0
  | o :: stack, last? => (if o.isNext last? then 1 else o.expr.size) + bound stack (some o)

/-- Of a list that is visited the last occurrence is visited last, and of an empty one what was visited
before. -/
theorem getLast?_cons_or (o : Occurrence α) (os : List (Occurrence α))
    (last? : Option (Occurrence α)) : (o :: os).getLast?.or last? = os.getLast?.or (some o) := by
  rw [List.getLast?_cons]
  cases os.getLast? <;> rfl

/-- Visiting a list of occurrences takes at most as many visits as they have nodes. -/
theorem bound_append (os stack : List (Occurrence α)) (last? : Option (Occurrence α)) :
    bound (os ++ stack) last? ≤
      sizeList (os.map Occurrence.expr) + bound stack (os.getLast?.or last?) := by
  induction os generalizing last? with
  | nil => simp [sizeList]
  | cons o os ih =>
    have hsize := o.size_eq
    have hrest := ih (some o)
    simp only [List.cons_append, bound, List.map_cons, sizeList, getLast?_cons_or]
    split <;> omega

/-- Once its last child has been visited the turn of an occurrence has come. -/
theorem isNext_getLast? {o : Occurrence α} {last? : Option (Occurrence α)}
    (h : o.isNext last? = false) : o.isNext (o.children.getLast?.or last?) = true := by
  cases hlast : o.children.getLast? with
  | none => exact absurd (List.getLast?_eq_none_iff.mp hlast) (Occurrence.children_ne_nil h)
  | some child => simp [Occurrence.isNext, hlast]

/-- A step leaves less to do. -/
theorem bound_lt_of_next? {walk after : Walk α} {o : Occurrence α}
    (h : next? walk = some (o, after)) :
    bound after.stack after.last? < bound walk.stack walk.last? := by
  fun_induction next? walk with
  | case1 => cases h
  | case2 o stack last? hturn =>
    cases h
    simp only [bound, hturn, if_true]
    omega
  | case3 o stack last? hturn ih =>
    have hsize := o.size_eq
    have hchildren := bound_append o.children (o :: stack) last?
    have hless := ih h
    rw [Bool.not_eq_true] at hturn
    simp only [bound, isNext_getLast? hturn, if_true] at hchildren
    simp only [bound, hturn, Bool.false_eq_true, if_false] at hless ⊢
    omega

/-- The occurrences that are still to come. -/
def occurrences (walk : Walk α) : List (Occurrence α) :=
  match _h : next? walk with
  | none => []
  | some (o, after) => o :: occurrences after
termination_by bound walk.stack walk.last?
decreasing_by exact bound_lt_of_next? _h

/-- The nodes that are still to come. -/
def toList (walk : Walk α) : List (Expr α) := walk.occurrences.map Occurrence.expr

end Walk

/-- The number of nodes, by a walk through them. -/
def countNodes (e : Expr α) : Nat := (Walk.ofExpr e).toList.length

/-- The deepest level among those in `stack`, where each expression stands with its level, the levels
below them, and `found`. -/
def deepest (found : Nat) : List (Expr α × Nat) → Nat
  | [] => found
  | (e, level) :: stack =>
    deepest (max found level) ((e.children.map (·, level + 1)).reverse ++ stack)
termination_by stack => sizeList (stack.map Prod.fst)
decreasing_by
  have hsize := size_eq_sizeList_children e
  have hreverse (es : List (Expr α)) : sizeList es.reverse = sizeList es := by
    induction es with
    | nil => rfl
    | cons e es ih =>
      rw [List.reverse_cons, sizeList_append, ih]
      simp only [sizeList]
      omega
  simp only [List.map_append, List.map_reverse, List.map_map, sizeList_append, hreverse, List.map_cons,
    sizeList, Function.comp_def, List.map_id']
  omega

/-- The number of levels, by a stack of the expressions that are still to be looked into. -/
def countLevels (e : Expr α) : Nat := deepest 0 [(e, 1)]

end SymbolicAlgebra.Expr
