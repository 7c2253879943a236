import SymbolicAlgebra.Exclusion.Clause
import SymbolicAlgebra.Expr.Traversal

/-!
# Exclusions

The points where an expression has no value, as a list of groups of clauses: a point is excluded
if all clauses of one group hold there. A group without clauses holds everywhere. The clauses of a
group are sorted and none of them, and no group, occurs twice.
-/

namespace SymbolicAlgebra

/-- Groups of clauses, of which one must hold as a whole. -/
structure Exclusions (α : Type) where
  groups : List (List (Clause α))

namespace Exclusions

variable {α : Type} [Scalar α]

/-- The exclusions without groups, which exclude nothing. -/
def empty : Exclusions α := ⟨[]⟩

/-- There are no groups. -/
def isEmpty (x : Exclusions α) : Bool := x.groups.isEmpty

/-- Some group holds everywhere. -/
def coversAll (x : Exclusions α) : Bool := x.groups.any List.isEmpty

/-- Drops each clause that is equal to the one before it. -/
def dropRepeats : List (Clause α) → List (Clause α)
  | [] => []
  | c :: cs =>
    match dropRepeats cs with
    | [] => [c]
    | d :: ds => if c == d then c :: ds else c :: d :: ds

/-- The clauses of a group in their order, each of them once. -/
def normalGroup (group : List (Clause α)) : List (Clause α) :=
  dropRepeats (group.mergeSort fun a b => a.order b != .gt)

/-- Adds a group, unless there is an equal one. -/
def insert (group : List (Clause α)) (x : Exclusions α) : Exclusions α :=
  let group := normalGroup group
  if x.groups.contains group then x else ⟨x.groups ++ [group]⟩

/-- Adds all groups of a list. -/
def insertAll (groups : List (List (Clause α))) (x : Exclusions α) : Exclusions α :=
  groups.foldl (fun x group => x.insert group) x

/-- What is excluded by one or the other. -/
def extend (x y : Exclusions α) : Exclusions α := x.insertAll y.groups

/-- The poles of the tangent of a body: it is half of `pi` off a multiple of `pi`. -/
def tangentPoles (body : Expr α) : Clause α :=
  let halfPi := Expr.product (.ofFraction (Scalar.ofInt (-1)) (Scalar.ofInt 2)) [.constant .pi] []
  .modulo (body.plus halfPi) (.constant .pi) .eq Scalar.zero

/-- The groups that a node contributes, whatever is below it: no divisor is zero, no negative base
has a fraction as exponent, the base of a logarithm is positive and not one and its body is
positive, and the argument of a tangent is not one of its poles. -/
def groupsOf : Expr α → List (List (Clause α))
  | .product _ _ denominator => denominator.map fun e => [.plain e .eq Scalar.zero]
  | .power base exponent =>
    [[.plain base .lt Scalar.zero,
      .modulo exponent (.literal Scalar.one) .ne Scalar.zero]]
  | .log base body =>
    [[.plain base .le Scalar.zero], [.plain base .eq Scalar.one], [.plain body .le Scalar.zero]]
  | .trig .tan body => [[tangentPoles body]]
  | _ => []

/-- The groups that the nodes of an expression contribute, children first. -/
def collect (e : Expr α) : Exclusions α := empty.insertAll (e.postOrder.flatMap groupsOf)

/-- The clauses of a group in words. -/
def groupText (group : List (Clause α)) : String :=
  if group.isEmpty then "everywhere" else " and ".intercalate (group.map Clause.text)

/-- The exclusions in words. -/
def text (x : Exclusions α) : String :=
  if x.groups.isEmpty then "none" else " or ".intercalate (x.groups.map groupText)

end Exclusions

end SymbolicAlgebra
