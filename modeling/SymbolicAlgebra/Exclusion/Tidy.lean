import SymbolicAlgebra.Exclusion.Test
import SymbolicAlgebra.Reduction.Canonical

/-!
# Tidying exclusions

The operands of clauses are brought into canonical form. A factor or an exponent that does not
decide whether an operand is zero is dropped, and so is every clause that always holds and every
group with a clause that never does.
-/

namespace SymbolicAlgebra

variable {α : Type} [Scalar α]

namespace Clause

/-- The clause asks whether its operand is zero. -/
def testsZero (c : Clause α) : Bool :=
  c.modulus.isNone && c.threshold.order (.literal Scalar.zero) == .eq &&
    (c.comparator == .eq || c.comparator == .ne)

/-- The expression is a positive literal. -/
def isPositive (e : Expr α) : Bool :=
  match e.real? with
  | some v => Scalar.lt Scalar.zero v
  | none => false

mutual

/-- The part of an expression that decides whether it is zero: the base of a power with a positive
literal as exponent, or the only factor of a product. -/
def zeroCore : Expr α → Expr α
  | .power base exponent => if isPositive exponent then zeroCore base else .power base exponent
  | .product c numerator denominator =>
    match soleCore numerator denominator with
    | some e => e
    | none => .product c numerator denominator
  | e => e

/-- That part of the only factor, if there is just one above the line and none below. -/
def soleCore : List (Expr α) → List (Expr α) → Option (Expr α)
  | [e], [] => some (zeroCore e)
  | _, _ => none

end

/-- The clause with its operand in canonical form, reduced to what decides whether it is zero if
that is asked. -/
def tidy (limits : Limits) (c : Clause α) : Except Failure (Clause α) := do
  let operand ← Reduction.canonicalForm limits c.operand
  return { c with operand := if c.testsZero then zeroCore operand else operand }

end Clause

namespace Exclusions

/-- The clauses of a group that do not hold everywhere, or none if one holds nowhere. -/
def tidyGroup (limits : Limits) : List (Clause α) → Except Failure (Option (List (Clause α)))
  | [] => .ok (some [])
  | c :: cs => do
    let c ← c.tidy limits
    match c.constantTruth? with
    | some false => return none
    | some true => tidyGroup limits cs
    | none => return (← tidyGroup limits cs).map (c :: ·)

/-- The groups of a list that can hold, with what is left of their clauses. -/
def tidyGroups (limits : Limits) :
    List (List (Clause α)) → Except Failure (List (List (Clause α)))
  | [] => .ok []
  | group :: groups => do
    let kept ← tidyGroup limits group
    let rest ← tidyGroups limits groups
    return kept.toList ++ rest

/-- The exclusions in canonical form. -/
def tidy (limits : Limits) (x : Exclusions α) : Except Failure (Exclusions α) := do
  return empty.insertAll (← tidyGroups limits x.groups)

end Exclusions

end SymbolicAlgebra
