import SymbolicAlgebra.Failure.Basic
import SymbolicAlgebra.Limits
import SymbolicAlgebra.Reduction.Merge

/-!
# Canonical forms

Simplification and combination are repeated in rounds until a round changes nothing. Every
expression on the way must stay within the limits.
-/

namespace SymbolicAlgebra.Reduction

variable {α : Type} [Scalar α]

/-- The bound on nested calls of the rules for expressions with the given number of nodes. -/
def nestingBound (size : Nat) : Nat := 64 * Nat.pow (size + 2) 3

/-- The expression with the rules applied to every node. -/
def simplified (e : Expr α) : Reducing (Expr α) := simplify (nestingBound e.size) e

/-- The expression with like terms and like factors combined at every node. -/
def merged (e : Expr α) : Reducing (Expr α) := merge (nestingBound e.size) e

/-- The result of a reduction, or the failure of its bound. -/
def attempt {β : Type} (x : Reducing β) : Except Failure (Traced β) :=
  match x.result? with
  | some found => .ok found
  | none => .error (.detached .workExhausted)

/-- Refuses an expression with too many nodes, or with too many levels. -/
def checkSize (limits : Limits) (e : Expr α) : Except Failure Unit :=
  if limits.maxNodes < e.size then .error (.detached (.tooManyNodes limits.maxNodes e.size))
  else if limits.maxDepth < e.depth then .error (.detached (.tooDeep limits.maxDepth))
  else .ok ()

/-- An expression that a round leaves as it is, all expressions on the way to it, from the first
on, and the steps made. -/
structure Settled (α : Type) where
  value : Expr α
  stages : List (Expr α)
  steps : List Step

/-- One round: what it makes of an expression, with the expressions on the way and the steps. -/
def round (limits : Limits) (e : Expr α) : Except Failure (Settled α) := do
  let first ← attempt (simplified e)
  checkSize limits first.value
  let second ← attempt (merged first.value)
  checkSize limits second.value
  let third ← attempt (simplified second.value)
  checkSize limits third.value
  return ⟨third.value, [first.value, second.value, third.value],
    first.steps ++ second.steps ++ third.steps⟩

/-- Repeats rounds, of which `count` are left, until one changes nothing. -/
def rounds (limits : Limits) : Nat → Expr α → Except Failure (Settled α)
  | 0, _ => .error (.detached (.unsettled limits.maxRounds))
  | count + 1, e => do
    let next ← round limits e
    if next.value == e then return next
    let last ← rounds limits count next.value
    return ⟨last.value, next.stages ++ last.stages, next.steps ++ last.steps⟩

/-- Reduces an expression until it settles. -/
def settle (limits : Limits) (e : Expr α) : Except Failure (Settled α) := do
  checkSize limits e
  let found ← rounds limits limits.maxRounds e
  return { found with stages := e :: found.stages }

/-- The canonical form of an expression. -/
def canonicalForm (limits : Limits) (e : Expr α) : Except Failure (Expr α) := do
  return (← settle limits e).value

end SymbolicAlgebra.Reduction
