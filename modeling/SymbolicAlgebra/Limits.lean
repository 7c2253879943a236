/-!
# Limits

Bounds on how large and how deep expressions may grow, and on how long they may be worked on.
-/

namespace SymbolicAlgebra

/-- The limits within which expressions are read and reduced. -/
structure Limits where
  /-- The largest number of nodes of an expression. -/
  maxNodes : Nat := 100000
  /-- The largest number of levels of an expression. -/
  maxDepth : Nat := 64
  /-- The largest number of rounds in which an expression may change. -/
  maxRounds : Nat := 64
deriving DecidableEq, Repr

end SymbolicAlgebra
