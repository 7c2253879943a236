import SymbolicAlgebra.Decimal.Basic

/-!
# Scalars

The numbers that literals, coefficients and values are made of. Expressions are written and
reduced over any type that has these operations, so that the same rules can be run on floating
point numbers and be reasoned about on exact ones. No law is assumed here.
-/

namespace SymbolicAlgebra

/-- A type of numbers with the operations that expressions need.

The comparisons `eq`, `lt` and `le` are those of arithmetic, under which a missing number is not
even equal to itself; `order` is a total order of the representations, for sorting. -/
class Scalar (α : Type) extends Add α, Sub α, Mul α, Div α, Neg α where
  /-- A whole number. -/
  ofInt : Int → α
  /-- A decimal number, rounded if need be. -/
  ofDecimal : Decimal → α
  /-- The result of an operation that has none. -/
  nan : α
  /-- Greater than every number. -/
  infinity : α
  /-- Euler's number. -/
  euler : α
  /-- The ratio of a circle's circumference to its diameter. -/
  pi : α
  eq : α → α → Bool
  lt : α → α → Bool
  le : α → α → Bool
  order : α → α → Ordering
  isNaN : α → Bool
  isFinite : α → Bool
  /-- A finite number without a fraction. -/
  isWhole : α → Bool
  /-- The integer that a whole number is. -/
  toInt : α → Int
  abs : α → α
  /-- The nearest whole number; halves go away from zero. -/
  round : α → α
  /-- The remainder of a division, not negative where it is a number. -/
  emod : α → α → α
  pow : α → α → α
  log : α → α
  sin : α → α
  cos : α → α
  tan : α → α
  text : α → String

namespace Scalar

variable {α : Type} [Scalar α]

/-- The number zero. -/
def zero : α := ofInt 0

/-- The number one. -/
def one : α := ofInt 1

/-- The value of a literal. -/
def ofLiteral : Literal → α
  | .nan => nan
  | .infinite negative => if negative then -infinity else infinity
  | .finite negative magnitude => if negative then -(ofDecimal magnitude) else ofDecimal magnitude

/-- Reads a number that takes up the whole text. -/
def read? (cs : List Char) : Option α := (Literal.read? cs).map ofLiteral

/-- The number with a zero that has no sign. -/
def unsignZero (a : α) : α := a + zero

/-- Multiplies `result` by the power of `a` to an exponent below `2 ^ fuel`, by squaring. -/
def powLoop : Nat → α → α → Nat → α
  | 0, result, _, _ => result
  | fuel + 1, result, a, n =>
    let result := if n % 2 = 1 then result * a else result
    if n / 2 = 0 then result else powLoop fuel result (a * a) (n / 2)

/-- The power to a natural number, by repeated squaring from the lowest bit on. -/
def npow (a : α) (n : Nat) : α := powLoop (n.log2 + 1) one a n

end Scalar

end SymbolicAlgebra
