import SymbolicAlgebra.Scalar.Coefficient
import SymbolicAlgebra.Scalar.Number

/-!
# Expressions

Algebraic expressions as trees, with the ways to build and to inspect them that need no look below
their roots. Nothing is simplified here.
-/

namespace SymbolicAlgebra

/-- The trigonometric functions. -/
inductive Trig where
  | sin
  | cos
  | tan
deriving DecidableEq, Repr

namespace Trig

/-- The name of a function. -/
def name : Trig → String
  | sin => "sin"
  | cos => "cos"
  | tan => "tan"

/-- The function with a name. -/
def ofName? : String → Option Trig
  | "sin" => some sin
  | "cos" => some cos
  | "tan" => some tan
  | _ => none

/-- The place of a function in the order. -/
def rank : Trig → Nat
  | sin => 0
  | cos => 1
  | tan => 2

end Trig

/-- An expression over a type of numbers. -/
inductive Expr (α : Type) where
  | sum (addends : List (Expr α))
  /-- The factors above the fraction line over those below it, scaled by a coefficient. -/
  | product (coefficient : Coefficient α) (numerator denominator : List (Expr α))
  | power (base exponent : Expr α)
  | log (base body : Expr α)
  | trig (function : Trig) (body : Expr α)
  | var (name : String)
  | number (value : Number α)

namespace Expr

variable {α : Type} [Scalar α]

/-- A literal. -/
def real (value : α) : Expr α := number (.literal value)

/-- The literal zero. -/
def zero : Expr α := real Scalar.zero

/-- The literal one. -/
def one : Expr α := real Scalar.one

/-- A constant. -/
def constant (c : Constant) : Expr α := number (.constant c)

/-- A single expression times a coefficient. -/
def scaled (coefficient : Coefficient α) (e : Expr α) : Expr α := product coefficient [e] []

/-- The product of two expressions. -/
def times (a b : Expr α) : Expr α := product .one [a, b] []

/-- The quotient of two expressions. -/
def dividedBy (a b : Expr α) : Expr α := product .one [a] [b]

/-- The natural logarithm. -/
def ln (body : Expr α) : Expr α := log (constant .e) body

/-- The addends of a sum; any other expression is its own only addend. -/
def addends : Expr α → List (Expr α)
  | sum as => as
  | e => [e]

/-- The sum of two expressions; the addends of sums are taken over one by one. -/
def plus (a b : Expr α) : Expr α := sum (a.addends ++ b.addends)

/-- The value of a literal. -/
def real? : Expr α → Option α
  | number n => n.real?
  | _ => none

/-- The expression is a literal with the given value. -/
def isReal (value : α) (e : Expr α) : Bool :=
  match e.real? with
  | some v => Scalar.eq v value
  | none => false

/-- The expression is the literal zero, or a product with coefficient zero. -/
def isZero : Expr α → Bool
  | product c _ _ => c.isZero
  | e => e.isReal Scalar.zero

/-- The expression is written with a minus in front: a negative literal, or a product with a negative
coefficient. -/
def isNegative : Expr α → Bool
  | number (.real v) => Scalar.lt v Scalar.zero
  | product c _ _ => c.isNegative
  | _ => false

/-- The expression is a sum. -/
def isSum : Expr α → Bool
  | sum _ => true
  | _ => false

mutual

/-- The expression with the opposite sign: literals and coefficients change theirs, sums that of
every addend, and anything else is scaled by minus one. -/
def neg : Expr α → Expr α
  | number (.real v) => real (-v)
  | sum as => sum (negList as)
  | product c n d => product (-c) n d
  | e => scaled .minusOne e

/-- The expressions of a list with the opposite signs. -/
def negList : List (Expr α) → List (Expr α)
  | [] => []
  | e :: es => neg e :: negList es

end

/-- The place of a kind of expression in the order. -/
def rank : Expr α → Nat
  | sum _ => 0
  | product .. => 1
  | power .. => 2
  | log .. => 3
  | trig .. => 4
  | var _ => 5
  | number _ => 6

/-- The factors with the given bases and exponents of which `e` is a power. -/
def powerParts : Expr α → Expr α × Expr α
  | power base exponent => (base, exponent)
  | e => (e, one)

/-- A coefficient and what it scales; expressions that scale the same can be added by adding their
coefficients. Literals scale one, and a product without its coefficient and its fraction line is
its only factor. -/
def scaleParts : Expr α → Coefficient α × Expr α
  | number (.real v) => (.ofScalar v, one)
  | product c [e] [] => (c, e)
  | product c n d => (c, product .one n d)
  | e => (.one, e)

/-- The expression with the given parts, which undoes `scaleParts`. -/
def ofScaleParts (c : Coefficient α) (key : Expr α) : Expr α :=
  if c.isZero then zero
  else if key.isReal Scalar.one then real c.value
  else
    match key with
    | product _ n d => product c n d
    | key => if c.isOne then key else scaled c key

end Expr

end SymbolicAlgebra
