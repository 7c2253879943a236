import SymbolicAlgebra.Scalar.Basic

/-!
# Coefficients

The number that scales a product, kept as a fraction. While both parts are whole numbers small
enough to be exact, the fraction is reduced; otherwise it is divided out.
-/

namespace SymbolicAlgebra

/-- The fraction `numer / denom`. -/
structure Coefficient (α : Type) where
  numer : α
  denom : α

namespace Coefficient

variable {α : Type} [Scalar α]

/-- From this magnitude on whole numbers need not be exact. -/
def exactLimit : α := Scalar.ofInt (Int.pow 2 53)

/-- A whole number that is small enough to be exact. -/
def isExact (a : α) : Bool := Scalar.isWhole a && Scalar.lt (Scalar.abs a) exactLimit

/-- The fraction of two numbers, of which the second is not zero: its denominator is positive, it
is reduced while both parts are exact, and is otherwise a single number over one. -/
def ofFraction (numer denom : α) : Coefficient α :=
  let flipped := Scalar.lt denom Scalar.zero
  let n := if flipped then -numer else numer
  let d := if flipped then -denom else denom
  if isExact n && isExact d then
    let divisor := Int.gcd (Scalar.toInt n) (Scalar.toInt d)
    if 1 < divisor then
      ⟨Scalar.unsignZero (n / Scalar.ofInt divisor), d / Scalar.ofInt divisor⟩
    else ⟨Scalar.unsignZero n, d⟩
  else ⟨Scalar.unsignZero (n / d), Scalar.one⟩

/-- A number as a coefficient. -/
def ofScalar (a : α) : Coefficient α := ofFraction a Scalar.one

/-- The coefficient one. -/
def one : Coefficient α := ⟨Scalar.one, Scalar.one⟩

/-- The coefficient minus one. -/
def minusOne : Coefficient α := ⟨Scalar.ofInt (-1), Scalar.one⟩

/-- The value of the fraction as a single number. -/
def value (c : Coefficient α) : α := c.numer / c.denom

/-- The coefficient is one. -/
def isOne (c : Coefficient α) : Bool := Scalar.eq c.numer Scalar.one && Scalar.eq c.denom Scalar.one

/-- The coefficient is zero. -/
def isZero (c : Coefficient α) : Bool := Scalar.eq c.numer Scalar.zero

/-- The coefficient is less than zero. -/
def isNegative (c : Coefficient α) : Bool := Scalar.lt c.numer Scalar.zero

/-- The coefficient is a whole number. -/
def isInteger (c : Coefficient α) : Bool := Scalar.eq c.denom Scalar.one && Scalar.isWhole c.numer

instance : Add (Coefficient α) where
  add a b := ofFraction (a.numer * b.denom + b.numer * a.denom) (a.denom * b.denom)

instance : Mul (Coefficient α) where
  mul a b := ofFraction (a.numer * b.numer) (a.denom * b.denom)

instance : Div (Coefficient α) where
  div a b := ofFraction (a.numer * b.denom) (a.denom * b.numer)

instance : Neg (Coefficient α) where
  neg a := ⟨Scalar.unsignZero (-a.numer), a.denom⟩

/-- The power to an integer; for a negative one the parts change places. -/
def zpow (c : Coefficient α) : Int → Coefficient α
  | .ofNat n => ofFraction (Scalar.npow c.numer n) (Scalar.npow c.denom n)
  | .negSucc n => ofFraction (Scalar.npow c.denom (n + 1)) (Scalar.npow c.numer (n + 1))

/-- Coefficients are ordered by their values, and by their numerators where those are the same. -/
def order (a b : Coefficient α) : Ordering :=
  (Scalar.order a.value b.value).then (Scalar.order a.numer b.numer)

/-- The fraction as a text; a denominator of one is left out. -/
def text (c : Coefficient α) : String :=
  if Scalar.eq c.denom Scalar.one then Scalar.text c.numer
  else Scalar.text c.numer ++ "/" ++ Scalar.text c.denom

end Coefficient

end SymbolicAlgebra
