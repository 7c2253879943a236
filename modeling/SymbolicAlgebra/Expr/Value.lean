import SymbolicAlgebra.Bindings
import SymbolicAlgebra.Expr.Basic
import SymbolicAlgebra.Failure.Basic

/-!
# Values of expressions

The value of an expression where its variables have values. A point at which the expression is not
defined is not an error: the value there is the missing number. Only a variable without a value is.
-/

namespace SymbolicAlgebra

variable {α : Type} [Scalar α]

/-- Where the cosine is this close to zero the tangent counts as undefined. -/
def Trig.poleTolerance : α := Scalar.ofDecimal ⟨1, -12⟩

/-- The value of a function at an angle in radians. -/
def Trig.value : Trig → α → α
  | .sin, x => Scalar.sin x
  | .cos, x => Scalar.cos x
  | .tan, x =>
    if Scalar.lt (Scalar.abs (Scalar.cos x)) poleTolerance then Scalar.nan else Scalar.tan x

namespace Expr

/-- A power of real numbers; a negative base has none to an exponent with a fraction, and zero none
to a negative exponent. -/
def powerValue (base exponent : α) : α :=
  if Scalar.lt base Scalar.zero && !Scalar.isWhole exponent then Scalar.nan
  else if Scalar.eq base Scalar.zero && Scalar.lt exponent Scalar.zero then Scalar.nan
  else Scalar.pow base exponent

/-- A logarithm of real numbers; the base must be positive and not one, the body positive. -/
def logValue (base body : α) : α :=
  if Scalar.le base Scalar.zero || Scalar.eq base Scalar.one || Scalar.le body Scalar.zero then
    Scalar.nan
  else Scalar.log body / Scalar.log base

/-- The value of a product whose factors have the given values; there is none if the divisor is
zero. -/
def productValue (c : Coefficient α) (numerator denominator : List α) : α :=
  let above := numerator.foldl (· * ·) c.numer
  let below := denominator.foldl (· * ·) c.denom
  if Scalar.eq below Scalar.zero then Scalar.nan else above / below

/-- The failure to find a value for a variable. -/
def unbound (b : Bindings α) (name : String) : Failure :=
  .detached (.unboundVariable name (b.similar name))

mutual

/-- The value of an expression. -/
def value (b : Bindings α) : Expr α → Except Failure α
  | sum as => do return (← values b as).foldl (· + ·) Scalar.zero
  | product c n d => do return productValue c (← values b n) (← values b d)
  | power a e => do return powerValue (← value b a) (← value b e)
  | log a e => do return logValue (← value b a) (← value b e)
  | trig f a => do return f.value (← value b a)
  | var x =>
    match b.get? x with
    | some v => .ok v
    | none => .error (unbound b x)
  | number n => .ok n.value

/-- The values of the expressions of a list. -/
def values (b : Bindings α) : List (Expr α) → Except Failure (List α)
  | [] => .ok []
  | e :: es => do
    let v ← value b e
    let vs ← values b es
    return v :: vs

end

end Expr

end SymbolicAlgebra
