import SymbolicAlgebra.Expr.Order
import SymbolicAlgebra.Reduction.Step

/-!
# Rules for functions

Logarithms that follow from their definition, logarithms of literals, and the values of the
trigonometric functions at zero and at the constant `pi`.
-/

namespace SymbolicAlgebra.Reduction

variable {α : Type} [Scalar α]

/-- A logarithm this close to a whole number is taken for it. -/
def wholeTolerance : α := Scalar.ofDecimal ⟨1, -12⟩

/-- The logarithm of a literal to a literal base, if it is defined. -/
def literalLog? (base body : α) : Option α :=
  if Scalar.lt Scalar.zero base && !Scalar.eq base Scalar.one && Scalar.lt Scalar.zero body then
    let value := Scalar.log body / Scalar.log base
    let whole := Scalar.round value
    some (if Scalar.lt (Scalar.abs (value - whole)) wholeTolerance then whole else value)
  else none

/-- The exponent of a power of the given base. -/
def exponentOver? (base : Expr α) : Expr α → Option (Expr α)
  | .power b exponent => if b == base then some exponent else none
  | _ => none

/-- A logarithm of a literal to a literal base, as a literal where it is defined. -/
def foldLog (base body : Expr α) : Traced (Expr α) :=
  match base.real?, body.real? with
  | some a, some b =>
    match literalLog? a b with
    | some value => ⟨.real value, [.foldConstant]⟩
    | none => pure (.log base body)
  | _, _ => pure (.log base body)

/-- The logarithm of a body to a base to which the rules have been applied already. -/
def logRule (base body : Expr α) : Traced (Expr α) :=
  if body == base then ⟨.one, [.logarithmOfBase]⟩
  else if body.isReal Scalar.one then ⟨.zero, [.logarithmOfOne]⟩
  else
    match exponentOver? base body with
    | some exponent => ⟨exponent, [.logarithmOfPower]⟩
    | none => foldLog base body

/-- The value of a function at zero. -/
def trigAtZero : Trig → Expr α
  | .cos => .one
  | _ => .zero

/-- The value of a function at the constant `pi`. -/
def trigAtPi : Trig → Expr α
  | .cos => .real (Scalar.ofInt (-1))
  | _ => .zero

/-- A function of a body to which the rules have been applied already. -/
def trigRule (function : Trig) (body : Expr α) : Traced (Expr α) :=
  if body.isZero then ⟨trigAtZero function, [.trigOfConstant]⟩
  else if body == .constant .pi then ⟨trigAtPi function, [.trigOfConstant]⟩
  else pure (.trig function body)

end SymbolicAlgebra.Reduction
