import SymbolicAlgebra.Expr.Traversal

/-!
# Derivatives

The rules of differentiation, kind by kind. A rule works on expressions that come with their
derivatives, so that one recursion over the expression reaches every derivative that is needed.
The results are not simplified, apart from factors and addends that vanish.
-/

namespace SymbolicAlgebra.Derivative

variable {α : Type} [Scalar α]

/-- An expression with its derivative. -/
structure Pair (α : Type) where
  expr : Expr α
  slope : Expr α

/-- A product in the making. -/
structure Term (α : Type) where
  coefficient : Coefficient α
  numerator : List (Expr α)
  denominator : List (Expr α)

namespace Term

/-- The product without factors. -/
def unit : Term α := ⟨.one, [], []⟩

/-- Multiplies by a factor; a factor that is zero makes the product vanish. -/
def times (e : Expr α) (t : Term α) : Option (Term α) :=
  if e.isZero then none
  else
    match e with
    | .number (.real v) => some { t with coefficient := t.coefficient * .ofScalar v }
    | e => some { t with numerator := t.numerator ++ [e] }

/-- Multiplies by all factors of a list. -/
def timesAll (es : List (Expr α)) (t : Term α) : Option (Term α) :=
  es.foldlM (fun t e => t.times e) t

/-- Divides by an expression; dividing by one changes nothing. -/
def divide (e : Expr α) (t : Term α) : Term α :=
  if e.isReal Scalar.one then t else { t with denominator := t.denominator ++ [e] }

/-- Divides by all expressions of a list. -/
def divideAll (es : List (Expr α)) (t : Term α) : Term α := es.foldl (fun t e => t.divide e) t

/-- Multiplies by a coefficient; a coefficient of zero makes the product vanish. -/
def scale (c : Coefficient α) (t : Term α) : Option (Term α) :=
  if c.isZero then none else some { t with coefficient := t.coefficient * c }

/-- The expression that a product in the making stands for; one that vanishes is zero. -/
def toExpr : Option (Term α) → Expr α
  | none => .zero
  | some ⟨c, [], []⟩ => .real c.value
  | some ⟨c, [e], []⟩ => if c.isOne then e else .product c [e] []
  | some ⟨c, n, d⟩ => .product c n d

end Term

/-- The sum of the addends that are not zero. -/
def sumOf (addends : List (Expr α)) : Expr α :=
  match addends.filter fun e => !e.isZero with
  | [] => .zero
  | [e] => e
  | es => .sum es

/-- The product with one of its factors replaced by its derivative, for each factor in turn;
`before` holds the factors that have had their turn. -/
def replaceEach (before : List (Expr α)) : List (Pair α) → List (List (Expr α))
  | [] => []
  | p :: ps => (before ++ p.slope :: ps.map Pair.expr) :: replaceEach (before ++ [p.expr]) ps

/-- A quotient of products, cut into the factors that do not depend on the variable and those that
do, which come with their derivatives. -/
structure Quotient (α : Type) where
  coefficient : Coefficient α
  fixedNumerator : List (Expr α)
  fixedDenominator : List (Expr α)
  numerator : List (Pair α)
  denominator : List (Pair α)

namespace Quotient

/-- A quotient of products by its coefficient and its factors, which come with their
derivatives. -/
def ofPairs (name : String) (c : Coefficient α) (numerator denominator : List (Pair α)) :
    Quotient α where
  coefficient := c
  fixedNumerator := (numerator.filter fun p => !p.expr.dependsOn name).map Pair.expr
  fixedDenominator := (denominator.filter fun p => !p.expr.dependsOn name).map Pair.expr
  numerator := numerator.filter fun p => p.expr.dependsOn name
  denominator := denominator.filter fun p => p.expr.dependsOn name

/-- The part of every term that does not depend on the variable. -/
def fixedPart (q : Quotient α) : Option (Term α) := do
  let t ← Term.unit.scale q.coefficient
  let t ← t.timesAll q.fixedNumerator
  return t.divideAll q.fixedDenominator

/-- The derivative of a reciprocal, `(c/g)' = -c*g'/g^2`. -/
def reciprocalSlope (q : Quotient α) (g : Pair α) : Expr α :=
  Term.toExpr do
    let t ← (← q.fixedPart).scale .minusOne
    let t ← t.times g.slope
    return t.divide (.power g.expr (.real (Scalar.ofInt 2)))

/-- The terms that come from the factors above the line. -/
def upperTerms (q : Quotient α) : List (Expr α) :=
  (replaceEach [] q.numerator).map fun factors =>
    Term.toExpr do
      let t ← (← q.fixedPart).timesAll factors
      return t.divideAll (q.denominator.map Pair.expr)

/-- The terms that come from the factors below the line. -/
def lowerTerms (q : Quotient α) : List (Expr α) :=
  q.denominator.map fun h =>
    Term.toExpr do
      let t ← (← q.fixedPart).scale .minusOne
      let t ← t.timesAll (q.numerator.map Pair.expr)
      let t ← t.times h.slope
      return (t.divideAll (q.denominator.map Pair.expr)).divide h.expr

/-- The derivative of a quotient of products,
`(c*f*g/h)' = c*f'*g/h + c*f*g'/h - c*f*g*h'/h^2`. -/
def slope (q : Quotient α) : Expr α :=
  match q.numerator, q.denominator with
  | [], [g] => q.reciprocalSlope g
  | _, _ => sumOf (q.upperTerms ++ q.lowerTerms)

end Quotient

/-- The derivative of a quotient of products whose factors come with their derivatives. -/
def productSlope (name : String) (c : Coefficient α) (numerator denominator : List (Pair α)) :
    Expr α :=
  (Quotient.ofPairs name c numerator denominator).slope

/-- An exponent less one. -/
def decrement (exponent : Expr α) : Expr α :=
  match exponent.real? with
  | some v => .real (v - Scalar.one)
  | none => exponent.plus (.real (Scalar.ofInt (-1)))

/-- The derivative of a logarithm whose base does not depend on the variable,
`(log(a)_f)' = f'/(f*ln(a))`. -/
def logSlope (base : Expr α) (body : Pair α) : Expr α :=
  Term.toExpr do
    let t ← Term.unit.times body.slope
    return (t.divide body.expr).divide (.ln base)

/-- The natural logarithm of an expression, with its derivative. -/
def lnPair (name : String) (body : Pair α) : Pair α :=
  ⟨.ln body.expr, if body.expr.dependsOn name then logSlope (.constant .e) body else .zero⟩

/-- The derivative of any logarithm; one whose base depends on the variable is a quotient of
natural logarithms. -/
def anyLogSlope (name : String) (base body : Pair α) : Expr α :=
  if base.expr.dependsOn name then
    productSlope name .one [lnPair name body] [lnPair name base]
  else logSlope base.expr body

/-- The derivative of a power: `(f^c)' = c*f^(c-1)*f'`, `(a^g)' = a^g*ln(a)*g'`, and
`(f^g)' = f^g*(g*ln(f))'` if both depend on the variable. -/
def powerSlope (name : String) (base exponent : Pair α) : Expr α :=
  let power := Expr.power base.expr exponent.expr
  let factors :=
    if !exponent.expr.dependsOn name then
      [exponent.expr, .power base.expr (decrement exponent.expr), base.slope]
    else if !base.expr.dependsOn name then [power, .ln base.expr, exponent.slope]
    else [power, productSlope name .one [exponent, lnPair name base] []]
  Term.toExpr (Term.unit.timesAll factors)

/-- The derivative of a function: `sin(f)' = f'*cos(f)`, `cos(f)' = -f'*sin(f)`, and
`tan(f)' = f'/cos(f)^2`. -/
def trigSlope (function : Trig) (body : Pair α) : Expr α :=
  Term.toExpr do
    let t ← Term.unit.times body.slope
    match function with
    | .sin => t.times (.trig .cos body.expr)
    | .cos => (← t.scale .minusOne).times (.trig .sin body.expr)
    | .tan => return t.divide (.power (.trig .cos body.expr) (.real (Scalar.ofInt 2)))

end SymbolicAlgebra.Derivative

namespace SymbolicAlgebra.Expr

open SymbolicAlgebra.Derivative

variable {α : Type} [Scalar α]

mutual

/-- The derivative with respect to a variable, not simplified. -/
def derivative (name : String) (e : Expr α) : Expr α :=
  if e.dependsOn name then
    match e with
    | sum as => sumOf ((derivatives name as).map Pair.slope)
    | product c n d => productSlope name c (derivatives name n) (derivatives name d)
    | power a b => powerSlope name ⟨a, derivative name a⟩ ⟨b, derivative name b⟩
    | log a b => anyLogSlope name ⟨a, derivative name a⟩ ⟨b, derivative name b⟩
    | trig f a => trigSlope f ⟨a, derivative name a⟩
    | var x => if x = name then one else zero
    | number _ => zero
  else zero

/-- The expressions of a list with their derivatives. -/
def derivatives (name : String) : List (Expr α) → List (Pair α)
  | [] => []
  | e :: es => ⟨e, derivative name e⟩ :: derivatives name es

end

end SymbolicAlgebra.Expr
