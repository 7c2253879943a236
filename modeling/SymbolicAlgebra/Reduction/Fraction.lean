import SymbolicAlgebra.Reduction.Sum

/-!
# Fractions

Products in the making. Factors go to one of the two sides of a fraction line: literals into the
coefficient, and the factors of products one by one to the side where they belong. A zero below
the line is not divided by but remembered, since it leaves the whole product without a value.
-/

namespace SymbolicAlgebra.Reduction

variable {α : Type} [Scalar α]

/-- The two sides of the fraction line. -/
inductive Side where
  | above
  | below
deriving DecidableEq, Repr

/-- The other side. -/
def Side.flip : Side → Side
  | above => below
  | below => above

/-- A product in the making, and whether a zero was put below its line. -/
structure Fraction (α : Type) where
  coefficient : Coefficient α
  numerator : List (Expr α) := []
  denominator : List (Expr α) := []
  zeroDivisor : Bool := false

namespace Fraction

/-- Multiplies or divides the coefficient. -/
def scale (side : Side) (c : Coefficient α) (f : Fraction α) : Fraction α :=
  match side with
  | .above => { f with coefficient := f.coefficient * c }
  | .below => { f with coefficient := f.coefficient / c }

/-- Puts a factor on one side as it is. -/
def place (side : Side) (e : Expr α) (f : Fraction α) : Fraction α :=
  match side with
  | .above => { f with numerator := f.numerator ++ [e] }
  | .below => { f with denominator := f.denominator ++ [e] }

/-- The step by which a product is taken apart: one with a fraction line below the line is turned
upside down. -/
def openingStep (side : Side) (denominator : List (Expr α)) : Step :=
  match side with
  | .above => .flattenProduct
  | .below => if denominator.isEmpty then .flattenProduct else .invertFraction

mutual

/-- Multiplies by a factor, or divides by it. -/
def absorb (side : Side) (f : Fraction α) : Expr α → Traced (Fraction α)
  | .number (.real v) =>
    if side = .below && Scalar.eq v Scalar.zero then pure { f with zeroDivisor := true }
    else ⟨f.scale side (.ofScalar v), [.foldCoefficient]⟩
  | .product c n d =>
    if side = .below && c.isZero then pure { f with zeroDivisor := true }
    else do
      Traced.note (openingStep side d)
      let f ← absorbAll side (f.scale side c) n
      absorbAll side.flip f d
  | e => pure (f.place side e)

/-- Multiplies by every factor of a list, or divides by it. -/
def absorbAll (side : Side) (f : Fraction α) : List (Expr α) → Traced (Fraction α)
  | [] => pure f
  | e :: es => do
    let f ← absorb side f e
    absorbAll side f es

end

/-- The first factor with the given base, as its exponent, and the factors without it. -/
def takeBase? (base : Expr α) : List (Expr α) → Option (Expr α × List (Expr α))
  | [] => none
  | e :: es =>
    if e.powerParts.1 == base then some (e.powerParts.2, es)
    else (takeBase? base es).map fun (exponent, rest) => (exponent, e :: rest)

/-- A base on both sides of a fraction line, its exponents there, and the other factors. -/
structure Common (α : Type) where
  base : Expr α
  upper : Expr α
  lower : Expr α
  numerator : List (Expr α)
  denominator : List (Expr α)

/-- The first factor above the line whose base, not zero, is also that of a factor below. -/
def common? (denominator : List (Expr α)) : List (Expr α) → Option (Common α)
  | [] => none
  | e :: es =>
    let (base, upper) := e.powerParts
    let here := if base.isZero then none else takeBase? base denominator
    match here with
    | some (lower, rest) => some ⟨base, upper, lower, es, rest⟩
    | none => (common? denominator es).map fun c => { c with numerator := e :: c.numerator }

/-- A coefficient times each addend of a sum. -/
def distribute (c : Coefficient α) (addends : List (Expr α)) : List (Expr α) :=
  addends.map fun e => .ofScaleParts (c * e.scaleParts.1) e.scaleParts.2

/-- The product itself, unless it is only a number or a single factor. -/
def collapse (c : Coefficient α) (numerator denominator : List (Expr α)) : Expr α :=
  match numerator, denominator with
  | [], [] => .real c.value
  | [e], [] => if c.isOne then e else .product c [e] []
  | n, d => .product c n d

/-- The product with its factors sorted. A coefficient of zero makes it zero, a zero below the line
takes the place of all other divisors, and a coefficient other than one is multiplied into a sum
that is the only factor. -/
def finish (f : Fraction α) : Traced (Expr α) :=
  if f.coefficient.isZero then ⟨.zero, [.multiplyZero]⟩
  else
    let numerator := Expr.sort f.numerator
    let denominator := Expr.sort (if f.zeroDivisor then [.zero] else f.denominator)
    match numerator, denominator with
    | [.sum addends], [] =>
      if f.coefficient.isOne then pure (.sum addends)
      else do
        Traced.note .distributeCoefficient
        sumRule (distribute f.coefficient addends)
    | n, d => pure (collapse f.coefficient n d)

end Fraction

end SymbolicAlgebra.Reduction
