import SymbolicAlgebra.Expr.Traversal
import SymbolicAlgebra.Reduction.Fraction
import SymbolicAlgebra.Reduction.Function

/-!
# Simplification

The rules for powers and products, and the pass that applies all rules to every node of an
expression from the leaves up. The rules for powers and products call each other on exponents and
factors that are not parts of what they started from, so they take a bound on how deeply such
calls may nest.
-/

namespace SymbolicAlgebra.Reduction

variable {α : Type} [Scalar α]

/-- The largest whole exponent that is treated as one. -/
def largestExponent : α := Scalar.ofInt 2147483647

/-- The integer that an exponent is. -/
def wholeExponent? (e : Expr α) : Option Int :=
  match e.real? with
  | some v =>
    if Scalar.isWhole v && Scalar.le (Scalar.abs v) largestExponent then some (Scalar.toInt v)
    else none
  | none => none

/-- The power of a literal to a literal, if it is a finite number. -/
def literalPower? (base exponent : Expr α) : Option α :=
  match base.real?, exponent.real? with
  | some b, some e =>
    let value := Scalar.pow b e
    if Scalar.isFinite value && (Scalar.le Scalar.zero b || Scalar.isWhole e) &&
        !(Scalar.eq b Scalar.zero && Scalar.lt e Scalar.zero) then some value
    else none
  | _, _ => none

/-- The body of a logarithm to the given base. -/
def logBody? (base : Expr α) : Expr α → Option (Expr α)
  | .log b body => if b == base then some body else none
  | _ => none

/-- The power that follows from its base or its exponent alone, or by computing with literals. -/
def plainPower? (base exponent : Expr α) : Option (Traced (Expr α)) :=
  if exponent.isReal Scalar.zero then some ⟨.one, [.powerZero]⟩
  else if exponent.isReal Scalar.one then some ⟨base, [.powerOne]⟩
  else if base.isReal Scalar.one then some ⟨.one, [.powerOfOne]⟩
  else
    match literalPower? base exponent with
    | some value => some ⟨.real value, [.foldConstant]⟩
    | none => (logBody? base exponent).map fun body => ⟨body, [.powerOfLogarithm]⟩

mutual

/-- A power of a base to an exponent to which the rules have been applied already. -/
def powerRule : Nat → Expr α → Expr α → Reducing (Expr α)
  | 0, _, _ => .exhausted
  | fuel + 1, base, exponent =>
    match plainPower? base exponent with
    | some found => .lift found
    | none =>
      if exponent.isNegative then do
        Traced.note .relocatePower
        let positive ← simplify fuel exponent.neg
        let relocated ← powerRule fuel base positive
        productRule fuel .one [] [relocated]
      else
        match wholeExponent? exponent, base with
        | some _, .power inner innerExponent => do
          Traced.note .powerOfPower
          let product ← productRule fuel .one [innerExponent, exponent] []
          powerRule fuel inner product
        | some n, .product c numerator denominator =>
          if Scalar.isFinite (c.zpow n).value then do
            Traced.note .powerOfProduct
            let whole := Expr.real (Scalar.ofInt n)
            let numerator ← Reducing.mapList (fun e => powerRule fuel e whole) numerator
            let denominator ← Reducing.mapList (fun e => powerRule fuel e whole) denominator
            productRule fuel (c.zpow n) numerator denominator
          else pure (.power base exponent)
        | _, _ => pure (.power base exponent)

/-- Cancels bases on both sides of a fraction line until there are none. -/
def cancel : Nat → Fraction α → Reducing (Fraction α)
  | 0, _ => .exhausted
  | fuel + 1, f =>
    match Fraction.common? f.denominator f.numerator with
    | none => pure f
    | some ⟨base, upper, lower, numerator, denominator⟩ => do
      let rest := { f with numerator, denominator }
      Traced.note .cancelFactors
      match upper.real?, lower.real? with
      | some u, some l =>
        if Scalar.lt Scalar.zero (u - l) then do
          let factor ← powerRule fuel base (.real (u - l))
          cancel fuel (← rest.absorb .above factor)
        else if Scalar.lt (u - l) Scalar.zero then do
          let factor ← powerRule fuel base (.real (-(u - l)))
          cancel fuel (← rest.absorb .below factor)
        else cancel fuel rest
      | _, _ =>
        let exponent ← sumRule [upper, lower.neg]
        let factor ← powerRule fuel base exponent
        cancel fuel (← rest.absorb .above factor)

/-- A product of factors to which the rules have been applied already. -/
def productRule : Nat → Coefficient α → List (Expr α) → List (Expr α) → Reducing (Expr α)
  | 0, _, _, _ => .exhausted
  | fuel + 1, c, numerator, denominator => do
    let f ← Fraction.absorbAll .above { coefficient := c } numerator
    let f ← Fraction.absorbAll .below f denominator
    (← cancel fuel f).finish

/-- Applies the rules to every node, from the leaves up. -/
def simplify : Nat → Expr α → Reducing (Expr α)
  | 0, _ => .exhausted
  | fuel + 1, e =>
    match e with
    | .sum addends => do
      sumRule (← Reducing.mapList (simplify fuel) addends)
    | .product c numerator denominator => do
      let numerator ← Reducing.mapList (simplify fuel) numerator
      let denominator ← Reducing.mapList (simplify fuel) denominator
      productRule fuel c numerator denominator
    | .power base exponent => do
      let base ← simplify fuel base
      let exponent ← simplify fuel exponent
      powerRule fuel base exponent
    | .log base body => do
      let base ← simplify fuel base
      let body ← simplify fuel body
      logRule base body
    | .trig function body => do
      trigRule function (← simplify fuel body)
    | .var name => pure (.var name)
    | .number n => pure (.number n)

end

end SymbolicAlgebra.Reduction
