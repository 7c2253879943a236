import SymbolicAlgebra.Expr.Basic

/-!
# Writing expressions

The text of an expression in the notation that the grammar of expressions reads. Parentheses stand
only where reading would otherwise group differently.
-/

namespace SymbolicAlgebra.Expr

variable {α : Type} [Scalar α]

/-- A text between parentheses. -/
def parenthesized (text : String) : String := "(" ++ text ++ ")"

/-- A text, between parentheses if asked for. -/
def wrapped (wrap : Bool) (text : String) : String := if wrap then parenthesized text else text

/-- The expression stands without parentheses as the body of a logarithm. -/
def isAtomic : Expr α → Bool
  | var _ => true
  | number (.constant _) => true
  | number (.real v) => Scalar.le Scalar.zero v
  | _ => false

/-- The expression stands without parentheses as the base of a power. -/
def isPowerBase : Expr α → Bool
  | log .. => true
  | trig .. => true
  | e => e.isAtomic

/-- The expression stands without parentheses as an exponent. -/
def isExponent : Expr α → Bool
  | power .. => true
  | e => e.isPowerBase

/-- The expression stands without parentheses as a factor. -/
def isFactor : Expr α → Bool
  | sum _ => false
  | product .. => false
  | number (.real v) => !Scalar.lt v Scalar.zero
  | _ => true

/-- What stands before the first factor of a numerator: a coefficient, or only its sign. -/
def coefficientText (c : Coefficient α) (factors : List String) : String :=
  if factors.isEmpty then Scalar.text c.numer
  else if Scalar.eq c.numer (Scalar.ofInt (-1)) then "-"
  else if Scalar.eq c.numer Scalar.one then ""
  else Scalar.text c.numer ++ "*"

/-- The text below the fraction line: the denominator of the coefficient as a divisor of its own,
and then the factors as one divisor. -/
def divisorText (c : Coefficient α) (factors : List String) : String :=
  let scale := if Scalar.eq c.denom Scalar.one then "" else "/" ++ Scalar.text c.denom
  match factors with
  | [] => scale
  | [factor] => scale ++ "/" ++ factor
  | factors => scale ++ "/" ++ parenthesized ("*".intercalate factors)

/-- The text of a product with the given texts of factors. A minus sign alone would be read as part
of a sum that comes first, so then it is written before the whole product in parentheses; `bare`
tells that the first factor needs no parentheses of its own. -/
def productText (c : Coefficient α) (bare : Bool) (numerator denominator : List String) : String :=
  let negated :=
    Scalar.eq c.numer (Scalar.ofInt (-1)) && !numerator.isEmpty && !bare
  let sign := coefficientText c numerator
  let body := "*".intercalate numerator ++ divisorText c denominator
  if negated then sign ++ parenthesized body else sign ++ body

/-- The first factor needs no parentheses. -/
def startsBare : List (Expr α) → Bool
  | [] => true
  | e :: _ => e.isFactor

mutual

/-- The text of an expression. -/
def text : Expr α → String
  | sum [] => "0"
  | sum (a :: as) => wrapped a.isSum (text a) ++ addendsText as
  | product c n d => productText c (startsBare n) (factorTexts n) (factorTexts d)
  | power a b => wrapped (!a.isPowerBase) (text a) ++ "^" ++ wrapped (!b.isExponent) (text b)
  | log a b => "log(" ++ text a ++ ")_" ++ wrapped (!b.isAtomic) (text b)
  | trig f a => f.name ++ parenthesized (text a)
  | var x => x
  | number n => n.text

/-- The text of the addends after the first, each with its sign in front. -/
def addendsText : List (Expr α) → String
  | [] => ""
  | number (.real v) :: as =>
    (if Scalar.lt v Scalar.zero then " - " ++ Scalar.text (Scalar.unsignZero (-v))
      else " + " ++ Scalar.text v) ++ addendsText as
  | product c n d :: as =>
    let factors := productText (if c.isNegative then -c else c) (startsBare n) (factorTexts n)
      (factorTexts d)
    (if c.isNegative then " - " else " + ") ++ factors ++ addendsText as
  | a :: as => " + " ++ wrapped a.isSum (text a) ++ addendsText as

/-- The texts of factors, each between parentheses where it needs them. -/
def factorTexts : List (Expr α) → List String
  | [] => []
  | a :: as => wrapped (!a.isFactor) (text a) :: factorTexts as

end

end SymbolicAlgebra.Expr
