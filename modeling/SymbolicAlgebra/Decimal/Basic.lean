/-!
# Decimal numerals

Numbers written in base ten: their positional text, and the reader for literals, which knows
signs, fractions, exponents and the words for infinity and for no number.
-/

namespace SymbolicAlgebra

/-- The number `digits * 10 ^ exponent`. -/
structure Decimal where
  digits : Nat
  exponent : Int
deriving DecidableEq, Repr

namespace Decimal

/-- Drops zeros at the end of the digits, at most `fuel` of them. -/
def stripZeros : Nat → Decimal → Decimal
  | 0, d => d
  | fuel + 1, d =>
    if d.digits ≠ 0 ∧ d.digits % 10 = 0 then stripZeros fuel ⟨d.digits / 10, d.exponent + 1⟩ else d

/-- The same number with no zero at the end of its digits. -/
def normalize (d : Decimal) : Decimal := stripZeros d.digits.log2 d

/-- The number written out in full: a point only before digits, and no exponent. -/
def text (d : Decimal) : String :=
  let digits := Nat.toDigits 10 d.digits
  if 0 ≤ d.exponent then
    String.ofList (digits ++ List.replicate d.exponent.toNat '0')
  else
    let places := (-d.exponent).toNat
    let padded := List.replicate (places + 1 - digits.length) '0' ++ digits
    let whole := padded.length - places
    String.ofList (padded.take whole ++ '.' :: padded.drop whole)

end Decimal

/-- What a literal can stand for. -/
inductive Literal where
  /-- No number at all. -/
  | nan
  /-- One of the two infinities. -/
  | infinite (negative : Bool)
  /-- A decimal number with a sign. -/
  | finite (negative : Bool) (magnitude : Decimal)
deriving DecidableEq, Repr

namespace Literal

/-- The value of a run of decimal digits. -/
def digitsValue (cs : List Char) : Nat :=
  cs.foldl (fun n c => 10 * n + (c.toNat - '0'.toNat)) 0

/-- Reads a sign, if there is one, and tells whether it is a minus. -/
def readSign : List Char → Bool × List Char
  | '-' :: cs => (true, cs)
  | '+' :: cs => (false, cs)
  | cs => (false, cs)

/-- Reads what follows the mark of an exponent: a sign and at least one digit, and nothing more. -/
def readExponent? (cs : List Char) : Option Int :=
  let (negative, digits) := readSign cs
  if digits.isEmpty || !digits.all Char.isDigit then none
  else some (if negative then -(digitsValue digits : Int) else digitsValue digits)

/-- Reads digits with at most one point among them and then, if it is there, an exponent. -/
def readMagnitude? (cs : List Char) : Option Decimal :=
  let whole := cs.takeWhile Char.isDigit
  let rest := cs.dropWhile Char.isDigit
  let (places, rest) :=
    match rest with
    | '.' :: after => (after.takeWhile Char.isDigit, after.dropWhile Char.isDigit)
    | _ => ([], rest)
  if whole.isEmpty && places.isEmpty then none
  else
    let digits := digitsValue (whole ++ places)
    match rest with
    | [] => some ⟨digits, -(places.length : Int)⟩
    | mark :: after =>
      if mark = 'e' ∨ mark = 'E' then
        (readExponent? after).map fun exponent => ⟨digits, exponent - places.length⟩
      else none

/-- Reads a literal that takes up the whole text; blanks are not allowed. -/
def read? (cs : List Char) : Option Literal :=
  let (negative, cs) := readSign cs
  let word := String.ofList (cs.map Char.toLower)
  if word = "nan" then some .nan
  else if word = "inf" ∨ word = "infinity" then some (.infinite negative)
  else (readMagnitude? cs).map (.finite negative)

end Literal

end SymbolicAlgebra
