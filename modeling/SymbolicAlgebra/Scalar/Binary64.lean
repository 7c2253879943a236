import SymbolicAlgebra.Decimal.Shortest
import SymbolicAlgebra.Scalar.Basic

/-!
# Binary floating point numbers

The doubles as scalars. What can be told from the bits of a number is computed from them exactly:
the total order, whole numbers, rounding, remainders and the shortest text. The elementary
functions are those of the platform.
-/

namespace SymbolicAlgebra.Binary64

/-- What a double stands for: a finite one is `mantissa * 2 ^ exponent` with a sign. -/
inductive Parts where
  | nan
  | infinite (negative : Bool)
  | finite (negative : Bool) (mantissa : Nat) (exponent : Int)

/-- Takes a double apart into its sign, mantissa and exponent. -/
def parts (x : Float) : Parts :=
  let bits : Nat := x.toBits.toNat
  let negative : Bool := Nat.pow 2 63 ≤ bits
  let field : Nat := bits / Nat.pow 2 52 % Nat.pow 2 11
  let fraction : Nat := bits % Nat.pow 2 52
  if field = 2047 then (if fraction = 0 then .infinite negative else .nan)
  else if field = 0 then .finite negative fraction (-1074)
  else .finite negative (Nat.pow 2 52 + fraction) ((field : Int) - 1075)

/-- The double `mantissa * 2 ^ exponent` with a sign, where the mantissa has at most 53 bits and the
exponent is not below that of the smallest double. -/
def ofParts (negative : Bool) (mantissa : Nat) (exponent : Int) : Float :=
  let room := min (52 - mantissa.log2) (exponent + 1074).toNat
  let mantissa := mantissa * Nat.pow 2 room
  let exponent := exponent - room
  let bits :=
    if mantissa < Nat.pow 2 52 then mantissa
    else (exponent + 1075).toNat * Nat.pow 2 52 + (mantissa - Nat.pow 2 52)
  Float.ofBits (UInt64.ofNat (if negative then Nat.pow 2 63 + bits else bits))

/-- A number that grows with the total order: by value, with the negative zero below the positive
one and what is no number above all. -/
def orderKey (x : Float) : Int :=
  let bits := x.toBits.toNat
  if x.isNaN then Nat.pow 2 63
  else if Nat.pow 2 63 ≤ bits then (Nat.pow 2 63 : Int) - 1 - bits
  else bits

/-- The total order of the doubles. -/
def order (x y : Float) : Ordering := compare (orderKey x) (orderKey y)

/-- A finite double without a fraction. -/
def isWhole (x : Float) : Bool :=
  match parts x with
  | .finite _ mantissa exponent => 0 ≤ exponent || mantissa % Nat.pow 2 (-exponent).toNat == 0
  | _ => false

/-- The integer part of a finite double. -/
def toInt (x : Float) : Int :=
  match parts x with
  | .finite negative mantissa exponent =>
    let magnitude : Nat :=
      if 0 ≤ exponent then mantissa * Nat.pow 2 exponent.toNat
      else mantissa / Nat.pow 2 (-exponent).toNat
    if negative then -(magnitude : Int) else magnitude
  | _ => 0

/-- The nearest whole double; halves go away from zero. -/
def round (x : Float) : Float :=
  match parts x with
  | .finite negative mantissa exponent =>
    if 0 ≤ exponent then x
    else
      let unit := Nat.pow 2 (-exponent).toNat
      ofParts negative ((2 * mantissa + unit) / (2 * unit)) 0
  | _ => x

/-- The remainder of a division that rounds its quotient toward zero; its sign is that of `x`. -/
def fmod (x y : Float) : Float :=
  match parts x, parts y with
  | .finite negative m p, .finite _ n q =>
    if n = 0 then 0.0 / 0.0
    else if q ≤ p then ofParts negative (m * Nat.pow 2 (p - q).toNat % n) q
    else ofParts negative (m % (n * Nat.pow 2 (q - p).toNat)) p
  | .finite .., .infinite _ => x
  | _, _ => 0.0 / 0.0

/-- The remainder of a division, shifted so that it is not negative. -/
def emod (x y : Float) : Float :=
  let r := fmod x y
  if r < 0.0 then r + y.abs else r

/-- The double nearest to a decimal number. -/
def ofDecimal (d : Decimal) : Float :=
  let size := (Nat.toDigits 10 d.digits).length + d.exponent
  if d.digits = 0 ∨ size < -400 then 0.0
  else if 400 < size then 1.0 / 0.0
  else Float.ofScientific d.digits (d.exponent < 0) d.exponent.natAbs

/-- The numbers that are rounded to `mantissa * 2 ^ exponent`: up to half a unit away, and only a
quarter below a power of two, where the doubles below are twice as dense. -/
def rounded (mantissa : Nat) (exponent : Int) : Decimal.Rounded :=
  let below := if mantissa = Nat.pow 2 52 ∧ -1074 < exponent then 1 else 2
  let scale := Nat.pow 2 (exponent - 2).toNat
  { low := (4 * mantissa - below) * scale
    value := 4 * mantissa * scale
    high := (4 * mantissa + 2) * scale
    denominator := Nat.pow 2 (2 - exponent).toNat
    closed := mantissa % 2 == 0 }

/-- The fewest digits that read back as the same double, written out in full; the sign of a zero is
written, that of a missing number is not. -/
def text (x : Float) : String :=
  match parts x with
  | .nan => "NaN"
  | .infinite negative => if negative then "-inf" else "inf"
  | .finite negative mantissa exponent =>
    let magnitude := if mantissa = 0 then "0" else (rounded mantissa exponent).shortest.text
    if negative then "-" ++ magnitude else magnitude

end Binary64

/-- The doubles with the arithmetic of the platform. -/
instance : Scalar Float where
  ofInt := Float.ofInt
  ofDecimal := Binary64.ofDecimal
  nan := 0.0 / 0.0
  infinity := 1.0 / 0.0
  euler := 2.718281828459045
  pi := 3.141592653589793
  eq a b := a == b
  lt a b := a < b
  le a b := a ≤ b
  order := Binary64.order
  isNaN := Float.isNaN
  isFinite := Float.isFinite
  isWhole := Binary64.isWhole
  toInt := Binary64.toInt
  abs := Float.abs
  round := Binary64.round
  emod := Binary64.emod
  pow := Float.pow
  log := Float.log
  sin := Float.sin
  cos := Float.cos
  tan := Float.tan
  text := Binary64.text

end SymbolicAlgebra
