import SymbolicAlgebra.Decimal.Basic

/-!
# Shortest decimals

A number that is stored with a limited precision stands for all the numbers that are rounded to
it, an interval around it. Of the decimals inside that interval the ones with the fewest digits
are wanted, and of those the one nearest to the stored number; where two are equally near, the
larger. Everything is computed with natural numbers, so nothing is rounded here.
-/

namespace SymbolicAlgebra.Decimal

/-- A positive number and the interval of the numbers that are rounded to it, as fractions over one
denominator; `closed` tells whether the two ends belong to it. -/
structure Rounded where
  low : Nat
  value : Nat
  high : Nat
  denominator : Nat
  closed : Bool

namespace Rounded

/-- A number `n / r.denominator` lies in the interval. -/
def holds (r : Rounded) (n : Nat) : Bool :=
  if r.closed then r.low ≤ n && n ≤ r.high else r.low < n && n < r.high

/-- The same interval, measured in units of `10 ^ exponent`. -/
def inUnits (r : Rounded) (exponent : Int) : Rounded :=
  if 0 ≤ exponent then { r with denominator := r.denominator * Nat.pow 10 exponent.toNat }
  else
    let scale := Nat.pow 10 (-exponent).toNat
    { r with low := r.low * scale, value := r.value * scale, high := r.high * scale }

/-- The multiple of `10 ^ exponent` in the interval that is nearest to the value, if there is one
among the two next to it. -/
def nearest? (r : Rounded) (exponent : Int) : Option Decimal :=
  let r := r.inUnits exponent
  let below := r.value / r.denominator
  let down := below * r.denominator
  let up := down + r.denominator
  if r.holds down && (!r.holds up || r.value - down < up - r.value) then some ⟨below, exponent⟩
  else if r.holds up then some ⟨below + 1, exponent⟩
  else none

/-- The exponent of the power of ten at or next below the value. -/
def magnitude (r : Rounded) : Int :=
  let gap : Int := (Nat.toDigits 10 r.value).length - (Nat.toDigits 10 r.denominator).length
  let scaled := r.inUnits gap
  if scaled.denominator ≤ scaled.value then gap else gap - 1

/-- The first hit among grids of ever smaller units, of which `count` are left to try. -/
def search (r : Rounded) : Nat → Int → Decimal
  | 0, exponent => ⟨(r.inUnits exponent).value / (r.inUnits exponent).denominator, exponent⟩
  | count + 1, exponent =>
    match r.nearest? exponent with
    | some d => d
    | none => search r count (exponent - 1)

/-- The decimal with the fewest digits that lies in the interval, nearest to the value. -/
def shortest (r : Rounded) : Decimal := (r.search 17 r.magnitude).normalize

end Rounded

end SymbolicAlgebra.Decimal
