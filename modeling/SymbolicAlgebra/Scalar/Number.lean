import SymbolicAlgebra.Scalar.Basic

/-!
# Numbers

The numbers that can stand in an expression: literals, and constants that keep their names.
-/

namespace SymbolicAlgebra

/-- A constant that is known by its name. -/
inductive Constant where
  | e
  | pi
deriving DecidableEq, Repr

namespace Constant

/-- The name of a constant. -/
def name : Constant → String
  | e => "e"
  | pi => "pi"

/-- The constant with a name. -/
def ofName? : String → Option Constant
  | "e" => some e
  | "pi" => some pi
  | _ => none

/-- The value of a constant. -/
def value {α : Type} [Scalar α] : Constant → α
  | e => Scalar.euler
  | pi => Scalar.pi

/-- The place of a constant in the order. -/
def rank : Constant → Nat
  | e => 0
  | pi => 1

end Constant

/-- A literal or a constant. -/
inductive Number (α : Type) where
  | real (value : α)
  | constant (c : Constant)

namespace Number

variable {α : Type} [Scalar α]

/-- A literal; zero is stored without a sign. -/
def literal (value : α) : Number α := real (Scalar.unsignZero value)

/-- The value of a number. -/
def value : Number α → α
  | real v => v
  | constant c => c.value

/-- The value of a literal. -/
def real? : Number α → Option α
  | real v => some v
  | constant _ => none

/-- Literals come first, by value, and then the constants. -/
def order : Number α → Number α → Ordering
  | real a, real b => Scalar.order a b
  | real _, constant _ => .lt
  | constant _, real _ => .gt
  | constant a, constant b => compare a.rank b.rank

/-- The text of a number. -/
def text : Number α → String
  | real v => Scalar.text v
  | constant c => c.name

end Number

end SymbolicAlgebra
