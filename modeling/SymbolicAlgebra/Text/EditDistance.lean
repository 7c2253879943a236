/-!
# Edit distance

The least number of characters to insert, drop or replace to turn one text into another. It is
computed row by row: the row of a first text holds its distances to every start of the second.
-/

namespace SymbolicAlgebra.Text

/-- The rest of the next row, given the entry to the left and the row above from there on. -/
def distanceRow (c : Char) : List Char → List Nat → Nat → List Nat
  | d :: target, diagonal :: above :: row, left =>
    let here := min (min (left + 1) (above + 1)) (if c = d then diagonal else diagonal + 1)
    here :: distanceRow c target (above :: row) here
  | _, _, _ => []

/-- The row of a text with one more character, from the row of the text without it. -/
def nextDistanceRow (target : List Char) (row : List Nat) (c : Char) : List Nat :=
  let first := row.headD 0 + 1
  first :: distanceRow c target row first

/-- The least number of insertions, removals and replacements that turn `source` into `target`. -/
def editDistance (source target : List Char) : Nat :=
  (source.foldl (nextDistanceRow target) (List.range (target.length + 1))).getLastD 0

example : editDistance "kitten".toList "sitting".toList = 3 := by decide +kernel
example : editDistance "".toList "xy".toList = 2 := by decide +kernel

end SymbolicAlgebra.Text
