/-!
# Blank characters

The characters that Unicode marks with the property White_Space, and what the readers of this
library do with them: drop them at the ends of a text, and split a text into words at them.
-/

namespace SymbolicAlgebra.Text

/-- A character is blank when Unicode gives it the property White_Space. -/
def isBlank (c : Char) : Bool :=
  let n := c.toNat
  (9 ≤ n && n ≤ 13) || n == 0x20 || n == 0x85 || n == 0xA0 || n == 0x1680 ||
    (0x2000 ≤ n && n ≤ 0x200A) || n == 0x2028 || n == 0x2029 || n == 0x202F || n == 0x205F ||
    n == 0x3000

/-- Drops the blanks at the start of a text. -/
def trimStart (cs : List Char) : List Char := cs.dropWhile isBlank

/-- Drops the blanks at the end of a text. -/
def trimEnd (cs : List Char) : List Char := (cs.reverse.dropWhile isBlank).reverse

/-- Drops the blanks at both ends of a text. -/
def trim (cs : List Char) : List Char := trimEnd (trimStart cs)

/-- The words of a text that follow the letters in `word`, which are in reverse order. -/
def wordsAfter (word : List Char) : List Char → List (List Char)
  | [] => if word.isEmpty then [] else [word.reverse]
  | c :: cs =>
    if isBlank c then
      if word.isEmpty then wordsAfter [] cs else word.reverse :: wordsAfter [] cs
    else wordsAfter (c :: word) cs

/-- The maximal runs of characters that are not blank, in order. -/
def words (cs : List Char) : List (List Char) := wordsAfter [] cs

/-- The number of bytes that a text takes in UTF-8. -/
def byteLength : List Char → Nat
  | [] => 0
  | c :: cs => c.utf8Size + byteLength cs

/-- The byte length of two texts in a row is the sum of theirs. -/
theorem byteLength_append (xs ys : List Char) :
    byteLength (xs ++ ys) = byteLength xs + byteLength ys := by
  induction xs with
  | nil => simp [byteLength]
  | cons c xs ih => simp [byteLength, ih, Nat.add_assoc]

/-- The pieces of a list between the places where `cut` holds; what stands there is dropped. -/
def pieces {β : Type} (cut : β → Bool) : List β → List (List β)
  | [] => [[]]
  | b :: bs =>
    if cut b then [] :: pieces cut bs
    else
      match pieces cut bs with
      | [] => [[b]]
      | piece :: rest => (b :: piece) :: rest

/-- What comes before and after the first place where `cut` holds, if there is one. -/
def splitFirst {β : Type} (cut : β → Bool) : List β → Option (List β × List β)
  | [] => none
  | b :: bs =>
    if cut b then some ([], bs)
    else (splitFirst cut bs).map fun (before, after) => (b :: before, after)

/-- The lines of a text, each with the line feed that ends it. -/
def linesWithEnds : List Char → List (List Char)
  | [] => []
  | c :: cs =>
    if c = '\n' then [c] :: linesWithEnds cs
    else
      match linesWithEnds cs with
      | [] => [[c]]
      | line :: lines => (c :: line) :: lines

/-- No character is lost where a text is cut into lines. -/
theorem flatten_linesWithEnds (cs : List Char) : (linesWithEnds cs).flatten = cs := by
  induction cs with
  | nil => rfl
  | cons c cs ih =>
    simp only [linesWithEnds]
    split
    · simp [ih]
    · split
      · next h => simp [h] at ih; simp [← ih]
      · next h => simp [h] at ih; simp [← ih]

/-- A line without its line feed, and without one carriage return before that. -/
def dropLineEnd (line : List Char) : List Char :=
  match line.reverse with
  | '\n' :: '\r' :: rest => rest.reverse
  | '\n' :: rest => rest.reverse
  | _ => line

/-- The lines of a text without what ends them. -/
def lines (cs : List Char) : List (List Char) := (linesWithEnds cs).map dropLineEnd

end SymbolicAlgebra.Text
