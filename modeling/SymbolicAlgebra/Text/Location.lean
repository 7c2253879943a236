/-!
# Lines and columns

The place of a character in a text as it is shown to a reader. A line ends after any of the
characters that Unicode allows to end one, and a carriage return ends one together with a line
feed right after it.
-/

namespace SymbolicAlgebra.Text

/-- The characters that can end a line. -/
def endsLine (c : Char) : Bool :=
  let n := c.toNat
  (10 ≤ n && n ≤ 13) || n == 0x85 || n == 0x2028 || n == 0x2029

/-- A line and a column, both counted from one. -/
structure Location where
  line : Nat
  column : Nat
deriving DecidableEq, Repr

/-- The place of the character number `offset` from one that stands at `l`; the place after the
last character is on the last line even if that is complete. -/
def locateFrom (l : Location) : List Char → Nat → Option Location
  | _, 0 => some l
  | [], _ + 1 => none
  | [_], offset + 1 => if offset = 0 then some ⟨l.line, l.column + 1⟩ else none
  | c :: d :: cs, offset + 1 =>
    if endsLine c && !(c = '\r' && d = '\n') then locateFrom ⟨l.line + 1, 1⟩ (d :: cs) offset
    else locateFrom ⟨l.line, l.column + 1⟩ (d :: cs) offset

/-- The place of the character number `offset` in a text, or of the end after its last. -/
def locate (text : List Char) (offset : Nat) : Option Location := locateFrom ⟨1, 1⟩ text offset

/-- A place as text, with question marks for one that is not in the text. -/
def locationText : Option Location → String
  | some l => toString l.line ++ ":" ++ toString l.column
  | none => "?:?"

end SymbolicAlgebra.Text
