import SymbolicAlgebra.Text.Blank
import SymbolicAlgebra.Token.Basic

/-!
# Reading tokens

A source is cut into the longest tokens from left to right. Nothing is refused: a character that
begins no other token is a token of its own, so the tokens always cover the whole source.
-/

namespace SymbolicAlgebra.Token

/-- The characters that may stand between tokens. -/
def isSpace (c : Char) : Bool := c = ' ' || c = '\t' || c = '\n' || c = '\r'

/-- The number of characters of a numeral that follow its first digit: more digits and then, if a
digit comes after it, a point and the digits of the fraction. -/
def numeralTail (cs : List Char) : Nat :=
  let whole := (cs.takeWhile Char.isDigit).length
  match cs.drop whole with
  | '.' :: d :: rest =>
    if d.isDigit then whole + 2 + (rest.takeWhile Char.isDigit).length else whole
  | _ => whole

/-- The kind of a token that begins with a letter, and the number of letters that follow the first:
a name of a function or a constant where one stands, otherwise a variable of one letter. -/
def wordKind : Char → List Char → Kind × Nat
  | 's', 'i' :: 'n' :: _ => (.sin, 2)
  | 'c', 'o' :: 's' :: _ => (.cos, 2)
  | 't', 'a' :: 'n' :: _ => (.tan, 2)
  | 'l', 'o' :: 'g' :: _ => (.log, 2)
  | 'p', 'i' :: _ => (.const, 1)
  | 'e', _ => (.const, 0)
  | _, _ => (.var, 0)

/-- The kind of a token that is a single mark. -/
def markKind : Char → Kind
  | '+' => .plus
  | '-' => .minus
  | '*' => .times
  | '/' => .divide
  | '^' => .caret
  | '(' => .leftParen
  | ')' => .rightParen
  | '_' => .underscore
  | _ => .symbol

/-- The kind of the longest token at a place, and how many characters it takes after the first. -/
def munch (c : Char) (cs : List Char) : Kind × Nat :=
  if isSpace c then (.whitespace, (cs.takeWhile isSpace).length)
  else if c.isDigit then (.number, numeralTail cs)
  else if c.isAlpha then wordKind c cs
  else (markKind c, 0)

/-- The tokens of the characters from a byte offset on. -/
def scanFrom (offset : Nat) : List Char → List Token
  | [] => []
  | c :: cs =>
    let found := munch c cs
    let lexeme := c :: cs.take found.2
    let stop := offset + Text.byteLength lexeme
    ⟨found.1, String.ofList lexeme, ⟨offset, stop⟩⟩ :: scanFrom stop (cs.drop found.2)
termination_by cs => cs.length

/-- All tokens of a source, those of blanks included. -/
def scan (source : String) : List Token := scanFrom 0 source.toList

/-- Nothing of the source is lost: the texts of its tokens in a row are the source. -/
theorem flatMap_lexeme_scanFrom (offset : Nat) (cs : List Char) :
    (scanFrom offset cs).flatMap (·.lexeme.toList) = cs := by
  fun_induction scanFrom offset cs with
  | case1 => rfl
  | case2 offset c cs found lexeme stop ih => simp [ih, lexeme]

end SymbolicAlgebra.Token
