import SymbolicAlgebra.Token.Lexer

/-!
# Token streams

The tokens of a source without the blanks, and a place among them.
-/

namespace SymbolicAlgebra.Token

/-- The tokens that a reader has passed and those that are left, and where the source ends. -/
structure Stream where
  passed : List Token
  rest : List Token
  sourceEnd : Nat

namespace Stream

/-- The stream at the first token of a source. -/
def ofSource (source : String) : Stream :=
  ⟨[], (scan source).filter (!·.isWhitespace), source.utf8ByteSize⟩

/-- The token at the current place, unless all have been passed. -/
def current? (s : Stream) : Option Token := s.rest.head?

/-- Passes the current token, if there is one, and returns it. -/
def advance (s : Stream) : Option Token × Stream :=
  match s.rest with
  | [] => (none, s)
  | token :: rest => (some token, { s with passed := token :: s.passed, rest })

/-- There are tokens left. -/
def hasNext (s : Stream) : Bool := !s.rest.isEmpty

/-- All tokens have been passed. -/
def isEnd (s : Stream) : Bool := s.rest.isEmpty

/-- The span of the current token, or the empty span at the end of the source. -/
def currentSpan (s : Stream) : Text.Span :=
  match s.rest with
  | [] => .point s.sourceEnd
  | token :: _ => token.span

/-- The number of tokens, passed or not. -/
def size (s : Stream) : Nat := s.passed.length + s.rest.length

end Stream

end SymbolicAlgebra.Token
