import SymbolicAlgebra.Text.Span

/-!
# Tokens

The words of an expression. Every kind of token but the blanks between them is a terminal of the
grammar, under the name that `Token.Kind.name` gives it.
-/

namespace SymbolicAlgebra

/-- The kinds of tokens. -/
inductive Token.Kind where
  | whitespace | plus | minus | times | divide | caret | leftParen | rightParen | underscore
  | sin | cos | tan | log | const | var | number
  /-- A character that begins no other token. -/
  | symbol
deriving DecidableEq, Repr

/-- A token with its text and the region of the source that it was read from. -/
structure Token where
  kind : Token.Kind
  lexeme : String
  span : Text.Span
deriving DecidableEq, Repr

namespace Token

/-- The name of the terminal that tokens of a kind match. -/
def Kind.name : Kind → String
  | .whitespace => "WHITESPACE"
  | .plus => "PLUS"
  | .minus => "MINUS"
  | .times => "TIMES"
  | .divide => "DIVIDE"
  | .caret => "CARET"
  | .leftParen => "LPAREN"
  | .rightParen => "RPAREN"
  | .underscore => "UNDERSCORE"
  | .sin => "SIN"
  | .cos => "COS"
  | .tan => "TAN"
  | .log => "LOG"
  | .const => "CONST"
  | .var => "VAR"
  | .number => "NUMBER"
  | .symbol => "SYMBOL"

/-- The kinds that are terminals of the grammar. -/
def Kind.terminals : List Kind :=
  [.plus, .minus, .times, .divide, .caret, .leftParen, .rightParen, .underscore, .sin, .cos, .tan,
    .log, .const, .var, .number, .symbol]

/-- The names of all terminals that a source can produce. -/
def alphabet : List String := Kind.terminals.map Kind.name

/-- The name of the terminal that a token matches. -/
def terminal (t : Token) : String := t.kind.name

/-- A token of blanks, which the grammar never sees. -/
def isWhitespace (t : Token) : Bool := t.kind == .whitespace

end Token

end SymbolicAlgebra
