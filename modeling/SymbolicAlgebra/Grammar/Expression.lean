import SymbolicAlgebra.Grammar.Reader
import SymbolicAlgebra.Grammar.Table
import SymbolicAlgebra.Token.Basic

/-!
# The grammar of expressions

The grammar that comes with the library, as a text, and its table over the terminals of the lexer.
-/

namespace SymbolicAlgebra.Grammar

/-- The text of the grammar of expressions. -/
def expressionText : String :=
"# Parser grammar for single-line algebraic expressions.
#
# Symbols starting with an uppercase letter are terminals produced by the tokenizer; `@` derives
# the empty string. The first rule names the start symbol.

expr       -> term expr_tail
expr_tail  -> addop term expr_tail
            | @
addop      -> PLUS | MINUS

term       -> factor term_tail
term_tail  -> mulop factor term_tail
            | @
mulop      -> TIMES | DIVIDE

# `^` binds tighter than a leading minus and associates to the right
factor     -> prefix body
prefix     -> MINUS | @
body       -> expo body_tail
body_tail  -> CARET factor | @

expo       -> LPAREN expr RPAREN
            | function
            | var
            | num

function   -> triangular | logarithm
triangular -> trifunc funbody
trifunc    -> SIN | COS | TAN

# log(base)_body
logarithm  -> LOG funbody UNDERSCORE funbody
funbody    -> LPAREN expr RPAREN
            | function
            | var
            | num

var        -> VAR
num        -> NUMBER | CONST
"

/-- The grammar of expressions. -/
def expression : Except Failure Grammar := read expressionText

end SymbolicAlgebra.Grammar

namespace SymbolicAlgebra.Table

/-- The table of the grammar of expressions. -/
def expression : Except Failure Table := do build (← Grammar.expression) Token.alphabet

end SymbolicAlgebra.Table
