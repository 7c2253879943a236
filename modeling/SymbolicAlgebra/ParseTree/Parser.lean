import SymbolicAlgebra.Grammar.Table
import SymbolicAlgebra.ParseTree.Basic
import SymbolicAlgebra.Token.Stream

/-!
# Predictive parsing

A nonterminal is replaced by the alternative that the table gives for the next token, and each
symbol of the alternative is parsed in turn; nothing is ever taken back. On a path down the tree
no nonterminal is met twice before the same token, so the depth of the tree is bounded by the
numbers of tokens and rules.
-/

namespace SymbolicAlgebra.ParseTree

/-- What parsing a symbol gives: the trees it adds, the tokens after them, and whether the end of
the input was met as a symbol, which ends the parse. -/
structure Parsed where
  trees : List ParseTree
  rest : List Token
  ended : Bool

/-- The terminals that can begin a symbol, for error messages. -/
def expected (table : Table) : Symbol → List String
  | .nonterminal name =>
    (((table.first? (.nonterminal name)).getD []).filter (· ≠ .epsilon)).map Symbol.text
  | symbol => [symbol.text]

/-- A failure at a token that cannot stand where a symbol is wanted. -/
def unexpectedToken (table : Table) (symbol : Symbol) (token : Token) : Failure :=
  .located token.span (.unexpectedToken (expected table symbol) token.terminal token.lexeme)

/-- Parses the symbols of a list in turn with the parser of a symbol. -/
def parseAll (parse : Symbol → List Token → Except Failure Parsed) :
    List Symbol → List Token → Except Failure Parsed
  | [], tokens => .ok ⟨[], tokens, false⟩
  | symbol :: symbols, tokens => do
    let here ← parse symbol tokens
    if here.ended then return here
    let more ← parseAll parse symbols here.rest
    return { more with trees := here.trees ++ more.trees }

/-- Parses a symbol where no token is left: only the end of the input and symbols that can vanish
may be wanted. -/
def parseAtEnd (table : Table) (sourceEnd : Nat) (symbol : Symbol) : Except Failure Parsed :=
  match symbol with
  | .endMarker => .ok ⟨[], [], true⟩
  | .epsilon => .ok ⟨[], [], false⟩
  | .nonterminal name =>
    if table.isNullable symbol then .ok ⟨[ofChildren name sourceEnd []], [], false⟩
    else .error (.located (.point sourceEnd) (.unexpectedEnd (expected table symbol)))
  | .terminal _ => .error (.located (.point sourceEnd) (.unexpectedEnd (expected table symbol)))

/-- Parses a symbol by a tree of depth at most `fuel`. -/
def parseSymbol (table : Table) (sourceEnd : Nat) :
    Nat → Symbol → List Token → Except Failure Parsed
  | 0, _, _ => .error (.detached .workExhausted)
  | _ + 1, symbol, [] => parseAtEnd table sourceEnd symbol
  | fuel + 1, symbol, token :: tokens =>
    match symbol with
    | .endMarker => .error (.located token.span .expectedEnd)
    | .epsilon => .ok ⟨[], token :: tokens, false⟩
    | .terminal name =>
      if token.terminal = name then .ok ⟨[leaf token], tokens, false⟩
      else .error (unexpectedToken table symbol token)
    | .nonterminal name =>
      match table.lookup? name (.terminal token.terminal) with
      | none => .error (unexpectedToken table symbol token)
      | some alternative => do
        let below ← parseAll (parseSymbol table sourceEnd fuel) alternative (token :: tokens)
        return { below with trees := [ofChildren name token.span.start below.trees] }

/-- The greatest depth that a parse tree can have. -/
def depthBound (table : Table) (tokens : List Token) : Nat :=
  (tokens.length + 1) * (table.grammar.rules.length + 1) + 1

/-- Parses a stream of tokens to its end. -/
def ofStream (table : Table) (stream : Token.Stream) : Except Failure ParseTree := do
  let start := Symbol.nonterminal table.grammar.start
  let parsed ← parseSymbol table stream.sourceEnd (depthBound table stream.rest) start stream.rest
  match parsed.rest, parsed.trees with
  | token :: _, _ => .error (.located token.span .expectedEnd)
  | [], tree :: _ => .ok tree
  | [], [] => .error (.located (.point stream.sourceEnd) (.unexpectedEnd (expected table start)))

/-- Parses a source. -/
def parse (table : Table) (source : String) : Except Failure ParseTree :=
  ofStream table (.ofSource source)

end SymbolicAlgebra.ParseTree
