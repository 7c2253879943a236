import SymbolicAlgebra.Text.Span

/-!
# Failures

Why a text cannot be read, a grammar not be used, or an expression not be worked on, and which
regions of a text are to blame.
-/

namespace SymbolicAlgebra

/-- The causes for which an operation of this library can fail. -/
inductive Fault where
  /-- A line of a grammar has no arrow after its first word. -/
  | missingArrow
  /-- A line of a grammar starts with the arrow. -/
  | missingLeftHandSide
  /-- A rule has an alternative without symbols. -/
  | emptyAlternative (nonterminal : String)
  /-- A line continues a rule where there is none. -/
  | danglingContinuation
  /-- Two rules define the same nonterminal. -/
  | duplicateRule (nonterminal : String)
  /-- A nonterminal is used but not defined. -/
  | undefinedNonterminal (nonterminal : String)
  /-- A terminal is used that is not in the alphabet. -/
  | unknownTerminal (terminal : String) (alphabet : List String)
  /-- There is no rule. -/
  | emptyGrammar
  /-- Two alternatives of a rule, counted from zero, can start with the same symbol. -/
  | grammarConflict (nonterminal lookahead : String) (first second : Nat)
  /-- The source ends where a token is needed. -/
  | unexpectedEnd (expected : List String)
  /-- The source goes on where it should end. -/
  | expectedEnd
  /-- A token stands where none of its kind can. -/
  | unexpectedToken (expected : List String) (found lexeme : String)
  /-- A variable has no value; some with similar names have one. -/
  | unboundVariable (name : String) (suggestions : List String)
  /-- An expression has more nodes than allowed. -/
  | tooManyNodes (limit found : Nat)
  /-- An expression is nested deeper than allowed. -/
  | tooDeep (limit : Nat)
  /-- An expression keeps changing for longer than allowed. -/
  | unsettled (rounds : Nat)
  /-- A part of a parse tree has no reading as an expression. -/
  | unreadableSymbol (symbol : String)
  /-- A numeral is not a number. -/
  | invalidNumber (lexeme : String)
  /-- A value for a variable is not written as one. -/
  | invalidBinding (text : String)
  /-- An argument of the program has no meaning. -/
  | invalidArgument (argument reason : String)
  /-- The bound on the number of nested steps of a computation was too small for it. -/
  | workExhausted
deriving DecidableEq, Repr

/-- A cause with the regions of the text that are to blame, of which there may be none. -/
structure Failure where
  fault : Fault
  spans : List Text.Span
deriving DecidableEq, Repr

namespace Failure

/-- A failure that blames one region. -/
def located (span : Text.Span) (fault : Fault) : Failure := ⟨fault, [span]⟩

/-- A failure that blames no region. -/
def detached (fault : Fault) : Failure := ⟨fault, []⟩

end Failure

end SymbolicAlgebra
