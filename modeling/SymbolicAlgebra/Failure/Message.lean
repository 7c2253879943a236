import SymbolicAlgebra.Failure.Basic
import SymbolicAlgebra.Text.Blank

/-!
# The wording of failures

For each cause a message, a label for each region to blame, and, for some, a help or a note.
-/

namespace SymbolicAlgebra

/-- A word between grave accents. -/
def quoted (word : String) : String := "`" ++ word ++ "`"

/-- The terminals that could stand at a place, in words. -/
def oneOf : List String → String
  | [] => "nothing"
  | [terminal] => quoted terminal
  | terminals => "one of: " ++ ", ".intercalate (terminals.map quoted)

namespace Fault

/-- What went wrong, in one line. -/
def message : Fault → String
  | missingArrow => "malformed grammar rule"
  | missingLeftHandSide => "grammar rule has no left-hand side"
  | emptyAlternative nonterminal => "rule " ++ quoted nonterminal ++ " has an empty alternative"
  | danglingContinuation => "continuation line does not belong to any rule"
  | duplicateRule nonterminal =>
    "nonterminal " ++ quoted nonterminal ++ " is defined more than once"
  | undefinedNonterminal nonterminal => "nonterminal " ++ quoted nonterminal ++ " has no rule"
  | unknownTerminal terminal _ =>
    "terminal " ++ quoted terminal ++ " is not produced by the tokenizer"
  | emptyGrammar => "grammar has no rules"
  | grammarConflict nonterminal lookahead _ _ =>
    "grammar is not LL(1): " ++ quoted nonterminal ++ " has two alternatives starting with " ++
      quoted lookahead
  | unexpectedEnd _ => "unexpected end of input"
  | expectedEnd => "expected end of input"
  | unexpectedToken _ _ lexeme => "unexpected token " ++ quoted lexeme
  | unboundVariable name _ => "unknown variable " ++ quoted name
  | tooManyNodes _ _ => "expression is too large to simplify"
  | tooDeep _ => "expression is nested too deeply"
  | unsettled _ => "expression did not settle on a canonical form"
  | unreadableSymbol symbol => "cannot build an expression from " ++ quoted symbol
  | invalidNumber lexeme => "invalid number " ++ quoted lexeme
  | invalidBinding text =>
    "invalid binding " ++ quoted (String.ofList (Text.trim text.toList))
  | invalidArgument argument reason => "invalid argument " ++ quoted argument ++ ": " ++ reason
  | workExhausted => "the computation is too long"

/-- What each region to blame has to do with it. -/
def labels : Fault → List String
  | missingArrow | missingLeftHandSide | danglingContinuation => ["this line"]
  | emptyAlternative _ | grammarConflict .. => ["in this rule"]
  | duplicateRule _ => ["first defined here", "defined again here"]
  | undefinedNonterminal _ | unknownTerminal .. => ["used in this rule"]
  | unexpectedEnd expected => ["expected " ++ oneOf expected ++ " here"]
  | expectedEnd => ["I could not understand the remaining expression here"]
  | unexpectedToken expected _ _ => ["expected " ++ oneOf expected]
  | unboundVariable .. => ["this variable"]
  | tooManyNodes .. | unsettled _ => ["this expression"]
  | tooDeep _ => ["this subexpression"]
  | unreadableSymbol _ => ["this part of the input"]
  | invalidNumber _ => ["this literal"]
  | invalidBinding _ => ["expected " ++ quoted "name=value"]
  | emptyGrammar | invalidArgument .. | workExhausted => []

/-- What can be done about it. -/
def help? : Fault → Option String
  | missingArrow => some "rules are written as name -> symbols | symbols"
  | missingLeftHandSide => some ("name the nonterminal being defined before the " ++ quoted "->")
  | emptyAlternative _ => some "write @ for an alternative deriving the empty string"
  | danglingContinuation =>
    some ("lines starting with " ++ quoted "|" ++ " add alternatives to the rule above them")
  | duplicateRule _ =>
    some ("list every alternative in one rule, using " ++ quoted "|" ++
      " continuation lines if needed")
  | unknownTerminal _ alphabet =>
    some ("the tokenizer produces: " ++ ", ".intercalate alphabet)
  | emptyGrammar => some "add at least one rule; the first rule names the start symbol"
  | unexpectedEnd _ => some "you might need to add another expression"
  | unexpectedToken _ found _ => some ("found " ++ found)
  | unboundVariable name [] => some ("bind a value to " ++ name ++ " before evaluating")
  | unboundVariable _ suggestions => some ("did you mean: " ++ ", ".intercalate suggestions)
  | tooManyNodes limit found =>
    some ("the expression reached " ++ toString found ++ " nodes, over the limit of " ++
      toString limit)
  | tooDeep limit => some ("expressions may be nested at most " ++ toString limit ++ " levels deep")
  | unreadableSymbol _ =>
    some "the grammar must use the nonterminal names of the bundled expression grammar"
  | invalidBinding _ => some "bind variables after a semicolon: x^2 ; x=3, y=0.5"
  | undefinedNonterminal _ | grammarConflict .. | expectedEnd | unsettled _ | invalidNumber _
  | invalidArgument .. | workExhausted => none

/-- What else is known about it. -/
def note? : Fault → Option String
  | grammarConflict _ _ first second =>
    some ("alternatives " ++ toString (first + 1) ++ " and " ++ toString (second + 1) ++
      " conflict")
  | unsettled rounds => some ("gave up after " ++ toString rounds ++ " rounds")
  | _ => none

end Fault

namespace Failure

/-- The labels of a failure: one for each region to blame. -/
def labels (f : Failure) : List String := (f.fault.labels.zip f.spans).map Prod.fst

/-- The help that is shown below the regions to blame; without a region none is shown. -/
def help? (f : Failure) : Option String := if f.spans.isEmpty then none else f.fault.help?

/-- The note that is shown below the regions to blame; without a region none is shown. -/
def note? (f : Failure) : Option String := if f.spans.isEmpty then none else f.fault.note?

end Failure

end SymbolicAlgebra
