import SymbolicAlgebra.Failure.Basic
import SymbolicAlgebra.Grammar.Symbol

/-!
# Grammars

A context-free grammar is a list of rules, each of which lists the alternatives of one
nonterminal; the first rule is that of the start symbol. A grammar has at least one rule, defines
no nonterminal twice and every one that it uses, and has no alternative without symbols.
-/

namespace SymbolicAlgebra

/-- A nonterminal with what it may be replaced by, and where the rule stands in its text. -/
structure Rule where
  lhs : String
  alternatives : List (List Symbol)
  span : Text.Span
deriving DecidableEq, Repr

namespace Rule

/-- The first rule with the name of an earlier one, together with that one. -/
def duplicate? (earlier : List Rule) : List Rule → Option (Rule × Rule)
  | [] => none
  | rule :: rules =>
    match earlier.find? (·.lhs == rule.lhs) with
    | some previous => some (previous, rule)
    | none => duplicate? (earlier ++ [rule]) rules

/-- The first thing wrong with an alternative, given the nonterminals that have rules. -/
def alternativeFault? (defined : List String) (rule : Rule) (alternative : List Symbol) :
    Option Failure :=
  if alternative.isEmpty then some (.located rule.span (.emptyAlternative rule.lhs))
  else
    alternative.findSome? fun
      | .nonterminal name =>
        if defined.contains name then none
        else some (.located rule.span (.undefinedNonterminal name))
      | _ => none

end Rule

/-- The first reason why rules do not make up a grammar. -/
def Grammar.fault? (rules : List Rule) : Option Failure :=
  match Rule.duplicate? [] rules with
  | some (previous, rule) => some ⟨.duplicateRule rule.lhs, [previous.span, rule.span]⟩
  | none =>
    rules.findSome? fun rule =>
      rule.alternatives.findSome? (rule.alternativeFault? (rules.map Rule.lhs))

/-- Rules that have been found to make up a grammar. -/
structure Grammar where
  first : Rule
  others : List Rule
  sound : Grammar.fault? (first :: others) = none

namespace Grammar

/-- The rules in the order of their definition. -/
def rules (g : Grammar) : List Rule := g.first :: g.others

/-- The start symbol. -/
def start (g : Grammar) : String := g.first.lhs

/-- The grammar that rules make up. -/
def ofRules? : List Rule → Except Failure Grammar
  | [] => .error (.detached .emptyGrammar)
  | first :: others =>
    match h : fault? (first :: others) with
    | some failure => .error failure
    | none => .ok ⟨first, others, h⟩

/-- The rule of a nonterminal. -/
def rule? (g : Grammar) (name : String) : Option Rule := g.rules.find? (·.lhs == name)

/-- Every symbol in the alternatives, in order, with the rule that it stands in. -/
def symbols (g : Grammar) : List (Rule × Symbol) :=
  g.rules.flatMap fun rule => rule.alternatives.flatten.map fun symbol => (rule, symbol)

end Grammar

end SymbolicAlgebra
