import SymbolicAlgebra.Grammar.Basic
import SymbolicAlgebra.Text.Blank

/-!
# Reading grammars

A grammar is written with one rule a line, as a nonterminal, an arrow, and alternatives between
bars; a line that starts with a bar goes on with the rule above it. Blank lines and lines that
start with `#` mean nothing.
-/

namespace SymbolicAlgebra.Grammar

/-- A rule that may still be continued: the words after its arrow, and the span so far. -/
structure OpenRule where
  lhs : String
  words : List String
  span : Text.Span

/-- The rule with its words cut into alternatives at the bars. -/
def OpenRule.close (r : OpenRule) : Rule :=
  ⟨r.lhs, (Text.pieces (· == "|") r.words).map (·.map Symbol.classify), r.span⟩

/-- The words of a line. -/
def lineWords (line : List Char) : List String := (Text.words line).map String.ofList

/-- Reads a line that defines a nonterminal. -/
def readDefinition (span : Text.Span) (line : List Char) : Except Failure OpenRule :=
  match lineWords line with
  | [] => .error (.located span .missingArrow)
  | "->" :: _ => .error (.located span .missingLeftHandSide)
  | lhs :: "->" :: words => .ok ⟨lhs, words, span⟩
  | _ => .error (.located span .missingArrow)

/-- Reads the lines from a byte offset on, while a rule may be open. -/
def readLines (offset : Nat) (pending : Option OpenRule) :
    List (List Char) → Except Failure (List Rule)
  | [] => .ok (pending.map OpenRule.close).toList
  | line :: lines =>
    let next := offset + Text.byteLength line
    let start := offset + (Text.byteLength line - Text.byteLength (Text.trimStart line))
    let trimmed := Text.trim line
    let span : Text.Span := ⟨start, start + Text.byteLength trimmed⟩
    match trimmed with
    | [] | '#' :: _ => readLines next pending lines
    | '|' :: _ =>
      match pending with
      | none => .error (.located span .danglingContinuation)
      | some rule =>
        let rule :=
          { rule with
            words := rule.words ++ lineWords trimmed
            span := ⟨rule.span.start, span.stop⟩ }
        readLines next (some rule) lines
    | _ => do
      let rule ← readDefinition span trimmed
      let rules ← readLines next (some rule) lines
      return (pending.map OpenRule.close).toList ++ rules

/-- Reads a grammar. -/
def read (source : String) : Except Failure Grammar := do
  let rules ← readLines 0 none (Text.linesWithEnds source.toList)
  ofRules? rules

end SymbolicAlgebra.Grammar
