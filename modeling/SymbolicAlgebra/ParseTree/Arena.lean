import SymbolicAlgebra.ParseTree.Parser

/-!
# Parsing into an arena

Instead of by nested calls a source is parsed in a loop over a stack of the symbols that are still
wanted, and the nodes of the tree are kept in one array, which they refer to each other in by their
numbers. Every round takes a symbol from the stack, adds a node for it below the node that the stack
names as its parent and, for a nonterminal, puts the symbols of the alternative that the table gives
on the stack. Inner nodes are added with empty spans, which are widened in the end.
-/

namespace SymbolicAlgebra.ParseTree

/-- A node of a tree that is kept in an array: its symbol, its text if it is a token, the region
that it covers, and the numbers of its parent and its children. -/
structure Node where
  symbol : Symbol
  lexeme? : Option String
  span : Text.Span
  parent : Option Nat
  childIds : List Nat
deriving DecidableEq, Repr

/-- The nodes of a tree, each under its number. -/
abbrev Arena := Array Node

namespace Arena

/-- Adds a node behind all others, and its number behind those of its parent's other children. -/
def add (nodes : Arena) (parent : Option Nat) (symbol : Symbol) (lexeme? : Option String)
    (span : Text.Span) : Arena :=
  let added := nodes.push ⟨symbol, lexeme?, span, parent, []⟩
  match parent with
  | none => added
  | some up => added.modify up fun node => { node with childIds := node.childIds ++ [nodes.size] }

/-- Widens the span of a node to cover its children, as far as these cover anything. -/
def widen (nodes : Arena) (id : Nat) : Arena :=
  nodes.modify id fun node =>
    let spans := node.childIds.filterMap fun child => nodes[child]?.map Node.span
    { node with span := .cover node.span spans }

/-- Widens the spans of all nodes, from the last to the first. -/
def finishSpans (nodes : Arena) : Arena := (List.range nodes.size).reverse.foldl widen nodes

end Arena

/-- The loop while symbols are wanted before the tokens that are left, each below a parent, or with
what came of it. -/
inductive Loop where
  | running (nodes : Arena) (stack : List (Symbol × Option Nat)) (rest : List Token)
  | halted (result : Except Failure Arena)

namespace Loop

/-- Puts the symbols of an alternative but the empty string on the stack, from the last to the
first, each below the same node. -/
def expand (alternative : List Symbol) (id : Nat) (stack : List (Symbol × Option Nat)) :
    List (Symbol × Option Nat) :=
  (alternative.reverse.filter (· ≠ .epsilon)).foldl
    (fun stack symbol => (symbol, some id) :: stack) stack

/-- One round: the first symbol is taken from the stack. Where it is the end of the input at the end
of the tokens, or where no symbol is left, the loop is left with the tree. -/
def next (table : Table) (sourceEnd : Nat) : Loop → Loop
  | halted result => halted result
  | running nodes [] [] => halted (.ok nodes.finishSpans)
  | running _ [] (token :: _) => halted (.error (.located token.span .expectedEnd))
  | running nodes ((symbol, parent) :: stack) [] =>
    match symbol with
    | .endMarker => halted (.ok nodes.finishSpans)
    | .epsilon => running nodes stack []
    | .nonterminal _ =>
      if table.isNullable symbol then
        running (nodes.add parent symbol none (.point sourceEnd)) stack []
      else halted (.error (.located (.point sourceEnd) (.unexpectedEnd (expected table symbol))))
    | .terminal _ =>
      halted (.error (.located (.point sourceEnd) (.unexpectedEnd (expected table symbol))))
  | running nodes ((symbol, parent) :: stack) (token :: rest) =>
    match symbol with
    | .terminal name =>
      if token.terminal = name then
        running (nodes.add parent symbol (some token.lexeme) token.span) stack rest
      else halted (.error (unexpectedToken table symbol token))
    | .nonterminal name =>
      match table.lookup? name (.terminal token.terminal) with
      | none => halted (.error (unexpectedToken table symbol token))
      | some alternative =>
        running (nodes.add parent symbol none (.point token.span.start))
          (expand alternative nodes.size stack) (token :: rest)
    | .endMarker => halted (.error (.located token.span .expectedEnd))
    | .epsilon => running nodes stack (token :: rest)

/-- The loop before its first round. -/
def start (table : Table) (stream : Token.Stream) : Loop :=
  running #[] [(.nonterminal table.grammar.start, none), (.endMarker, none)] stream.rest

end Loop

/-- An entry of a tree as a node of an array. -/
def Entry.node (entry : Entry) : Node :=
  ⟨entry.tree.symbol, entry.tree.lexeme?, entry.tree.span, entry.parent, entry.childIds⟩

/-- The nodes of a tree in an array. -/
def arena (tree : ParseTree) : Arena := (tree.entries.map Entry.node).toArray

end SymbolicAlgebra.ParseTree
