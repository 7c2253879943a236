import SymbolicAlgebra.Grammar.Lookahead

/-!
# Predictive tables

For each nonterminal and each symbol that may come next, the alternative to take. A grammar whose
alternatives are not told apart by one symbol has no table.
-/

namespace SymbolicAlgebra

/-- A grammar with its lookahead sets and, for each nonterminal, the number of the alternative to
take by the symbol that comes next. -/
structure Table where
  grammar : Grammar
  alphabet : List String
  first : Grammar.Sets
  follow : Grammar.Sets
  rows : List (String × List (Symbol × Nat))

namespace Table

/-- The names in the order of their characters, without repeats. -/
def sortNames (names : List String) : List String :=
  (names.mergeSort fun a b => decide (a ≤ b)).eraseReps

/-- What shows that an alternative is to be taken: what it can begin with, and what can follow the
nonterminal if the alternative can vanish. -/
def lookaheads (alphabet : List String) (first follow : Grammar.Sets) (lhs : String)
    (alternative : List Symbol) : List Symbol :=
  let begins := Grammar.firstOfSequence alphabet first alternative
  let next := begins.filter (· ≠ .epsilon)
  if begins.contains .epsilon then Symbol.insertAll ((follow.lookup lhs).getD []) next else next

/-- Gives each of the symbols to alternative `index`, unless one of them is taken. -/
def claim (rule : Rule) (index : Nat) (row : List (Symbol × Nat)) :
    List Symbol → Except Failure (List (Symbol × Nat))
  | [] => .ok row
  | symbol :: symbols =>
    match row.lookup symbol with
    | some earlier =>
      .error (.located rule.span (.grammarConflict rule.lhs symbol.text earlier index))
    | none => claim rule index (row ++ [(symbol, index)]) symbols

/-- The row of a rule, given the symbols that show each of its alternatives from number `index` on
to be taken. -/
def fillRow (rule : Rule) (index : Nat) (row : List (Symbol × Nat)) :
    List (List Symbol) → Except Failure (List (Symbol × Nat))
  | [] => .ok row
  | symbols :: rest => do fillRow rule (index + 1) (← claim rule index row symbols) rest

/-- The first terminal of a grammar that is not in an alphabet. -/
def unknownTerminal? (g : Grammar) (alphabet : List String) : Option Failure :=
  g.symbols.findSome? fun
    | (rule, .terminal name) =>
      if alphabet.contains name then none
      else some (.located rule.span (.unknownTerminal name alphabet))
    | _ => none

/-- The table of a grammar whose terminals are those of an alphabet. -/
def build (g : Grammar) (names : List String) : Except Failure Table :=
  let alphabet := sortNames names
  match unknownTerminal? g alphabet with
  | some failure => .error failure
  | none => do
    let first := g.firstSets alphabet
    let follow := g.followSets alphabet first
    let rows ← g.rules.mapM fun rule => do
      let row ← fillRow rule 0 [] (rule.alternatives.map (lookaheads alphabet first follow rule.lhs))
      return (rule.lhs, row)
    return ⟨g, alphabet, first, follow, rows⟩

/-- What a symbol can begin with, if it is known. -/
def first? (t : Table) (symbol : Symbol) : Option (List Symbol) :=
  Grammar.firstOf? t.alphabet t.first symbol

/-- What can follow a symbol: a terminal counts as followed by itself. -/
def follow? (t : Table) : Symbol → Option (List Symbol)
  | .terminal name => if t.alphabet.contains name then some [.terminal name] else none
  | .nonterminal name => t.follow.lookup name
  | .epsilon | .endMarker => none

/-- The symbol can vanish. -/
def isNullable (t : Table) (symbol : Symbol) : Bool :=
  ((t.first? symbol).getD []).contains .epsilon

/-- The alternative to take for a nonterminal when `next` comes next. -/
def lookup? (t : Table) (name : String) (next : Symbol) : Option (List Symbol) := do
  let row ← t.rows.lookup name
  let index ← row.lookup next
  let rule ← t.grammar.rule? name
  rule.alternatives[index]?

/-- The number of entries. -/
def size (t : Table) : Nat := t.rows.foldl (fun count row => count + row.2.length) 0

end Table

end SymbolicAlgebra
