import SymbolicAlgebra.Grammar.Basic

/-!
# Lookahead sets

For each nonterminal the symbols that its texts can begin with, and those that can follow it. Both
are least fixed points: a pass over the rules, each of which adds to the sets as those before it
have left them, is repeated until it adds nothing.
-/

namespace SymbolicAlgebra.Grammar

/-- Sets of symbols by nonterminal, in the order of the rules. -/
abbrev Sets := List (String × List Symbol)

/-- Repeats a pass until it changes nothing, at most `fuel` times. -/
def settle (pass : Sets → Sets) : Nat → Sets → Sets
  | 0, sets => sets
  | fuel + 1, sets =>
    let next := pass sets
    if next = sets then sets else settle pass fuel next

/-- The number of additions that can be made to sets of a grammar: each pass but the last makes
one, so this many passes and one more are enough. -/
def passBound (g : Grammar) (alphabet : List String) : Nat :=
  g.rules.length * (alphabet.length + 2) + 1

/-- Adds symbols to the set of a nonterminal. -/
def addTo (name : String) (symbols : List Symbol) (sets : Sets) : Sets :=
  sets.map fun (other, set) => (other, if other = name then Symbol.insertAll symbols set else set)

/-- One empty set for each rule. -/
def emptySets (g : Grammar) : Sets := g.rules.map fun rule => (rule.lhs, [])

/-- What a symbol can begin with, given that of the nonterminals. -/
def firstOf? (alphabet : List String) (sets : Sets) : Symbol → Option (List Symbol)
  | .terminal name => if alphabet.contains name then some [.terminal name] else none
  | .nonterminal name => sets.lookup name
  | .epsilon => some [.epsilon]
  | .endMarker => some [.endMarker]

/-- What a sequence of symbols can begin with; the empty string is among it if every symbol of the
sequence can vanish. A symbol that is not known ends the sequence. -/
def firstOfSequence (alphabet : List String) (sets : Sets) : List Symbol → List Symbol
  | [] => [.epsilon]
  | symbol :: rest =>
    match firstOf? alphabet sets symbol with
    | none => []
    | some set =>
      let begins := set.filter (· ≠ .epsilon)
      if set.contains .epsilon then Symbol.insertAll begins (firstOfSequence alphabet sets rest)
      else begins

/-- Adds to the set of each nonterminal what its alternatives can begin with, one after the
other. -/
def firstPass (g : Grammar) (alphabet : List String) (sets : Sets) : Sets :=
  g.rules.foldl
    (fun sets rule => rule.alternatives.foldl
      (fun sets alternative => addTo rule.lhs (firstOfSequence alphabet sets alternative) sets)
      sets)
    sets

/-- What each nonterminal can begin with. -/
def firstSets (g : Grammar) (alphabet : List String) : Sets :=
  settle (g.firstPass alphabet) (g.passBound alphabet) g.emptySets

/-- The places in a sequence where a nonterminal stands, each with what comes after it. -/
def nonterminalPlaces : List Symbol → List (String × List Symbol)
  | [] => []
  | .nonterminal name :: rest => (name, rest) :: nonterminalPlaces rest
  | _ :: rest => nonterminalPlaces rest

/-- What can follow a nonterminal at a place in a rule of `lhs`, given what can follow `lhs`. -/
def followAt (alphabet : List String) (first follow : Sets) (lhs : String) (rest : List Symbol) :
    List Symbol :=
  let begins := firstOfSequence alphabet first rest
  let next := begins.filter (· ≠ .epsilon)
  if begins.contains .epsilon then Symbol.insertAll ((follow.lookup lhs).getD []) next else next

/-- Adds to the sets of the nonterminals what can follow them at their places in the rules, one
place after the other. -/
def followPass (g : Grammar) (alphabet : List String) (first follow : Sets) : Sets :=
  g.rules.foldl
    (fun follow rule => rule.alternatives.foldl
      (fun follow alternative => (nonterminalPlaces alternative).foldl
        (fun follow place =>
          addTo place.1 (followAt alphabet first follow rule.lhs place.2) follow)
        follow)
      follow)
    follow

/-- The sets that passes for following symbols start from: the end of the input follows the start
symbol. -/
def startSets (g : Grammar) : Sets :=
  g.rules.map fun rule => (rule.lhs, if rule.lhs = g.start then [.endMarker] else [])

/-- What can follow each nonterminal. -/
def followSets (g : Grammar) (alphabet : List String) (first : Sets) : Sets :=
  settle (g.followPass alphabet first) (g.passBound alphabet) g.startSets

end SymbolicAlgebra.Grammar
