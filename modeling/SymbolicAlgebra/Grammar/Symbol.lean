/-!
# Grammar symbols

Terminals stand for tokens and nonterminals for what rules define. Two more symbols are written
like words: the empty string and the end of the input. Sets of symbols are lists in the order of
`Symbol.order`, without repeats.
-/

namespace SymbolicAlgebra

/-- A symbol of a grammar. -/
inductive Symbol where
  | terminal (name : String)
  | nonterminal (name : String)
  /-- The empty string. -/
  | epsilon
  /-- The end of the input. -/
  | endMarker
deriving DecidableEq, Repr

namespace Symbol

/-- The symbol that a word of a grammar text stands for: a word with a capital letter of the
English alphabet in front is a terminal. -/
def classify (word : String) : Symbol :=
  match word.toList with
  | ['@'] => epsilon
  | ['$'] => endMarker
  | c :: _ => if c.isUpper then terminal word else nonterminal word
  | [] => nonterminal word

/-- The word that stands for a symbol in a grammar text. -/
def text : Symbol → String
  | terminal name | nonterminal name => name
  | epsilon => "@"
  | endMarker => "$"

/-- The symbol is a terminal. -/
def isTerminal : Symbol → Bool
  | terminal _ => true
  | _ => false

/-- The symbol is a nonterminal. -/
def isNonterminal : Symbol → Bool
  | nonterminal _ => true
  | _ => false

/-- The place of a kind of symbol in the order. -/
def rank : Symbol → Nat
  | terminal _ => 0
  | nonterminal _ => 1
  | epsilon => 2
  | endMarker => 3

/-- Terminals come first, by name, then nonterminals, by name, the empty string and the end. -/
def order (s t : Symbol) : Ordering :=
  (compare s.rank t.rank).then (compare s.text t.text)

/-- Only equal symbols have the same place in the order. -/
theorem order_eq_iff {s t : Symbol} : s.order t = .eq ↔ s = t := by
  cases s <;> cases t <;> simp [order, rank, text, Ordering.then_eq_eq]

/-- Adds a symbol to a set. -/
def insert (s : Symbol) : List Symbol → List Symbol
  | [] => [s]
  | t :: set =>
    match s.order t with
    | .lt => s :: t :: set
    | .eq => t :: set
    | .gt => t :: insert s set

/-- A set with a symbol added has that symbol besides its own. -/
theorem mem_insert {s t : Symbol} {set : List Symbol} : t ∈ insert s set ↔ t = s ∨ t ∈ set := by
  induction set with
  | nil => simp [insert]
  | cons u set ih =>
    simp only [insert]
    split
    · simp
    · next h =>
      rw [order_eq_iff] at h
      simp [h]
    · simp [ih, or_left_comm]

/-- Adds every symbol of a list to a set. -/
def insertAll (symbols set : List Symbol) : List Symbol :=
  symbols.foldl (fun set s => insert s set) set

/-- A set with symbols added has those symbols besides its own. -/
theorem mem_insertAll {t : Symbol} {symbols set : List Symbol} :
    t ∈ insertAll symbols set ↔ t ∈ symbols ∨ t ∈ set := by
  induction symbols generalizing set with
  | nil => simp [insertAll]
  | cons s symbols ih =>
    rw [insertAll, List.foldl_cons]
    refine ih.trans ?_
    rw [mem_insert, List.mem_cons, or_left_comm, or_assoc]

end Symbol

end SymbolicAlgebra
