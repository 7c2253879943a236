import SymbolicAlgebra.Grammar.Symbol
import SymbolicAlgebra.Token.Basic

/-!
# Parse trees

How a grammar derives the tokens of a source. Nodes are numbered in the order in which they are
met from the root down and from left to right.
-/

namespace SymbolicAlgebra

/-- A token, or a nonterminal with what it was replaced by and the region that it covers. -/
inductive ParseTree where
  | leaf (token : Token)
  | node (nonterminal : String) (span : Text.Span) (children : List ParseTree)

namespace ParseTree

/-- The symbol of the root. -/
def symbol : ParseTree → Symbol
  | leaf token => .terminal token.terminal
  | node name _ _ => .nonterminal name

/-- The text of a token. -/
def lexeme? : ParseTree → Option String
  | leaf token => some token.lexeme
  | node .. => none

/-- The region that the tree covers. -/
def span : ParseTree → Text.Span
  | leaf token => token.span
  | node _ span _ => span

/-- The trees below the root. -/
def children : ParseTree → List ParseTree
  | leaf _ => []
  | node _ _ children => children

/-- The tree derives the empty string at its root. -/
def isEmpty : ParseTree → Bool
  | leaf _ => false
  | node _ _ children => children.isEmpty

/-- A nonterminal over trees: it covers what they cover, or the empty span at `home`. -/
def ofChildren (nonterminal : String) (home : Nat) (children : List ParseTree) : ParseTree :=
  node nonterminal (.cover (.point home) (children.map span)) children

mutual

/-- The number of nodes. -/
def size : ParseTree → Nat
  | leaf _ => 1
  | node _ _ children => 1 + sizeList children

/-- The number of nodes of all trees of a list. -/
def sizeList : List ParseTree → Nat
  | [] => 0
  | tree :: trees => size tree + sizeList trees

end

mutual

/-- The tokens at the leaves, from left to right. -/
def tokens : ParseTree → List Token
  | leaf token => [token]
  | node _ _ children => tokensList children

/-- The tokens at the leaves of all trees of a list. -/
def tokensList : List ParseTree → List Token
  | [] => []
  | tree :: trees => tokens tree ++ tokensList trees

end

/-- A node as it is listed: its tree and the numbers of its parent and its children. -/
structure Entry where
  tree : ParseTree
  parent : Option Nat
  childIds : List Nat

/-- The numbers of trees in a row, the first of which has number `id`. -/
def idsFrom (id : Nat) : List ParseTree → List Nat
  | [] => []
  | tree :: trees => id :: idsFrom (id + tree.size) trees

mutual

/-- The nodes of a tree in order, before `rest`, if the root has number `id`. -/
def entriesFrom (parent : Option Nat) (id : Nat) (rest : List Entry) : ParseTree → List Entry
  | leaf token => ⟨leaf token, parent, []⟩ :: rest
  | node name span children =>
    ⟨node name span children, parent, idsFrom (id + 1) children⟩ ::
      entriesListFrom id (id + 1) rest children

/-- The nodes of the trees below node `parent` in order, if the first has number `id`. -/
def entriesListFrom (parent id : Nat) (rest : List Entry) : List ParseTree → List Entry
  | [] => rest
  | tree :: trees =>
    entriesFrom (some parent) id (entriesListFrom parent (id + tree.size) rest trees) tree

end

/-- All nodes in the order of their numbers. -/
def entries (tree : ParseTree) : List Entry := entriesFrom none 0 [] tree

mutual

/-- The lines of a picture of the tree, before `rest`: one for each node, indented by its depth. -/
def picture (depth : Nat) (rest : List String) : ParseTree → List String
  | leaf token =>
    (String.ofList (List.replicate (2 * depth) ' ') ++ token.terminal ++ " `" ++ token.lexeme ++
      "`\n") :: rest
  | node name _ children =>
    (String.ofList (List.replicate (2 * depth) ' ') ++ name ++ "\n") ::
      pictureList (depth + 1) rest children

/-- The lines of the pictures of trees in a row, before `rest`. -/
def pictureList (depth : Nat) (rest : List String) : List ParseTree → List String
  | [] => rest
  | tree :: trees => picture depth (pictureList depth rest trees) tree

end

/-- A picture of the tree, with one line for each node. -/
def text (tree : ParseTree) : String := String.join (tree.picture 0 [])

end ParseTree

end SymbolicAlgebra
