import SymbolicAlgebra.Expr.Reader
import SymbolicAlgebra.Proofs.ParseTree.Located

/-!
# Where readings are blamed

Reading a parse tree as an expression blames the region that some node of the tree covers. A reader takes
tokens and operators from below its own node only, so that where every node covers a part of the text, so does
the node that is blamed.
-/

namespace SymbolicAlgebra.Expr

open Text Failure

variable {α : Type} {text : List Char}

/-- Every node of a part that has no meaning of its own covers a part of the text. -/
def Reading.Inside (text : List Char) : Reading α → Prop
  | bare tree => tree.Inside text
  | expr _ _ => True
  | chain _ => True

/-- A failure that blames what a node covers, for a part without a meaning, a numeral that is no number, or
an expression that is nested too deeply. -/
inductive Misread (text : List Char) : Failure → Prop
  | unreadable {tree : ParseTree} : tree.Inside text → Misread text (Reading.unreadable tree)
  | invalidNumber {tree : ParseTree} (lexeme : String) : tree.Inside text →
    Misread text (.located tree.span (.invalidNumber lexeme))
  | tooDeep {tree : ParseTree} (limit : Nat) : tree.Inside text →
    Misread text (.located tree.span (.tooDeep limit))

/-- What is blamed is in the text. -/
theorem Misread.within {failure : Failure} (h : Misread text failure) : failure.Within text := by
  cases h with
  | unreadable htree => exact within_located htree.span _
  | invalidNumber lexeme htree => exact within_located htree.span _
  | tooDeep limit htree => exact within_located htree.span _

namespace Reading

section Readers

variable {tree : ParseTree} (htree : tree.Inside text) {parts : List (Reading α)}
  (hparts : ∀ part ∈ parts, part.Inside text)
include htree

/-- The text of a token, or the node that is none. -/
theorem settles_lexeme : Settles (lexeme tree) (fun _ => True) (Misread text) := by
  unfold lexeme
  split
  · trivial
  · exact .unreadable htree

include hparts

/-- A token that is taken is inside the text, and so is what remains. -/
theorem settles_takeBare : Settles (takeBare tree parts)
    (fun found => found.1.Inside text ∧ ∀ part ∈ found.2, part.Inside text) (Misread text) := by
  unfold takeBare
  split
  · exact List.forall_mem_cons.mp hparts
  · exact .unreadable htree

/-- What remains after an expression is inside the text. -/
theorem settles_takeExpr : Settles (takeExpr tree parts)
    (fun found => ∀ part ∈ found.2, part.Inside text) (Misread text) := by
  unfold takeExpr
  split
  · exact (List.forall_mem_cons.mp hparts).2
  · exact .unreadable htree

/-- What remains after a chain is inside the text. -/
theorem settles_takeChain : Settles (takeChain tree parts)
    (fun found => ∀ part ∈ found.2, part.Inside text) (Misread text) := by
  unfold takeChain
  split
  · exact (List.forall_mem_cons.mp hparts).2
  · exact .unreadable htree

/-- The rest of a chain. -/
theorem settles_readTail : Settles (readTail tree parts) (Inside text) (Misread text) := by
  unfold readTail
  split
  · trivial
  · refine (settles_takeBare htree hparts).bind fun ⟨_, parts₁⟩ ⟨_, hparts₁⟩ => ?_
    refine (settles_takeExpr htree hparts₁).bind fun ⟨_, parts₂⟩ hparts₂ => ?_
    exact (settles_takeChain htree hparts₂).bind fun _ _ => trivial

/-- An exponent. -/
theorem settles_readExponent : Settles (readExponent tree parts) (Inside text) (Misread text) := by
  unfold readExponent
  split
  · trivial
  · refine (settles_takeBare htree hparts).bind fun ⟨_, parts₁⟩ ⟨_, hparts₁⟩ => ?_
    exact (settles_takeExpr htree hparts₁).bind fun _ _ => trivial

/-- An operator that may be missing. -/
theorem settles_readOperator : Settles (readOperator tree parts) (Inside text) (Misread text) := by
  unfold readOperator
  split
  · exact htree
  · exact (settles_takeBare htree hparts).bind fun _ hoperator => hoperator.1

/-- A power. -/
theorem settles_readPower : Settles (readPower tree parts) (Inside text) (Misread text) := by
  refine (settles_takeExpr htree hparts).bind fun ⟨_, parts₁⟩ hparts₁ => ?_
  refine (settles_takeChain htree hparts₁).bind fun ⟨links, _⟩ _ => ?_
  cases links <;> trivial

/-- An operand. -/
theorem settles_readOperand : Settles (readOperand tree parts) (Inside text) (Misread text) := by
  unfold readOperand
  split
  · refine (settles_takeBare htree hparts).bind fun ⟨_, parts₁⟩ ⟨_, hparts₁⟩ => ?_
    exact (settles_takeExpr htree hparts₁).bind fun _ _ => trivial
  · exact (settles_takeExpr htree hparts).bind fun _ _ => trivial
  · exact .unreadable htree

/-- A trigonometric function. -/
theorem settles_readTrig : Settles (readTrig tree parts) (Inside text) (Misread text) := by
  refine (settles_takeBare htree hparts).bind fun ⟨name, parts₁⟩ ⟨hname, hparts₁⟩ => ?_
  refine (settles_lexeme hname).bind fun _ _ => ?_
  dsimp only
  split
  · exact .unreadable hname
  · exact (settles_takeExpr htree hparts₁).bind fun _ _ => trivial

/-- A logarithm. -/
theorem settles_readLog : Settles (readLog tree parts) (Inside text) (Misread text) := by
  refine (settles_takeBare htree hparts).bind fun ⟨_, parts₁⟩ ⟨_, hparts₁⟩ => ?_
  refine (settles_takeExpr htree hparts₁).bind fun ⟨_, parts₂⟩ hparts₂ => ?_
  refine (settles_takeBare htree hparts₂).bind fun ⟨_, parts₃⟩ ⟨_, hparts₃⟩ => ?_
  exact (settles_takeExpr htree hparts₃).bind fun _ _ => trivial

/-- A variable. -/
theorem settles_readVar : Settles (readVar tree parts) (Inside text) (Misread text) := by
  refine (settles_takeBare htree hparts).bind fun ⟨_, _⟩ ⟨hname, _⟩ => ?_
  exact (settles_lexeme hname).bind fun _ _ => trivial

/-- A factor with its sign. -/
theorem settles_readFactor [Scalar α] : Settles (readFactor tree parts) (Inside text) (Misread text) := by
  refine (settles_takeBare htree hparts).bind fun ⟨_, parts₁⟩ ⟨_, hparts₁⟩ => ?_
  refine (settles_takeExpr htree hparts₁).bind fun _ _ => ?_
  dsimp only
  split <;> trivial

/-- A sum or a product. -/
theorem settles_readChain [Scalar α] (build : List (Expr α) → List (Expr α) → Expr α) :
    Settles (readChain build tree parts) (Inside text) (Misread text) := by
  refine (settles_takeExpr htree hparts).bind fun ⟨_, parts₁⟩ hparts₁ => ?_
  refine (settles_takeChain htree hparts₁).bind fun _ _ => ?_
  dsimp only
  split <;> trivial

/-- A number. -/
theorem settles_readNumber [Scalar α] : Settles (readNumber tree parts) (Inside text) (Misread text) := by
  refine (settles_takeBare htree hparts).bind fun ⟨leaf, _⟩ ⟨hleaf, _⟩ => ?_
  refine (settles_lexeme hleaf).bind fun lexeme _ => ?_
  split
  · split
    · trivial
    · exact .unreadable hleaf
  · split
    · trivial
    · exact .invalidNumber lexeme hleaf

/-- A nonterminal over children inside the text is read as something inside it, or a node is blamed. -/
theorem settles_ofNode [Scalar α] (name : String) :
    Settles (ofNode name tree parts) (Inside text) (Misread text) := by
  unfold ofNode
  split
  · exact settles_readChain htree hparts _
  · exact settles_readChain htree hparts _
  · exact settles_readTail htree hparts
  · exact settles_readTail htree hparts
  · exact settles_readExponent htree hparts
  · exact settles_readOperator htree hparts
  · exact settles_readOperator htree hparts
  · exact settles_readOperator htree hparts
  · exact settles_readOperator htree hparts
  · exact settles_readFactor htree hparts
  · exact settles_readPower htree hparts
  · exact settles_readOperand htree hparts
  · exact settles_readOperand htree hparts
  · exact settles_readOperand htree hparts
  · exact settles_readTrig htree hparts
  · exact settles_readLog htree hparts
  · exact settles_readVar htree hparts
  · exact settles_readNumber htree hparts
  · exact .unreadable htree

end Readers

/-- An expression that is too deep is blamed on its node. -/
theorem settles_checkDepth (limits : Limits) {tree : ParseTree} (htree : tree.Inside text) {r : Reading α}
    (hr : r.Inside text) : Settles (checkDepth limits tree r) (Inside text) (Misread text) := by
  unfold checkDepth
  split
  · split
    · exact .tooDeep _ htree
    · trivial
  · exact hr

variable [Scalar α]

mutual

/-- A tree inside the text is read as something inside it, or one of its nodes is blamed. -/
theorem settles_ofTree (limits : Limits) (tree : ParseTree) (htree : tree.Inside text) :
    Settles (ofTree limits tree) (Inside (α := α) text) (Misread text) := by
  cases tree with
  | leaf token =>
    rw [ofTree]
    exact htree
  | node name span children =>
    rw [ofTree]
    refine (settles_ofTrees limits children htree.children).bind fun parts hparts => ?_
    exact (settles_ofNode htree hparts name).bind fun r hr => settles_checkDepth limits htree hr

/-- Trees inside the text are read as something inside it, or one of their nodes is blamed. -/
theorem settles_ofTrees (limits : Limits) (trees : List ParseTree)
    (htrees : ∀ tree ∈ trees, tree.Inside text) :
    Settles (ofTrees limits trees) (fun parts : List (Reading α) => ∀ part ∈ parts, part.Inside text)
      (Misread text) := by
  cases trees with
  | nil =>
    rw [ofTrees]
    exact List.forall_mem_nil _
  | cons tree trees =>
    rw [List.forall_mem_cons] at htrees
    rw [ofTrees]
    refine (settles_ofTree limits tree htrees.1).bind fun r hr => ?_
    refine (settles_ofTrees limits trees htrees.2).bind fun parts hparts => ?_
    exact List.forall_mem_cons.mpr ⟨hr, hparts⟩

end

end Reading

/-- A tree inside the text stands for an expression, or one of its nodes is blamed. -/
theorem settles_ofTree [Scalar α] (limits : Limits) {tree : ParseTree} (htree : tree.Inside text) :
    Settles (ofTree limits tree : Except Failure (Expr α)) (fun _ => True) (Misread text) := by
  refine (Reading.settles_ofTree limits tree htree).bind fun r _ => ?_
  cases r with
  | expr value depth => trivial
  | bare _ => exact .unreadable htree
  | chain _ => exact .unreadable htree

end SymbolicAlgebra.Expr
