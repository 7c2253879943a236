import SymbolicAlgebra.Proofs.Expr.Depth
import SymbolicAlgebra.Proofs.ParseTree.Layout

/-!
# Reading without places

The layout of a source has no influence on what it means. The reader looks at places only to say where it
fails, so trees that differ in places only stand for the same expression, or are refused for the same
reason. With the parser, which keeps tokens and refusals in step, this makes the expression of a source
one of the kinds and texts of its tokens.
-/

namespace SymbolicAlgebra

namespace ParseTree

/-- A tree without its places has its symbol. -/
@[simp] theorem symbol_unplaced (tree : ParseTree) : tree.unplaced.symbol = tree.symbol := by
  cases tree <;> rfl

/-- A tree without its places has its text. -/
@[simp] theorem lexeme?_unplaced (tree : ParseTree) : tree.unplaced.lexeme? = tree.lexeme? := by
  cases tree <;> rfl

/-- A tree without its places has as many children. -/
@[simp] theorem length_children_unplaced (tree : ParseTree) :
    tree.unplaced.children.length = tree.children.length := by
  cases tree with
  | leaf token => rfl
  | node name span children =>
    rw [unplaced, ParseTree.children, ParseTree.children, unplacedList_eq_map, List.length_map]

/-- A tree without its places is empty where it is. -/
@[simp] theorem isEmpty_unplaced (tree : ParseTree) : tree.unplaced.isEmpty = tree.isEmpty := by
  cases tree with
  | leaf token => rfl
  | node name span children =>
    rw [unplaced, isEmpty, isEmpty, unplacedList_eq_map, List.isEmpty_map]

end ParseTree

/-- Failures for the same reason, with the same details. -/
def SameFault (f f' : Failure) : Prop := f.fault = f'.fault

namespace Expr

namespace Reading

variable {α β γ : Type}

/-- Readings that differ in the places of their tokens only. -/
inductive Alike : Reading α → Reading α → Prop
  | bare {tree tree' : ParseTree} : tree.unplaced = tree'.unplaced → Alike (.bare tree) (.bare tree')
  | expr {value : Expr α} {depth : Nat} : Alike (.expr value depth) (.expr value depth)
  | chain {links : List (Link α)} : Alike (.chain links) (.chain links)

section Parts

variable {tree tree' : ParseTree} (htree : tree.unplaced = tree'.unplaced)
include htree

/-- Trees that differ in places only have roots with the same symbol. -/
theorem symbol_eq : tree.symbol = tree'.symbol := by
  rw [← ParseTree.symbol_unplaced tree, htree, ParseTree.symbol_unplaced]

/-- Trees that differ in places only both derive the empty string at their roots, or neither does. -/
theorem isEmpty_eq : tree.isEmpty = tree'.isEmpty := by
  rw [← ParseTree.isEmpty_unplaced tree, htree, ParseTree.isEmpty_unplaced]

/-- What cannot be read is refused wherever it stands. -/
theorem unreadable_agrees {r : β → γ → Prop} :
    Agrees SameFault r (.error (unreadable tree)) (.error (unreadable tree')) :=
  .error (congrArg (fun symbol : Symbol => Fault.unreadableSymbol symbol.text) (symbol_eq htree))

/-- The text of a token is the same wherever the token stands. -/
theorem lexeme_agrees : Agrees SameFault Eq (lexeme tree) (lexeme tree') := by
  rw [lexeme, lexeme, ← ParseTree.lexeme?_unplaced tree, htree, ParseTree.lexeme?_unplaced]
  cases tree'.lexeme? with
  | some text => exact .ok rfl
  | none => exact unreadable_agrees htree

variable {parts parts' : List (Reading α)} (hparts : List.Forall₂ Alike parts parts') {r : β → γ → Prop}
include hparts

/-- Readers that take a token or an operator first agree if they go on alike. -/
theorem takeBare_agrees {f : ParseTree × List (Reading α) → Except Failure β}
    {f' : ParseTree × List (Reading α) → Except Failure γ}
    (h : ∀ child child' rest rest', child.unplaced = child'.unplaced → List.Forall₂ Alike rest rest' →
      Agrees SameFault r (f (child, rest)) (f' (child', rest'))) :
    Agrees SameFault r (takeBare tree parts >>= f) (takeBare tree' parts' >>= f') := by
  cases hparts with
  | nil => exact unreadable_agrees htree
  | cons hpart hrest =>
    cases hpart with
    | bare hchild => exact h _ _ _ _ hchild hrest
    | expr => exact unreadable_agrees htree
    | chain => exact unreadable_agrees htree

/-- Readers that take an expression first agree if they go on alike. -/
theorem takeExpr_agrees {f : (Expr α × Nat) × List (Reading α) → Except Failure β}
    {f' : (Expr α × Nat) × List (Reading α) → Except Failure γ}
    (h : ∀ value depth rest rest', List.Forall₂ Alike rest rest' →
      Agrees SameFault r (f ((value, depth), rest)) (f' ((value, depth), rest'))) :
    Agrees SameFault r (takeExpr tree parts >>= f) (takeExpr tree' parts' >>= f') := by
  cases hparts with
  | nil => exact unreadable_agrees htree
  | cons hpart hrest =>
    cases hpart with
    | bare => exact unreadable_agrees htree
    | expr => exact h _ _ _ _ hrest
    | chain => exact unreadable_agrees htree

/-- Readers that take the rest of a chain first agree if they go on alike. -/
theorem takeChain_agrees {f : List (Link α) × List (Reading α) → Except Failure β}
    {f' : List (Link α) × List (Reading α) → Except Failure γ}
    (h : ∀ links rest rest', List.Forall₂ Alike rest rest' →
      Agrees SameFault r (f (links, rest)) (f' (links, rest'))) :
    Agrees SameFault r (takeChain tree parts >>= f) (takeChain tree' parts' >>= f') := by
  cases hparts with
  | nil => exact unreadable_agrees htree
  | cons hpart hrest =>
    cases hpart with
    | bare => exact unreadable_agrees htree
    | expr => exact unreadable_agrees htree
    | chain => exact h _ _ _ hrest

end Parts

section Readers

variable {tree tree' : ParseTree} {parts parts' : List (Reading α)}
  (htree : tree.unplaced = tree'.unplaced) (hparts : List.Forall₂ Alike parts parts')
include htree hparts

/-- Operands that are chained are read alike from trees that differ in their places only. -/
theorem readChain_agrees [Scalar α] (build : List (Expr α) → List (Expr α) → Expr α) :
    Agrees SameFault Alike (readChain build tree parts) (readChain build tree' parts') := by
  refine takeExpr_agrees htree hparts fun value depth rest rest' hrest => ?_
  refine takeChain_agrees htree hrest fun links _ _ _ => ?_
  cases links with
  | nil => exact .ok .expr
  | cons link links => exact .ok .expr

/-- The rest of a chain is read alike. -/
theorem readTail_agrees : Agrees SameFault Alike (readTail tree parts) (readTail tree' parts') := by
  rw [readTail, readTail, isEmpty_eq htree]
  split
  · exact .ok .chain
  · refine takeBare_agrees htree hparts fun operator operator' _ _ hoperator hrest => ?_
    refine takeExpr_agrees htree hrest fun operand depth _ _ hrest => ?_
    refine takeChain_agrees htree hrest fun links _ _ _ => ?_
    simp only [symbol_eq hoperator]
    exact .ok .chain

/-- An exponent is read alike, or that there is none. -/
theorem readExponent_agrees :
    Agrees SameFault Alike (readExponent tree parts) (readExponent tree' parts') := by
  rw [readExponent, readExponent, isEmpty_eq htree]
  split
  · exact .ok .chain
  · refine takeBare_agrees htree hparts fun operator operator' _ _ hoperator hrest => ?_
    refine takeExpr_agrees htree hrest fun operand depth _ _ _ => ?_
    simp only [symbol_eq hoperator]
    exact .ok .chain

/-- An operator is read alike, written or not. -/
theorem readOperator_agrees :
    Agrees SameFault Alike (readOperator tree parts) (readOperator tree' parts') := by
  rw [readOperator, readOperator, isEmpty_eq htree]
  split
  · exact .ok (.bare htree)
  · exact takeBare_agrees htree hparts fun _ _ _ _ hoperator _ => .ok (.bare hoperator)

/-- A factor is read alike, under a sign or not. -/
theorem readFactor_agrees [Scalar α] :
    Agrees SameFault Alike (readFactor tree parts) (readFactor tree' parts') := by
  refine takeBare_agrees htree hparts fun sign sign' _ _ hsign hrest => ?_
  refine takeExpr_agrees htree hrest fun body depth _ _ _ => ?_
  simp only [isEmpty_eq hsign]
  split
  · exact .ok .expr
  · exact .ok .expr

/-- A power is read alike. -/
theorem readPower_agrees :
    Agrees SameFault Alike (readPower tree parts) (readPower tree' parts') := by
  refine takeExpr_agrees htree hparts fun base depth _ _ hrest => ?_
  refine takeChain_agrees htree hrest fun links _ _ _ => ?_
  cases links with
  | nil => exact .ok .expr
  | cons link links => exact .ok .expr

/-- An operand is read alike, in parentheses or not. -/
theorem readOperand_agrees :
    Agrees SameFault Alike (readOperand tree parts) (readOperand tree' parts') := by
  have hlength : tree.children.length = tree'.children.length := by
    rw [← ParseTree.length_children_unplaced tree, htree, ParseTree.length_children_unplaced]
  rw [readOperand, readOperand, hlength]
  split
  · refine takeBare_agrees htree hparts fun _ _ _ _ _ hrest => ?_
    exact takeExpr_agrees htree hrest fun _ _ _ _ _ => .ok .expr
  · exact takeExpr_agrees htree hparts fun _ _ _ _ _ => .ok .expr
  · exact unreadable_agrees htree

/-- A trigonometric function is read alike. -/
theorem readTrig_agrees : Agrees SameFault Alike (readTrig tree parts) (readTrig tree' parts') := by
  refine takeBare_agrees htree hparts fun name name' _ _ hname hrest => ?_
  refine (lexeme_agrees hname).bind fun text text' htext => ?_
  obtain rfl := htext
  cases Trig.ofName? text with
  | none => exact unreadable_agrees hname
  | some function => exact takeExpr_agrees htree hrest fun _ _ _ _ _ => .ok .expr

/-- A logarithm is read alike. -/
theorem readLog_agrees : Agrees SameFault Alike (readLog tree parts) (readLog tree' parts') := by
  refine takeBare_agrees htree hparts fun _ _ _ _ _ hrest => ?_
  refine takeExpr_agrees htree hrest fun base _ _ _ hrest => ?_
  refine takeBare_agrees htree hrest fun _ _ _ _ _ hrest => ?_
  exact takeExpr_agrees htree hrest fun body _ _ _ _ => .ok .expr

/-- A variable is read alike. -/
theorem readVar_agrees : Agrees SameFault Alike (readVar tree parts) (readVar tree' parts') := by
  refine takeBare_agrees htree hparts fun name name' _ _ hname _ => ?_
  refine (lexeme_agrees hname).bind fun text text' htext => ?_
  obtain rfl := htext
  exact .ok .expr

/-- A literal or a constant is read alike. -/
theorem readNumber_agrees [Scalar α] :
    Agrees SameFault Alike (readNumber tree parts) (readNumber tree' parts') := by
  refine takeBare_agrees htree hparts fun leaf leaf' _ _ hleaf _ => ?_
  refine (lexeme_agrees hleaf).bind fun text text' htext => ?_
  obtain rfl := htext
  simp only [symbol_eq hleaf]
  split
  · cases Constant.ofName? text with
    | some c => exact .ok .expr
    | none => exact unreadable_agrees hleaf
  · cases (Scalar.read? text.toList : Option α) with
    | some v => exact .ok .expr
    | none => exact .error rfl

/-- A nonterminal means the same wherever its tokens stand. -/
theorem ofNode_agrees [Scalar α] (name : String) :
    Agrees SameFault Alike (ofNode name tree parts) (ofNode name tree' parts') := by
  unfold ofNode
  split
  · exact readChain_agrees htree hparts _
  · exact readChain_agrees htree hparts _
  · exact readTail_agrees htree hparts
  · exact readTail_agrees htree hparts
  · exact readExponent_agrees htree hparts
  · exact readOperator_agrees htree hparts
  · exact readOperator_agrees htree hparts
  · exact readOperator_agrees htree hparts
  · exact readOperator_agrees htree hparts
  · exact readFactor_agrees htree hparts
  · exact readPower_agrees htree hparts
  · exact readOperand_agrees htree hparts
  · exact readOperand_agrees htree hparts
  · exact readOperand_agrees htree hparts
  · exact readTrig_agrees htree hparts
  · exact readLog_agrees htree hparts
  · exact readVar_agrees htree hparts
  · exact readNumber_agrees htree hparts
  · exact unreadable_agrees htree

end Readers

/-- The depth limit is looked at in the same way wherever the tokens stand. -/
theorem checkDepth_agrees (limits : Limits) (tree tree' : ParseTree) {r r' : Reading α}
    (h : Alike r r') :
    Agrees SameFault Alike (checkDepth limits tree r) (checkDepth limits tree' r') := by
  cases h with
  | bare htree => exact .ok (.bare htree)
  | chain => exact .ok .chain
  | expr =>
    rw [checkDepth, checkDepth]
    split
    · exact .error rfl
    · exact .ok .expr

variable [Scalar α]

mutual

/-- A tree means the same wherever its tokens stand. -/
theorem ofTree_agrees (limits : Limits) (tree tree' : ParseTree)
    (htree : tree.unplaced = tree'.unplaced) :
    Agrees SameFault (Alike (α := α)) (ofTree limits tree) (ofTree limits tree') := by
  cases tree with
  | leaf token =>
    cases tree' with
    | leaf token' =>
      rw [ofTree, ofTree]
      exact .ok (.bare htree)
    | node name' span' children' => cases htree
  | node name span children =>
    cases tree' with
    | leaf token' => cases htree
    | node name' span' children' =>
      rw [ParseTree.unplaced, ParseTree.unplaced] at htree
      obtain ⟨hname, -, hchildren⟩ := ParseTree.node.inj htree
      rw [ofTree, ofTree, ← hname]
      refine (ofTrees_agrees limits children children' hchildren).bind fun parts parts' hparts => ?_
      refine (ofNode_agrees ?_ hparts name).bind fun r r' hr => checkDepth_agrees limits _ _ hr
      rw [ParseTree.unplaced, ParseTree.unplaced, hchildren]

/-- Trees in a row mean the same wherever their tokens stand. -/
theorem ofTrees_agrees (limits : Limits) (trees trees' : List ParseTree)
    (htrees : ParseTree.unplacedList trees = ParseTree.unplacedList trees') :
    Agrees SameFault (List.Forall₂ (Alike (α := α))) (ofTrees limits trees) (ofTrees limits trees') := by
  cases trees with
  | nil =>
    cases trees' with
    | nil =>
      rw [ofTrees]
      exact .ok .nil
    | cons tree' trees' => cases htrees
  | cons tree trees =>
    cases trees' with
    | nil => cases htrees
    | cons tree' trees' =>
      rw [ParseTree.unplacedList, ParseTree.unplacedList] at htrees
      obtain ⟨htree, htrees⟩ := List.cons.inj htrees
      rw [ofTrees, ofTrees]
      refine (ofTree_agrees limits tree tree' htree).bind fun r r' hr => ?_
      exact (ofTrees_agrees limits trees trees' htrees).bind fun rs rs' hrs => .ok (.cons hr hrs)

end

end Reading

variable {α : Type} [Scalar α]

/-- A tree stands for the same expression wherever its tokens stand. -/
theorem ofTree_agrees (limits : Limits) {tree tree' : ParseTree}
    (htree : tree.unplaced = tree'.unplaced) :
    Agrees SameFault Eq (ofTree limits tree : Except Failure (Expr α)) (ofTree limits tree') := by
  rw [ofTree, ofTree]
  refine (Reading.ofTree_agrees limits tree tree' htree).bind fun r r' hr => ?_
  cases hr with
  | bare _ => exact Reading.unreadable_agrees htree
  | expr => exact .ok rfl
  | chain => exact Reading.unreadable_agrees htree

/-- The layout of a source has no influence on its meaning: if two sources have tokens of the same kinds
and texts, blanks apart, then they have parse trees that differ in places only, or they are refused for the
same reason at tokens with the same number or at their ends; and under any limits both are read as one
expression or both are refused for the same reason. -/
theorem read_agrees_of_same_tokens (g : Grammar) (names : List String) (table : Table)
    (h : Table.build g names = .ok table) (source source' : String)
    (hsame : ((Token.scan source).filter (!·.isWhitespace)).map Token.content =
      ((Token.scan source').filter (!·.isWhitespace)).map Token.content) :
    Agrees (ParseTree.Corresponds ((Token.scan source).filter (!·.isWhitespace))
        ((Token.scan source').filter (!·.isWhitespace)) source.utf8ByteSize source'.utf8ByteSize)
      (fun tree tree' => tree.unplaced = tree'.unplaced)
      (ParseTree.parse table source) (ParseTree.parse table source') ∧
    ∀ limits, Agrees SameFault Eq (read table limits source : Except Failure (Expr α))
      (read table limits source') := by
  have hparse := ParseTree.ofStream_agrees (Table.built_of_build h) (.ofSource source)
    (.ofSource source') hsame
  refine ⟨hparse, fun limits => ?_⟩
  refine (hparse.imp (fun f f' _ hplaces => ?_) fun _ _ htree => htree).bind fun tree tree' htree =>
    ofTree_agrees limits htree
  cases hplaces with
  | token _ _ => rfl
  | atEnd => rfl

/-- The opposite of a variable is the same expression with blanks around its tokens. -/
theorem read_agrees_spaced_opposite : ∃ g table, Grammar.expression = .ok g ∧
    Table.build g Token.alphabet = .ok table ∧
    ((Token.scan "-x").filter (!·.isWhitespace)).map Token.content =
      ((Token.scan " -\tx ").filter (!·.isWhitespace)).map Token.content ∧
    ∃ e : Expr Float, read table { maxDepth := 2 } "-x" = .ok e ∧
      read table { maxDepth := 2 } " -\tx " = .ok e := by
  obtain ⟨table, htable, ⟨e, hread, -⟩, -⟩ := exists_read_opposites
  obtain ⟨g, hgrammar, hbuild⟩ := Reduction.ok_of_bind htable
  have hsame : ((Token.scan "-x").filter (!·.isWhitespace)).map Token.content =
      ((Token.scan " -\tx ").filter (!·.isWhitespace)).map Token.content := by
    decide +kernel
  have hagrees := (read_agrees_of_same_tokens (α := Float) g _ table hbuild _ _ hsame).2 { maxDepth := 2 }
  rw [hread] at hagrees
  refine ⟨g, table, hgrammar, hbuild, hsame, e, hread, ?_⟩
  generalize (read table { maxDepth := 2 } " -\tx " : Except Failure (Expr Float)) = reread
    at hagrees ⊢
  cases hagrees with
  | ok he => rw [he]

end Expr

end SymbolicAlgebra
