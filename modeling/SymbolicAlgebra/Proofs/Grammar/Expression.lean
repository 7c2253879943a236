import SymbolicAlgebra.Grammar.Expression
import SymbolicAlgebra.Proofs.ParseTree.Parser

/-!
# The table of the grammar of expressions

The text of the grammar of expressions is a grammar that has a table. What the table gives is listed
here by kinds of tokens: for each nonterminal the kinds before which it takes one of its alternatives.
-/

namespace SymbolicAlgebra

namespace Table

/-- Sorting names without repeats puts them in the order of their characters. -/
theorem sortNames_eq {names sorted : List String} (hperm : names.Perm sorted)
    (hsorted : sorted.Pairwise (· ≤ ·)) : sortNames names = sorted.eraseReps := by
  rw [sortNames]
  congr 1
  have hmerge : (names.mergeSort fun a b => decide (a ≤ b)).Pairwise (· ≤ ·) := by
    have h : (names.mergeSort fun a b => decide (a ≤ b)).Pairwise
        fun a b => decide (a ≤ b) = true :=
      List.pairwise_mergeSort (fun a b c hab hbc => by
        rw [decide_eq_true_eq] at *
        exact le_trans hab hbc)
      (fun a b => by
        rw [Bool.or_eq_true, decide_eq_true_eq, decide_eq_true_eq]
        exact le_total a b) names
    simpa using h
  exact ((List.mergeSort_perm names _).trans hperm).eq_of_pairwise
    (fun a b _ _ hab hba => le_antisymm hab hba) hmerge hsorted

/-- Before tokens of these kinds the table gives the nonterminal the alternative. -/
def Chooses (t : Table) (name : String) (kinds : List Token.Kind) (alternative : List Symbol) :
    Prop :=
  ∀ kind ∈ kinds, t.lookup? name (.terminal kind.name) = some alternative

instance (t : Table) (name : String) (kinds : List Token.Kind) (alternative : List Symbol) :
    Decidable (t.Chooses name kinds alternative) := inferInstanceAs (Decidable (∀ _ ∈ _, _))

/-- The kinds of tokens that begin an operand. -/
def operandKinds : List Token.Kind :=
  [.leftParen, .sin, .cos, .tan, .log, .const, .var, .number]

/-- The alternatives of the grammar of expressions, with the kinds of tokens that show them to be
taken. -/
def expressionChoices : List (String × List Token.Kind × List Symbol) :=
  [("expr", .minus :: operandKinds, [.nonterminal "term", .nonterminal "expr_tail"]),
    ("expr_tail", [.plus, .minus],
      [.nonterminal "addop", .nonterminal "term", .nonterminal "expr_tail"]),
    ("expr_tail", [.rightParen], [.epsilon]),
    ("addop", [.plus], [.terminal "PLUS"]),
    ("addop", [.minus], [.terminal "MINUS"]),
    ("term", .minus :: operandKinds, [.nonterminal "factor", .nonterminal "term_tail"]),
    ("term_tail", [.times, .divide],
      [.nonterminal "mulop", .nonterminal "factor", .nonterminal "term_tail"]),
    ("term_tail", [.plus, .minus, .rightParen], [.epsilon]),
    ("mulop", [.times], [.terminal "TIMES"]),
    ("mulop", [.divide], [.terminal "DIVIDE"]),
    ("factor", .minus :: operandKinds, [.nonterminal "prefix", .nonterminal "body"]),
    ("prefix", [.minus], [.terminal "MINUS"]),
    ("prefix", operandKinds, [.epsilon]),
    ("body", operandKinds, [.nonterminal "expo", .nonterminal "body_tail"]),
    ("body_tail", [.caret], [.terminal "CARET", .nonterminal "factor"]),
    ("body_tail", [.times, .divide, .plus, .minus, .rightParen], [.epsilon]),
    ("expo", [.leftParen], [.terminal "LPAREN", .nonterminal "expr", .terminal "RPAREN"]),
    ("expo", [.sin, .cos, .tan, .log], [.nonterminal "function"]),
    ("expo", [.var], [.nonterminal "var"]),
    ("expo", [.const, .number], [.nonterminal "num"]),
    ("function", [.sin, .cos, .tan], [.nonterminal "triangular"]),
    ("function", [.log], [.nonterminal "logarithm"]),
    ("triangular", [.sin, .cos, .tan], [.nonterminal "trifunc", .nonterminal "funbody"]),
    ("trifunc", [.sin], [.terminal "SIN"]),
    ("trifunc", [.cos], [.terminal "COS"]),
    ("trifunc", [.tan], [.terminal "TAN"]),
    ("logarithm", [.log],
      [.terminal "LOG", .nonterminal "funbody", .terminal "UNDERSCORE", .nonterminal "funbody"]),
    ("funbody", [.leftParen], [.terminal "LPAREN", .nonterminal "expr", .terminal "RPAREN"]),
    ("funbody", [.sin, .cos, .tan, .log], [.nonterminal "function"]),
    ("funbody", [.var], [.nonterminal "var"]),
    ("funbody", [.const, .number], [.nonterminal "num"]),
    ("var", [.var], [.terminal "VAR"]),
    ("num", [.number], [.terminal "NUMBER"]),
    ("num", [.const], [.terminal "CONST"])]

/-- What reading an expression needs to know of a table. -/
structure ReadsExpressions (t : Table) : Prop where
  start : t.grammar.start = "expr"
  choices : ∀ choice ∈ expressionChoices, t.Chooses choice.1 choice.2.1 choice.2.2
  vanishing : ∀ name ∈ ["expr_tail", "term_tail", "body_tail"],
    t.isNullable (.nonterminal name) = true
  endless : ∀ rule ∈ t.grammar.rules, ∀ alternative ∈ rule.alternatives,
    .endMarker ∉ alternative
  complete : ∀ rule ∈ t.grammar.rules, ∀ alternative ∈ rule.alternatives,
    (rule.lhs, alternative) ∈ expressionChoices.map fun choice => (choice.1, choice.2.2)

instance (t : Table) : Decidable t.ReadsExpressions :=
  decidable_of_iff (_ ∧ _ ∧ _ ∧ _ ∧ _) ⟨fun h => ⟨h.1, h.2.1, h.2.2.1, h.2.2.2.1, h.2.2.2.2⟩,
    fun h => ⟨h.start, h.choices, h.vanishing, h.endless, h.complete⟩⟩

/-- The terminals that the lexer produces, in the order of their characters. -/
def sortedAlphabet : List String :=
  ["CARET", "CONST", "COS", "DIVIDE", "LOG", "LPAREN", "MINUS", "NUMBER", "PLUS", "RPAREN", "SIN",
    "SYMBOL", "TAN", "TIMES", "UNDERSCORE", "VAR"]

/-- The alphabet of a table is sorted. -/
theorem sortNames_alphabet : sortNames Token.alphabet = sortedAlphabet := by
  have hperm : Token.alphabet.Perm sortedAlphabet := by decide +kernel
  have hsorted : sortedAlphabet.Pairwise (· ≤ ·) := by decide +kernel
  rw [sortNames_eq hperm hsorted]
  decide +kernel

/-- Whether an operation succeeds with a value that has a property can be decided by running it. -/
instance {ε β : Type} (x : Except ε β) (p : β → Prop) [DecidablePred p] :
    Decidable (∃ b, x = .ok b ∧ p b) :=
  match x with
  | .ok b => decidable_of_iff (p b) ⟨fun h => ⟨b, rfl, h⟩, fun ⟨_, h, hb⟩ => Except.ok.inj h ▸ hb⟩
  | .error _ => isFalse fun ⟨_, h, _⟩ => by cases h

/-- The table of the grammar that characters spell, over the terminals of the lexer. -/
def ofChars (cs : List Char) : Except Failure Table := do
  let g ← (do
    let rules ← Grammar.readLines 0 none (Text.linesWithEnds cs)
    Grammar.ofRules? rules)
  build g Token.alphabet

/-- The table of the grammar of expressions is that of the characters of its text. A literal stands for a list
of characters, which taking it apart would find only one by one. -/
theorem expression_eq_ofChars {cs : List Char} (h : Grammar.expressionText = String.ofList cs) :
    expression = ofChars cs := by
  have htext : Grammar.expressionText.toList = cs := by
    rw [h, String.toList_ofList]
  rw [expression, Grammar.expression, Grammar.read, htext]
  rfl

set_option maxRecDepth 20000 in
/-- The grammar of expressions has a table that serves to read expressions. -/
theorem exists_expression : ∃ t, expression = .ok t ∧ t.ReadsExpressions := by
  have hchars : ∃ cs, Grammar.expressionText = String.ofList cs ∧
      ∃ t, ofChars cs = .ok t ∧ t.ReadsExpressions := by
    refine ⟨_, by unfold Grammar.expressionText; rfl, ?_⟩
    simp only [ofChars, build, sortNames_alphabet]
    decide +kernel
  obtain ⟨cs, htext, found⟩ := hchars
  rw [expression_eq_ofChars htext]
  exact found

/-- The table of the grammar of expressions was built. -/
theorem built_of_expression {t : Table} (h : expression = .ok t) : Built t.grammar t := by
  rw [expression] at h
  cases hg : Grammar.expression with
  | error failure =>
    rw [hg] at h
    cases h
  | ok g =>
    rw [hg] at h
    have hbuilt := built_of_build (h : build g Token.alphabet = .ok t)
    exact hbuilt.grammar ▸ hbuilt

end Table

end SymbolicAlgebra
