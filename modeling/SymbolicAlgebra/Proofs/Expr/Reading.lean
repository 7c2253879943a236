import SymbolicAlgebra.Expr.Reader
import SymbolicAlgebra.Proofs.Grammar.Expression
import SymbolicAlgebra.Proofs.ParseTree.Language
import SymbolicAlgebra.Proofs.Token.Lexer

/-!
# Reading by productions

Tokens are read as a nonterminal up to a rest when they are parsed so under some bound and when, under
every depth limit that is large enough, the tree has a meaning. What a nonterminal means follows from
what the symbols of the alternative mean that the table gives for the next token.
-/

namespace SymbolicAlgebra.Expr

open ParseTree

variable {α : Type} [Scalar α]

/-- Under every depth limit that is large enough the tree has the meaning. -/
def Means (tree : ParseTree) (r : Reading α) : Prop :=
  ∃ least, ∀ limits : Limits, least ≤ limits.maxDepth → Reading.ofTree limits tree = .ok r

/-- The tokens are parsed as the symbols, one after the other, up to a rest; the trees have the
meanings. -/
def ReadsAll (table : Table) (sourceEnd : Nat) (symbols : List Symbol) (tokens rest : List Token)
    (parts : List (Reading α)) : Prop :=
  ∃ fuel trees, parseAll (parseSymbol table sourceEnd fuel) symbols tokens =
    .ok ⟨trees, rest, false⟩ ∧ List.Forall₂ Means trees parts

/-- The tokens are parsed as the nonterminal up to a rest, and the tree has the meaning. -/
def Reads (table : Table) (sourceEnd : Nat) (name : String) (tokens rest : List Token)
    (r : Reading α) : Prop :=
  ∃ fuel tree, parseSymbol table sourceEnd fuel (.nonterminal name) tokens =
    .ok ⟨[tree], rest, false⟩ ∧ Means tree r

/-- The nonterminal vanishes before the tokens. -/
def Vanishes (table : Table) (name : String) : List Token → Prop
  | [] => table.isNullable (.nonterminal name) = true
  | token :: _ => table.lookup? name (.terminal token.terminal) = some [.epsilon]

variable {table : Table} {sourceEnd : Nat}

/-- A token stands for itself. -/
theorem means_leaf (token : Token) : Means (leaf token) (.bare (leaf token) : Reading α) :=
  ⟨0, fun _ _ => by rw [Reading.ofTree]⟩

/-- Trees in a row have their meanings under one limit. -/
theorem ofTrees_of_means {trees : List ParseTree} {parts : List (Reading α)}
    (h : List.Forall₂ Means trees parts) :
    ∃ least, ∀ limits : Limits, least ≤ limits.maxDepth →
      Reading.ofTrees limits trees = .ok parts := by
  induction h with
  | nil => exact ⟨0, fun _ _ => by rw [Reading.ofTrees]⟩
  | cons htree _ ih =>
    obtain ⟨first, hfirst⟩ := htree
    obtain ⟨others, hothers⟩ := ih
    refine ⟨max first others, fun limits hlimits => ?_⟩
    rw [max_le_iff] at hlimits
    rw [Reading.ofTrees, hfirst limits hlimits.1, hothers limits hlimits.2]
    rfl

/-- The meaning of a node follows from those of its children. -/
theorem means_node {name : String} {span : Text.Span} {children : List ParseTree}
    {parts : List (Reading α)} {r : Reading α} (h : List.Forall₂ Means children parts)
    (hnode : Reading.ofNode name (node name span children) parts = .ok r) :
    Means (node name span children) r := by
  obtain ⟨least, hleast⟩ := ofTrees_of_means h
  have hdepth : ∃ depth, ∀ limits : Limits, depth ≤ limits.maxDepth →
      Reading.checkDepth limits (node name span children) r = .ok r := by
    cases r with
    | bare _ => exact ⟨0, fun _ _ => rfl⟩
    | chain _ => exact ⟨0, fun _ _ => rfl⟩
    | expr _ depth => exact ⟨depth, fun limits hlimits => if_neg (Nat.not_lt.mpr hlimits)⟩
  obtain ⟨depth, hdepth⟩ := hdepth
  refine ⟨max least depth, fun limits hlimits => ?_⟩
  rw [max_le_iff] at hlimits
  rw [Reading.ofTree, hleast limits hlimits.1]
  change (Reading.ofNode name _ parts >>= _) = _
  rw [hnode]
  exact hdepth limits hlimits.2

/-- Nothing is left to be read. -/
theorem readsAll_nil (tokens : List Token) :
    ReadsAll (α := α) table sourceEnd [] tokens tokens [] :=
  ⟨0, [], rfl, .nil⟩

/-- A terminal is read from a token that matches it. -/
theorem readsAll_terminal {name : String} {symbols : List Symbol} {token : Token}
    {tokens rest : List Token} {parts : List (Reading α)} (hname : token.terminal = name)
    (h : ReadsAll table sourceEnd symbols tokens rest parts) :
    ReadsAll table sourceEnd (.terminal name :: symbols) (token :: tokens) rest
      (.bare (leaf token) :: parts) := by
  obtain ⟨fuel, trees, hparse, hmeans⟩ := h
  refine ⟨fuel + 1, leaf token :: trees, ?_, .cons (means_leaf token) hmeans⟩
  have hmore := parseAll_extends (parseSymbol_succ fuel) hparse
  rw [parseAll, parseSymbol, if_pos hname]
  simp only [bind, Except.bind, hmore]
  rfl

/-- A nonterminal is read before what follows it. -/
theorem readsAll_nonterminal {name : String} {symbols : List Symbol} {tokens mid rest : List Token}
    {r : Reading α} {parts : List (Reading α)} (hhere : Reads table sourceEnd name tokens mid r)
    (h : ReadsAll table sourceEnd symbols mid rest parts) :
    ReadsAll table sourceEnd (.nonterminal name :: symbols) tokens rest (r :: parts) := by
  obtain ⟨fuel, tree, hparse, hmeans⟩ := hhere
  obtain ⟨fuel', trees, hparse', hmeans'⟩ := h
  refine ⟨max fuel fuel', tree :: trees, ?_, .cons hmeans hmeans'⟩
  have hfirst := parseSymbol_mono (Nat.le_max_left fuel fuel') _ _ _ hparse
  have hmore := parseAll_extends (parseSymbol_mono (Nat.le_max_right fuel fuel')) hparse'
  rw [parseAll, hfirst]
  simp only [bind, Except.bind, hmore]
  rfl

/-- A nonterminal is read as the alternative that the table gives for the next token. -/
theorem reads_node {name : String} {alternative : List Symbol} {token : Token}
    {tokens rest : List Token} {parts : List (Reading α)} {r : Reading α}
    (hlookup : table.lookup? name (.terminal token.terminal) = some alternative)
    (h : ReadsAll table sourceEnd alternative (token :: tokens) rest parts)
    (hnode : ∀ tree : ParseTree, tree.children.length = parts.length →
      Reading.ofNode name tree parts = .ok r) :
    Reads table sourceEnd name (token :: tokens) rest r := by
  obtain ⟨fuel, trees, hparse, hmeans⟩ := h
  refine ⟨fuel + 1, ofChildren name token.span.start trees, ?_, ?_⟩
  · rw [parseSymbol]
    simp only [hlookup, hparse, bind, Except.bind, pure, Except.pure]
  · exact means_node hmeans (hnode _ hmeans.length_eq)

/-- A nonterminal that vanishes is read from nothing. -/
theorem reads_vanishing {name : String} {tokens : List Token} (h : Vanishes table name tokens) :
    ∃ tree, tree.isEmpty = true ∧ ∀ r : Reading α, Reading.ofNode name tree [] = .ok r →
      Reads table sourceEnd name tokens tokens r := by
  cases tokens with
  | nil =>
    refine ⟨ofChildren name sourceEnd [], rfl, fun r hr => ⟨1, _, ?_, means_node .nil hr⟩⟩
    have hnullable : table.isNullable (.nonterminal name) = true := h
    rw [parseSymbol, parseAtEnd, if_pos hnullable]
    rfl
  | cons token tokens =>
    refine ⟨ofChildren name token.span.start [], rfl, fun r hr => ⟨2, _, ?_, means_node .nil hr⟩⟩
    have hlookup : table.lookup? name (.terminal token.terminal) = some [.epsilon] := h
    rw [parseSymbol]
    simp only [hlookup]
    rfl

/-- The tokens are read as the nonterminal up to a rest, and mean the expression. -/
def ReadsAs (table : Table) (sourceEnd : Nat) (name : String) (tokens rest : List Token)
    (e : Expr α) : Prop :=
  ∃ depth, Reads table sourceEnd name tokens rest (.expr e depth)

/-- The tokens are read as the rest of a chain, which has these operands above and below the line. -/
def ReadsTail (table : Table) (sourceEnd : Nat) (name : String) (tokens rest : List Token)
    (above below : List (Expr α)) : Prop :=
  ∃ links, Reads table sourceEnd name tokens rest (.chain links) ∧
    (links = [] ↔ above = [] ∧ below = []) ∧
    ∀ n d depth, ∃ depth', Reading.join links n d depth = (n ++ above, d ++ below, depth')

/-- A tree with a child is not empty. -/
theorem isEmpty_of_length {tree : ParseTree} {n : Nat} (h : tree.children.length = n + 1) :
    tree.isEmpty = false := by
  cases tree with
  | leaf token => rfl
  | node name span children =>
    cases children with
    | nil => cases h
    | cons child children => rfl

/-- Whatever its depth, an expression changes its sign. -/
theorem negated_fst (e : Expr α) (depth : Nat) : (Reading.negated e depth).1 = e.neg := by
  fun_cases Reading.negated e depth <;> rfl

section Productions

variable (h : table.ReadsExpressions)
include h

/-- The table gives the alternative that is listed for the kind of a token. -/
theorem lookup?_of_choice {name : String} {kinds : List Token.Kind} {alternative : List Symbol}
    (hchoice : (name, kinds, alternative) ∈ Table.expressionChoices) (token : Token)
    (hkind : token.kind ∈ kinds) :
    table.lookup? name (.terminal token.terminal) = some alternative :=
  h.choices _ hchoice _ hkind

/-- A nonterminal with a single terminal is read from the token that matches it. -/
theorem reads_token {name : String} {kind : Token.Kind} {r : Reading α} {token : Token}
    (tokens : List Token) (hkind : token.kind = kind)
    (hchoice : (name, [kind], [.terminal kind.name]) ∈ Table.expressionChoices)
    (hnode : ∀ tree : ParseTree, tree.isEmpty = false →
      Reading.ofNode name tree [.bare (leaf token)] = .ok r) :
    Reads table sourceEnd name (token :: tokens) tokens r := by
  have hname : token.terminal = kind.name := congrArg Token.Kind.name hkind
  exact reads_node (lookup?_of_choice h hchoice token (List.mem_singleton.mpr hkind))
    (readsAll_terminal hname (readsAll_nil tokens)) fun tree hlength =>
      hnode tree (isEmpty_of_length hlength)

/-- A letter is read as a variable. -/
theorem reads_var {token : Token} (tokens : List Token) (hkind : token.kind = .var) :
    ReadsAs table sourceEnd "var" (token :: tokens) tokens (var token.lexeme : Expr α) :=
  ⟨1, reads_token h tokens hkind (by decide) fun _ _ => rfl⟩

/-- A numeral is read as the literal that it stands for. -/
theorem reads_real {token : Token} (tokens : List Token) (hkind : token.kind = .number) {v : α}
    (hvalue : Scalar.read? token.lexeme.toList = some v) :
    ReadsAs table sourceEnd "num" (token :: tokens) tokens (real v) := by
  have hname : token.terminal ≠ "CONST" := by
    rw [Token.terminal, hkind]
    decide
  refine ⟨1, reads_token h tokens hkind (by decide) fun tree _ => ?_⟩
  change Reading.readNumber tree _ = _
  simp only [Reading.readNumber, Reading.takeBare, bind, Except.bind, Reading.lexeme, lexeme?, symbol,
    Symbol.text, if_neg hname, hvalue]
  rfl

/-- The name of a constant is read as the constant. -/
theorem reads_constant {token : Token} (tokens : List Token) (hkind : token.kind = .const)
    {c : Constant} (hname : token.lexeme = c.name) :
    ReadsAs table sourceEnd "num" (token :: tokens) tokens (constant c : Expr α) := by
  have hterminal : token.terminal = "CONST" := congrArg Token.Kind.name hkind
  have hconstant : Constant.ofName? c.name = some c := by cases c <;> rfl
  refine ⟨1, reads_token h tokens hkind (by decide) fun tree _ => ?_⟩
  change Reading.readNumber tree _ = _
  simp only [Reading.readNumber, Reading.takeBare, bind, Except.bind, Reading.lexeme, lexeme?, symbol,
    Symbol.text, hterminal, if_true, hname, hconstant]
  rfl

/-- What stands between parentheses is read as an operand. -/
theorem reads_parenthesized {name : String} (hname : name ∈ ["expo", "funbody"])
    {opening closing : Token} {tokens rest : List Token} {e : Expr α}
    (hopening : opening.kind = .leftParen) (hclosing : closing.kind = .rightParen)
    (he : ReadsAs table sourceEnd "expr" tokens (closing :: rest) e) :
    ReadsAs table sourceEnd name (opening :: tokens) rest e := by
  obtain ⟨depth, he⟩ := he
  have hleft : opening.terminal = "LPAREN" := congrArg Token.Kind.name hopening
  have hright : closing.terminal = "RPAREN" := congrArg Token.Kind.name hclosing
  have hchoice : (name, [Token.Kind.leftParen], [Symbol.terminal "LPAREN", .nonterminal "expr",
      .terminal "RPAREN"]) ∈ Table.expressionChoices := by
    simp only [List.mem_cons, List.not_mem_nil, or_false] at hname
    obtain rfl | rfl := hname <;> decide
  refine ⟨depth, reads_node (lookup?_of_choice h hchoice opening (List.mem_singleton.mpr hopening))
    (readsAll_terminal hleft (readsAll_nonterminal he
      (readsAll_terminal hright (readsAll_nil rest)))) fun tree hlength => ?_⟩
  have hoperand : Reading.readOperand tree [.bare (leaf opening), .expr e depth,
      .bare (leaf closing)] = .ok (.expr e depth) := by
    rw [Reading.readOperand, hlength]
    rfl
  simp only [List.mem_cons, List.not_mem_nil, or_false] at hname
  obtain rfl | rfl := hname <;> exact hoperand

/-- An operand may be of a kind of its own. -/
theorem reads_operand {name inner : String} {kinds : List Token.Kind}
    (hname : name ∈ ["expo", "funbody", "function"])
    (hchoice : (name, kinds, [.nonterminal inner]) ∈ Table.expressionChoices) {token : Token}
    (hkind : token.kind ∈ kinds) {tokens rest : List Token} {e : Expr α}
    (he : ReadsAs table sourceEnd inner (token :: tokens) rest e) :
    ReadsAs table sourceEnd name (token :: tokens) rest e := by
  obtain ⟨depth, he⟩ := he
  refine ⟨depth, reads_node (lookup?_of_choice h hchoice token hkind)
    (readsAll_nonterminal he (readsAll_nil rest)) fun tree hlength => ?_⟩
  have hoperand : Reading.readOperand tree [.expr e depth] = .ok (.expr e depth) := by
    rw [Reading.readOperand, hlength]
    rfl
  simp only [List.mem_cons, List.not_mem_nil, or_false] at hname
  obtain rfl | rfl | rfl := hname <;> exact hoperand

/-- The name of a trigonometric function before its body is read as the function of the body. -/
theorem reads_trig {f : Trig} {token : Token} {tokens rest : List Token} {e : Expr α}
    (hkind : token.kind = Token.trigKind f) (hname : token.lexeme = f.name)
    (he : ReadsAs table sourceEnd "funbody" tokens rest e) :
    ReadsAs table sourceEnd "function" (token :: tokens) rest (trig f e) := by
  obtain ⟨depth, he⟩ := he
  have hkinds : token.kind ∈ [Token.Kind.sin, .cos, .tan] := by
    rw [hkind]
    cases f <;> decide
  have hoperator : Reads table sourceEnd "trifunc" (token :: tokens) tokens
      (.bare (leaf token) : Reading α) := by
    refine reads_token h tokens hkind (by cases f <;> decide) fun tree hempty => ?_
    change Reading.readOperator tree _ = _
    rw [Reading.readOperator, hempty]
    rfl
  have hfunction : Trig.ofName? f.name = some f := by cases f <;> rfl
  have hchoice : ("function", [Token.Kind.sin, .cos, .tan], [Symbol.nonterminal "triangular"]) ∈
      Table.expressionChoices := by decide
  refine reads_operand h (by decide) hchoice hkinds
    ⟨depth + 1, reads_node (lookup?_of_choice h (by decide) token hkinds)
      (readsAll_nonterminal hoperator (readsAll_nonterminal he (readsAll_nil rest)))
      fun tree _ => ?_⟩
  change Reading.readTrig tree _ = _
  simp only [Reading.readTrig, Reading.takeBare, Reading.takeExpr, bind, Except.bind, Reading.lexeme,
    lexeme?, hname, hfunction]
  rfl

/-- The name of the logarithm is read with the base before the mark and the body after it. -/
theorem reads_log {token mark : Token} {tokens mid rest : List Token} {a b : Expr α}
    (hkind : token.kind = .log) (hmark : mark.kind = .underscore)
    (ha : ReadsAs table sourceEnd "funbody" tokens (mark :: mid) a)
    (hb : ReadsAs table sourceEnd "funbody" mid rest b) :
    ReadsAs table sourceEnd "function" (token :: tokens) rest (log a b) := by
  obtain ⟨depth, ha⟩ := ha
  obtain ⟨depth', hb⟩ := hb
  have hname : token.terminal = "LOG" := congrArg Token.Kind.name hkind
  have hmark : mark.terminal = "UNDERSCORE" := congrArg Token.Kind.name hmark
  have hkinds : token.kind ∈ [Token.Kind.log] := List.mem_singleton.mpr hkind
  have hchoice : ("function", [Token.Kind.log], [Symbol.nonterminal "logarithm"]) ∈
      Table.expressionChoices := by decide
  exact reads_operand h (by decide) hchoice hkinds
    ⟨max depth depth' + 1, reads_node (lookup?_of_choice h (by decide) token hkinds)
      (readsAll_terminal hname (readsAll_nonterminal ha
        (readsAll_terminal hmark (readsAll_nonterminal hb (readsAll_nil rest)))))
      fun tree _ => rfl⟩

/-- An operand with an exponent is read as a power. -/
theorem reads_power {token mark : Token} {tokens mid rest : List Token} {a b : Expr α}
    (hkind : token.kind ∈ Table.operandKinds) (hmark : mark.kind = .caret)
    (ha : ReadsAs table sourceEnd "expo" (token :: tokens) (mark :: mid) a)
    (hb : ReadsAs table sourceEnd "factor" mid rest b) :
    ReadsAs table sourceEnd "body" (token :: tokens) rest (power a b) := by
  obtain ⟨depth, ha⟩ := ha
  obtain ⟨depth', hb⟩ := hb
  have hname : mark.terminal = "CARET" := congrArg Token.Kind.name hmark
  have htail : Reads table sourceEnd "body_tail" (mark :: mid) rest
      (.chain [⟨"CARET", b, depth'⟩] : Reading α) := by
    refine reads_node (lookup?_of_choice h (by decide) mark (List.mem_singleton.mpr hmark))
      (readsAll_terminal hname (readsAll_nonterminal hb (readsAll_nil rest))) fun tree hlength => ?_
    change Reading.readExponent tree _ = _
    rw [Reading.readExponent, isEmpty_of_length hlength, ← hname]
    rfl
  exact ⟨max depth depth' + 1, reads_node (lookup?_of_choice h (by decide) token hkind)
    (readsAll_nonterminal ha (readsAll_nonterminal htail (readsAll_nil rest))) fun tree _ => rfl⟩

/-- An operand without an exponent stands for itself. -/
theorem reads_body {token : Token} {tokens rest : List Token} {e : Expr α}
    (hkind : token.kind ∈ Table.operandKinds)
    (he : ReadsAs table sourceEnd "expo" (token :: tokens) rest e)
    (hrest : Vanishes table "body_tail" rest) :
    ReadsAs table sourceEnd "body" (token :: tokens) rest e := by
  obtain ⟨depth, he⟩ := he
  obtain ⟨tree, hempty, htail⟩ := reads_vanishing (α := α) hrest
  have htail : Reads table sourceEnd "body_tail" rest rest (.chain [] : Reading α) := by
    refine htail _ ?_
    change Reading.readExponent tree _ = _
    rw [Reading.readExponent, hempty]
    rfl
  exact ⟨depth, reads_node (lookup?_of_choice h (by decide) token hkind)
    (readsAll_nonterminal he (readsAll_nonterminal htail (readsAll_nil rest))) fun tree _ => rfl⟩

/-- A factor may have no minus in front. -/
theorem reads_factor {token : Token} {tokens rest : List Token} {e : Expr α}
    (hkind : token.kind ∈ Table.operandKinds)
    (he : ReadsAs table sourceEnd "body" (token :: tokens) rest e) :
    ReadsAs table sourceEnd "factor" (token :: tokens) rest e := by
  obtain ⟨depth, he⟩ := he
  have hsign : Vanishes table "prefix" (token :: tokens) :=
    lookup?_of_choice h (by decide) token hkind
  obtain ⟨sign, hempty, hprefix⟩ := reads_vanishing (α := α) hsign
  have hprefix : Reads table sourceEnd "prefix" (token :: tokens) (token :: tokens)
      (.bare sign : Reading α) := by
    refine hprefix _ ?_
    change Reading.readOperator sign _ = _
    rw [Reading.readOperator, hempty]
    rfl
  have hsigned : token.kind ∈ Token.Kind.minus :: Table.operandKinds := List.mem_cons_of_mem _ hkind
  refine ⟨depth, reads_node (lookup?_of_choice h (by decide) token hsigned)
    (readsAll_nonterminal hprefix (readsAll_nonterminal he (readsAll_nil rest))) fun tree _ => ?_⟩
  change Reading.readFactor tree _ = _
  simp only [Reading.readFactor, Reading.takeBare, Reading.takeExpr, bind, Except.bind, hempty, if_true]
  rfl

/-- A minus in front of a factor changes its sign. -/
theorem reads_negated {token : Token} {tokens rest : List Token} {e : Expr α}
    (hkind : token.kind = .minus) (he : ReadsAs table sourceEnd "body" tokens rest e) :
    ReadsAs table sourceEnd "factor" (token :: tokens) rest e.neg := by
  obtain ⟨depth, he⟩ := he
  have hprefix : Reads table sourceEnd "prefix" (token :: tokens) tokens
      (.bare (leaf token) : Reading α) := by
    refine reads_token h tokens hkind (by decide) fun tree hempty => ?_
    change Reading.readOperator tree _ = _
    rw [Reading.readOperator, hempty]
    rfl
  have hsigned : token.kind ∈ Token.Kind.minus :: Table.operandKinds := by
    rw [hkind]
    exact List.mem_cons_self
  rw [← negated_fst e depth]
  exact ⟨(Reading.negated e depth).2, reads_node (lookup?_of_choice h (by decide) token hsigned)
    (readsAll_nonterminal hprefix (readsAll_nonterminal he (readsAll_nil rest))) fun tree _ => rfl⟩

omit h in
/-- A chain may end. -/
theorem readsTail_nil {name : String} (hname : name ∈ ["expr_tail", "term_tail"])
    {tokens : List Token} (htokens : Vanishes table name tokens) :
    ReadsTail table sourceEnd name tokens tokens ([] : List (Expr α)) [] := by
  obtain ⟨tree, hempty, htail⟩ := reads_vanishing (α := α) htokens
  refine ⟨[], htail _ ?_, by simp, fun n d depth => ⟨depth, by simp [Reading.join]⟩⟩
  have hnone : Reading.readTail tree [] = .ok (.chain [] : Reading α) := by
    rw [Reading.readTail, hempty]
    rfl
  simp only [List.mem_cons, List.not_mem_nil, or_false] at hname
  obtain rfl | rfl := hname <;> exact hnone

/-- A sign of this kind joins an operand to a chain. -/
structure Links (name operator inner : String) (kind : Token.Kind) : Prop where
  inTail : name ∈ ["expr_tail", "term_tail"]
  isOperator : operator ∈ ["addop", "mulop"]
  choice : ∃ kinds, kind ∈ kinds ∧
    (name, kinds, [.nonterminal operator, .nonterminal inner, .nonterminal name]) ∈
      Table.expressionChoices
  sign : (operator, [kind], [.terminal kind.name]) ∈ Table.expressionChoices

omit h in
/-- Plus and minus join terms, and the signs of multiplication and division join factors. -/
theorem links_of_sign :
    Links "expr_tail" "addop" "term" .plus ∧ Links "expr_tail" "addop" "term" .minus ∧
      Links "term_tail" "mulop" "factor" .times ∧ Links "term_tail" "mulop" "factor" .divide := by
  have hplus : ∀ kind ∈ [Token.Kind.plus, .minus], Links "expr_tail" "addop" "term" kind :=
    fun kind hkind => ⟨by decide, by decide, ⟨_, hkind, by decide⟩, by revert kind; decide⟩
  have htimes : ∀ kind ∈ [Token.Kind.times, .divide], Links "term_tail" "mulop" "factor" kind :=
    fun kind hkind => ⟨by decide, by decide, ⟨_, hkind, by decide⟩, by revert kind; decide⟩
  exact ⟨hplus _ (by decide), hplus _ (by decide), htimes _ (by decide), htimes _ (by decide)⟩

/-- A chain goes on with an operator and an operand: a minus changes its sign, and a fraction line
puts it below. -/
theorem readsTail_cons {name operator inner : String} {token : Token}
    (hlinks : Links name operator inner token.kind) {tokens mid rest : List Token} {e : Expr α}
    {above below : List (Expr α)}
    (he : ReadsAs table sourceEnd inner tokens mid e)
    (htail : ReadsTail table sourceEnd name mid rest above below) :
    ReadsTail table sourceEnd name (token :: tokens) rest
      (if token.kind = .minus then e.neg :: above
        else if token.kind = .divide then above else e :: above)
      (if token.kind = .divide then e :: below else below) := by
  obtain ⟨hname, hoperator, ⟨kinds, hkind, hchoice⟩, hsign⟩ := hlinks
  obtain ⟨depth, he⟩ := he
  obtain ⟨links, htail, -, hjoin⟩ := htail
  have hread : Reads table sourceEnd operator (token :: tokens) tokens
      (.bare (leaf token) : Reading α) := by
    refine reads_token h tokens rfl hsign fun tree hempty => ?_
    have hread : Reading.readOperator tree [.bare (leaf token)] =
        .ok (.bare (leaf token) : Reading α) := by
      rw [Reading.readOperator, hempty]
      rfl
    simp only [List.mem_cons, List.not_mem_nil, or_false] at hoperator
    obtain rfl | rfl := hoperator <;> exact hread
  refine ⟨⟨token.terminal, e, depth⟩ :: links,
    reads_node (lookup?_of_choice h hchoice token hkind)
      (readsAll_nonterminal hread (readsAll_nonterminal he
        (readsAll_nonterminal htail (readsAll_nil rest)))) fun tree hlength => ?_, ?_, ?_⟩
  · have hread : Reading.readTail tree [.bare (leaf token), .expr e depth, .chain links] =
        .ok (.chain (⟨token.terminal, e, depth⟩ :: links)) := by
      rw [Reading.readTail, isEmpty_of_length hlength]
      rfl
    simp only [List.mem_cons, List.not_mem_nil, or_false] at hname
    obtain rfl | rfl := hname <;> exact hread
  · refine ⟨fun hnil => (List.cons_ne_nil _ _ hnil).elim, fun hnil => ?_⟩
    split at hnil <;> split at hnil <;> simp_all
  · intro n d depth'
    have hminus : token.terminal = "MINUS" ↔ token.kind = .minus := by
      rw [Token.terminal]
      cases token.kind <;> decide
    have hdivide : token.terminal = "DIVIDE" ↔ token.kind = .divide := by
      rw [Token.terminal]
      cases token.kind <;> decide
    simp only [Reading.join, hminus, hdivide, negated_fst]
    split
    · rename_i hkind
      simpa [hkind] using hjoin (n ++ [e.neg]) d _
    · split
      · simpa using hjoin n (d ++ [e]) _
      · simpa using hjoin (n ++ [e]) d _

omit h in
/-- A chain of operands is read as what is built of them, and an operand alone as itself. -/
theorem readChain_eq (build : List (Expr α) → List (Expr α) → Expr α) (e : Expr α) (depth : Nat)
    {links : List (Link α)} {above below : List (Expr α)}
    (hlinks : links = [] ↔ above = [] ∧ below = [])
    (hjoin : ∀ n d depth, ∃ depth',
      Reading.join links n d depth = (n ++ above, d ++ below, depth')) :
    ∃ depth', ∀ tree : ParseTree, Reading.readChain build tree [.expr e depth, .chain links] =
      .ok (.expr (if above = [] ∧ below = [] then e else build (e :: above) below) depth') := by
  obtain ⟨depth', hjoin⟩ := hjoin [e] [] depth
  by_cases hnone : links = []
  · refine ⟨depth, fun tree => ?_⟩
    rw [if_pos (hlinks.mp hnone), hnone]
    rfl
  · refine ⟨depth' + 1, fun tree => ?_⟩
    have hsome : links.isEmpty = false := by simpa using hnone
    rw [if_neg (mt hlinks.mpr hnone)]
    simp only [Reading.readChain, Reading.takeExpr, Reading.takeChain, bind, Except.bind, hsome, hjoin]
    rfl

/-- A term alone stands for itself, and with more terms after it for their sum. -/
theorem reads_sum {token : Token} {tokens mid rest : List Token} {e : Expr α}
    {above below : List (Expr α)} (hkind : token.kind ∈ Token.Kind.minus :: Table.operandKinds)
    (he : ReadsAs table sourceEnd "term" (token :: tokens) mid e)
    (htail : ReadsTail table sourceEnd "expr_tail" mid rest above below) :
    ReadsAs table sourceEnd "expr" (token :: tokens) rest
      (if above = [] ∧ below = [] then e else .sum (e :: above)) := by
  obtain ⟨depth, he⟩ := he
  obtain ⟨links, htail, hlinks, hjoin⟩ := htail
  obtain ⟨depth', hchain⟩ := readChain_eq (fun above _ => .sum above) e depth hlinks hjoin
  exact ⟨depth', reads_node (lookup?_of_choice h (by decide) token hkind)
    (readsAll_nonterminal he (readsAll_nonterminal htail (readsAll_nil rest))) fun tree _ =>
      hchain tree⟩

/-- A factor alone stands for itself, and with more factors after it for their product. -/
theorem reads_product {token : Token} {tokens mid rest : List Token} {e : Expr α}
    {above below : List (Expr α)} (hkind : token.kind ∈ Token.Kind.minus :: Table.operandKinds)
    (he : ReadsAs table sourceEnd "factor" (token :: tokens) mid e)
    (htail : ReadsTail table sourceEnd "term_tail" mid rest above below) :
    ReadsAs table sourceEnd "term" (token :: tokens) rest
      (if above = [] ∧ below = [] then e else .product .one (e :: above) below) := by
  obtain ⟨depth, he⟩ := he
  obtain ⟨links, htail, hlinks, hjoin⟩ := htail
  obtain ⟨depth', hchain⟩ := readChain_eq (.product .one) e depth hlinks hjoin
  exact ⟨depth', reads_node (lookup?_of_choice h (by decide) token hkind)
    (readsAll_nonterminal he (readsAll_nonterminal htail (readsAll_nil rest))) fun tree _ =>
      hchain tree⟩

end Productions

end SymbolicAlgebra.Expr
