import SymbolicAlgebra.Proofs.Expr.Limit
import SymbolicAlgebra.Proofs.Expr.Precedence
import SymbolicAlgebra.Proofs.Token.Munch
import SymbolicAlgebra.Scalar.Binary64

/-!
# Accepted sources

Every source that the grammar of expressions accepts is read by the precedence of its operators. What a
nonterminal derives is put together as an expression or is a part of one, by induction on the derivation,
and the lexer leaves no word that does not have the meaning of its kind. So the tokens of a source that is
accepted stand for an expression, which is the only one, and reading the source can fail at the depth limit
only.
-/

namespace SymbolicAlgebra.Expr

open Grammar

variable {α : Type} [Scalar α]

/-- Tokens of different terminals are of different kinds. -/
theorem kind_of_terminal {t : Token} {kind : Token.Kind} (h : t.terminal = kind.name) :
    t.kind = kind := by
  rw [Token.terminal] at h
  revert h
  cases t.kind <;> cases kind <;> first | exact fun _ => rfl | exact fun h => absurd h (by decide)

/-- Operators of some kinds with operands at a level of precedence, one after the other. -/
def ChainOf (α : Type) [Scalar α] (level : Level) (kinds : List Token.Kind) (ts : List Token) : Prop :=
  ∃ os : List (Operand α), (∀ o ∈ os, o.sign.kind ∈ kinds) ∧
    (∀ o ∈ os, Denotes level o.words o.value) ∧ ts = os.flatMap Operand.tokens

/-- What the tokens that a nonterminal derives stand for. -/
def Understood (α : Type) [Scalar α] (name : String) (ts : List Token) : Prop :=
  match name with
  | "expr" => ∃ e : Expr α, Denotes .sum ts e
  | "expr_tail" => ChainOf α .product [.plus, .minus] ts
  | "addop" => ∃ t, ts = [t] ∧ t.kind ∈ [Token.Kind.plus, .minus]
  | "term" => ∃ e : Expr α, Denotes .product ts e
  | "term_tail" => ChainOf α .factor [.times, .divide] ts
  | "mulop" => ∃ t, ts = [t] ∧ t.kind ∈ [Token.Kind.times, .divide]
  | "factor" => ∃ e : Expr α, Denotes .factor ts e
  | "prefix" => ts = [] ∨ ∃ t, ts = [t] ∧ t.kind = .minus
  | "body" => ∃ e : Expr α, Denotes .power ts e
  | "body_tail" => ts = [] ∨ ∃ t words, ts = t :: words ∧ t.kind = .caret ∧
      ∃ e : Expr α, Denotes .factor words e
  | "trifunc" => ∃ t, ∃ f : Trig, ts = [t] ∧ t.kind = Token.trigKind f ∧ t.lexeme = f.name
  | _ => ∃ e : Expr α, Denotes .operand ts e

/-- The tokens are made of those that the symbols derive, and every one of them is spelled like its
kind. -/
def Parts (α : Type) [Scalar α] : List Symbol → List Token → Prop
  | [], ts => ts = []
  | .epsilon :: symbols, ts => Parts α symbols ts
  | .terminal name :: symbols, ts => ∃ t rest, ts = t :: rest ∧ t.terminal = name ∧
      t.kind.Matches t.lexeme.toList ∧ Parts α symbols rest
  | .nonterminal name :: symbols, ts => ∃ used rest, ts = used ++ rest ∧
      Understood α name used ∧ Parts α symbols rest
  | .endMarker :: _, _ => False

/-- A token that a single terminal derives. -/
theorem token_of_parts {kind : Token.Kind} {ts : List Token}
    (h : Parts α [.terminal kind.name] ts) :
    ∃ t, ts = [t] ∧ t.kind = kind ∧ t.kind.Matches t.lexeme.toList := by
  obtain ⟨t, _, rfl, hname, hmatches, rfl⟩ := h
  exact ⟨t, rfl, kind_of_terminal hname, hmatches⟩

/-- The tokens of a single nonterminal are those that it derives. -/
theorem understood_of_parts_single {name : String} {ts : List Token}
    (h : Parts α [.nonterminal name] ts) : Understood α name ts := by
  obtain ⟨used, _, rfl, hused, rfl⟩ := h
  rwa [List.append_nil]

/-- A product and what follows it are a sum. -/
theorem understood_expr {ts : List Token}
    (h : Parts α [.nonterminal "term", .nonterminal "expr_tail"] ts) : Understood α "expr" ts := by
  obtain ⟨words, _, rfl, ⟨first, hfirst⟩, _, _, rfl, ⟨os, hsigns, hos, rfl⟩, rfl⟩ := h
  rw [List.append_nil]
  by_cases hsome : os = []
  · refine ⟨first, ?_⟩
    simpa [hsome] using Denotes.addend hfirst
  · exact ⟨_, .sum hfirst hsome (fun o ho => by simpa using hsigns o ho) hos⟩

/-- A factor and what follows it are a product. -/
theorem understood_term {ts : List Token}
    (h : Parts α [.nonterminal "factor", .nonterminal "term_tail"] ts) : Understood α "term" ts := by
  obtain ⟨words, _, rfl, ⟨first, hfirst⟩, _, _, rfl, ⟨os, hsigns, hos, rfl⟩, rfl⟩ := h
  rw [List.append_nil]
  by_cases hsome : os = []
  · refine ⟨first, ?_⟩
    simpa [hsome] using Denotes.factor hfirst
  · exact ⟨_, .product hfirst hsome (fun o ho => by simpa using hsigns o ho) hos⟩

/-- An operator and its operand go before the rest of a chain. -/
theorem chainOf_cons {level : Level} {kinds : List Token.Kind} {t : Token} {words ts : List Token}
    {e : Expr α} (ht : t.kind ∈ kinds) (he : Denotes level words e) (h : ChainOf α level kinds ts) :
    ChainOf α level kinds (t :: (words ++ ts)) := by
  obtain ⟨os, hsigns, hos, rfl⟩ := h
  exact ⟨⟨t, words, e⟩ :: os, List.forall_mem_cons.mpr ⟨ht, hsigns⟩,
    List.forall_mem_cons.mpr ⟨he, hos⟩, rfl⟩

/-- A chain of terms goes on. -/
theorem understood_expr_tail {ts : List Token}
    (h : Parts α [.nonterminal "addop", .nonterminal "term", .nonterminal "expr_tail"] ts) :
    Understood α "expr_tail" ts := by
  obtain ⟨_, _, rfl, ⟨t, rfl, ht⟩, words, _, rfl, ⟨e, he⟩, more, _, rfl, hchain, rfl⟩ := h
  rw [List.append_nil more, List.singleton_append]
  exact chainOf_cons ht he hchain

/-- A chain of factors goes on. -/
theorem understood_term_tail {ts : List Token}
    (h : Parts α [.nonterminal "mulop", .nonterminal "factor", .nonterminal "term_tail"] ts) :
    Understood α "term_tail" ts := by
  obtain ⟨_, _, rfl, ⟨t, rfl, ht⟩, words, _, rfl, ⟨e, he⟩, more, _, rfl, hchain, rfl⟩ := h
  rw [List.append_nil more, List.singleton_append]
  exact chainOf_cons ht he hchain

/-- A power with a minus in front or without one is a factor. -/
theorem understood_factor {ts : List Token}
    (h : Parts α [.nonterminal "prefix", .nonterminal "body"] ts) : Understood α "factor" ts := by
  obtain ⟨_, _, rfl, hprefix, words, _, rfl, ⟨e, he⟩, rfl⟩ := h
  rw [List.append_nil]
  obtain rfl | ⟨t, rfl, ht⟩ := hprefix
  · exact ⟨e, .unsigned he⟩
  · exact ⟨_, .negated ht he⟩

/-- An operand with an exponent or without one is a power. -/
theorem understood_body {ts : List Token}
    (h : Parts α [.nonterminal "expo", .nonterminal "body_tail"] ts) : Understood α "body" ts := by
  obtain ⟨words, _, rfl, ⟨e, he⟩, _, _, rfl, htail, rfl⟩ := h
  rw [List.append_nil]
  obtain rfl | ⟨t, exponent, rfl, ht, e', he'⟩ := htail
  · exact ⟨e, by simpa using Denotes.base he⟩
  · exact ⟨_, .power ht he he'⟩

/-- A mark before a factor is an exponent. -/
theorem understood_body_tail {ts : List Token}
    (h : Parts α [.terminal "CARET", .nonterminal "factor"] ts) : Understood α "body_tail" ts := by
  obtain ⟨t, _, rfl, hname, -, words, _, rfl, he, rfl⟩ := h
  refine .inr ⟨t, words, by rw [List.append_nil], kind_of_terminal hname, he⟩

/-- A sum between parentheses is an operand. -/
theorem operand_of_parenthesized {ts : List Token}
    (h : Parts α [.terminal "LPAREN", .nonterminal "expr", .terminal "RPAREN"] ts) :
    ∃ e : Expr α, Denotes .operand ts e := by
  obtain ⟨opening, _, rfl, hopening, -, words, _, rfl, ⟨e, he⟩, closing, _, rfl, hclosing, -, rfl⟩ := h
  exact ⟨e, .parenthesized (kind_of_terminal hopening) (kind_of_terminal hclosing) he⟩

/-- A function of an operand is an operand. -/
theorem operand_of_trig {ts : List Token}
    (h : Parts α [.nonterminal "trifunc", .nonterminal "funbody"] ts) :
    ∃ e : Expr α, Denotes .operand ts e := by
  obtain ⟨_, _, rfl, ⟨t, f, rfl, hkind, hname⟩, words, _, rfl, ⟨e, he⟩, rfl⟩ := h
  rw [List.append_nil]
  exact ⟨_, .trig hkind hname he⟩

/-- A logarithm of an operand to an operand is an operand. -/
theorem operand_of_log {ts : List Token}
    (h : Parts α [.terminal "LOG", .nonterminal "funbody", .terminal "UNDERSCORE",
      .nonterminal "funbody"] ts) : ∃ e : Expr α, Denotes .operand ts e := by
  obtain ⟨name, _, rfl, hname, -, words, _, rfl, ⟨a, ha⟩, mark, _, rfl, hmark, -, body, _, rfl, ⟨b, hb⟩,
    rfl⟩ := h
  rw [List.append_nil]
  exact ⟨_, .log (kind_of_terminal hname) (kind_of_terminal hmark) ha hb⟩

/-- The name of a trigonometric function is that of its kind. -/
theorem understood_trifunc (f : Trig) {ts : List Token}
    (h : Parts α [.terminal (Token.trigKind f).name] ts) : Understood α "trifunc" ts := by
  obtain ⟨t, rfl, hkind, hmatches⟩ := token_of_parts h
  rw [hkind] at hmatches
  refine ⟨t, f, rfl, hkind, String.toList_inj.mp ?_⟩
  cases f <;> exact List.mem_singleton.mp hmatches

/-- A letter is an operand. -/
theorem operand_of_var {ts : List Token} (h : Parts α [.terminal "VAR"] ts) :
    ∃ e : Expr α, Denotes .operand ts e := by
  obtain ⟨t, _, rfl, hname, -, rfl⟩ := h
  exact ⟨_, .var (kind_of_terminal hname)⟩

/-- A numeral is an operand, since it can be read. -/
theorem operand_of_numeral {ts : List Token}
    (h : Parts α [.terminal (Token.Kind.name .number)] ts) : ∃ e : Expr α, Denotes .operand ts e := by
  obtain ⟨t, rfl, hkind, hmatches⟩ := token_of_parts h
  rw [hkind] at hmatches
  obtain ⟨d, hread⟩ := IsNumeral.exists_read? hmatches
  exact ⟨_, .real hkind (by rw [Scalar.read?, hread]; rfl)⟩

/-- The name of a constant is an operand. -/
theorem operand_of_constant {ts : List Token}
    (h : Parts α [.terminal (Token.Kind.name .const)] ts) : ∃ e : Expr α, Denotes .operand ts e := by
  obtain ⟨t, rfl, hkind, hmatches⟩ := token_of_parts h
  rw [hkind] at hmatches
  have hname : ∃ c : Constant, t.lexeme = c.name := by
    have hwords : t.lexeme.toList = ['e'] ∨ t.lexeme.toList = ['p', 'i'] := by
      simpa [Token.Kind.Matches, Token.Kind.texts] using hmatches
    obtain hword | hword := hwords
    · exact ⟨.e, String.toList_inj.mp hword⟩
    · exact ⟨.pi, String.toList_inj.mp hword⟩
  obtain ⟨c, hname⟩ := hname
  exact ⟨_, .constant hkind hname⟩

/-- What a single terminal derives is a token of its kind. -/
theorem operator_of_parts (kind : Token.Kind) {kinds : List Token.Kind} (hkind : kind ∈ kinds)
    {ts : List Token} (h : Parts α [.terminal kind.name] ts) : ∃ t, ts = [t] ∧ t.kind ∈ kinds := by
  obtain ⟨t, rfl, rfl, -⟩ := token_of_parts h
  exact ⟨t, rfl, hkind⟩

/-- Nothing is a chain without operands. -/
theorem chainOf_nil {level : Level} {kinds : List Token.Kind} {ts : List Token}
    (h : Parts α [.epsilon] ts) : ChainOf α level kinds ts :=
  ⟨[], nofun, nofun, h⟩

/-- What a nonterminal stands for follows from what the symbols of any of its alternatives do. -/
theorem understood_of_choice : ∀ choice ∈ Table.expressionChoices, ∀ ts,
    Parts α choice.2.2 ts → Understood α choice.1 ts := by
  simp only [Table.expressionChoices, List.forall_mem_cons]
  refine ⟨fun _ => understood_expr, fun _ => understood_expr_tail, fun _ => chainOf_nil,
    fun _ => operator_of_parts .plus (by decide), fun _ => operator_of_parts .minus (by decide),
    fun _ => understood_term, fun _ => understood_term_tail, fun _ => chainOf_nil,
    fun _ => operator_of_parts .times (by decide), fun _ => operator_of_parts .divide (by decide),
    fun _ => understood_factor, fun _ h => .inr ?_, fun _ => .inl, fun _ => understood_body,
    fun _ => understood_body_tail, fun _ => .inl, fun _ => operand_of_parenthesized,
    fun _ => understood_of_parts_single, fun _ => understood_of_parts_single,
    fun _ => understood_of_parts_single, fun _ => understood_of_parts_single,
    fun _ => understood_of_parts_single, fun _ => operand_of_trig, fun _ => understood_trifunc .sin,
    fun _ => understood_trifunc .cos, fun _ => understood_trifunc .tan, fun _ => operand_of_log,
    fun _ => operand_of_parenthesized, fun _ => understood_of_parts_single,
    fun _ => understood_of_parts_single, fun _ => understood_of_parts_single, fun _ => operand_of_var,
    fun _ => operand_of_numeral, fun _ => operand_of_constant, nofun⟩
  obtain ⟨t, hts, ht⟩ := operator_of_parts .minus (List.mem_singleton_self _) h
  exact ⟨t, hts, List.mem_singleton.mp ht⟩

/-- The tokens of a source are spelled like their kinds. -/
theorem matches_of_mem_scan {source : String} {t : Token} (ht : t ∈ Token.scan source) :
    t.kind.Matches t.lexeme.toList := by
  obtain ⟨_, hmatch⟩ := Token.longestMatch_of_mem_scan ht
  exact hmatch.found

section Readings

variable {table : Table} (h : table.ReadsExpressions)
include h

/-- Tokens spelled like their kinds that a row of symbols derives are made of what the symbols stand for.
The induction is on the derivation. -/
theorem parts_of_yields {symbols : List Symbol} {names : List String}
    (hyields : table.grammar.Yields symbols names) {ts : List Token}
    (hnames : ts.map Token.terminal = names) (hspelled : ∀ t ∈ ts, t.kind.Matches t.lexeme.toList) :
    Parts α symbols ts := by
  induction hyields generalizing ts with
  | nil => exact List.map_eq_nil_iff.mp hnames
  | epsilon _ ih => exact ih hnames hspelled
  | terminal _ ih =>
    obtain ⟨t, rest, rfl, hname, hrest⟩ := List.map_eq_cons_iff.mp hnames
    rw [List.forall_mem_cons] at hspelled
    exact ⟨t, rest, rfl, hname, hspelled.1, ih hrest hspelled.2⟩
  | nonterminal hproduces _ _ ihbelow ihrest =>
    obtain ⟨used, rest, rfl, hused, hrest⟩ := List.map_eq_append_iff.mp hnames
    rw [List.forall_mem_append] at hspelled
    obtain ⟨rule, hrule, rfl, halternative⟩ := hproduces
    obtain ⟨choice, hchoice, heq⟩ := List.mem_map.mp (h.complete rule hrule _ halternative)
    rw [Prod.mk.injEq] at heq
    refine ⟨used, rest, rfl, ?_, ihrest hrest hspelled.2⟩
    rw [← heq.1]
    refine understood_of_choice choice hchoice used ?_
    rw [heq.2]
    exact ihbelow hused hspelled.1

/-- The tokens of a source that is parsed stand for an expression. -/
theorem exists_denotes (hbuilt : Table.Built table.grammar table) {source : String} {tree : ParseTree}
    (hparse : ParseTree.parse table source = .ok tree) :
    ∃ e : Expr α, Denotes .sum ((Token.scan source).filter fun t => !t.isWhitespace) e := by
  have hendless : ParseTree.Endless table.grammar := by
    rintro name alternative ⟨rule, hrule, -, halternative⟩
    exact h.endless rule hrule alternative halternative
  have hyields := ParseTree.yields_of_ofStream hbuilt hendless hparse
  rw [h.start] at hyields
  exact understood_of_parts_single (parts_of_yields h hyields rfl fun t ht =>
    matches_of_mem_scan (List.mem_of_mem_filter ht))

/-- A source whose tokens stand for an expression is parsed, and read as that expression under every
depth limit that is large enough. -/
theorem read_of_denotes (hbuilt : Table.Built table.grammar table) {source : String} {e : Expr α}
    (he : Denotes .sum ((Token.scan source).filter fun t => !t.isWhitespace) e) :
    ∃ tree, ParseTree.parse table source = .ok tree ∧
      ∃ least, ∀ limits : Limits, least ≤ limits.maxDepth → ofTree limits tree = .ok e := by
  obtain ⟨depth, fuel, tree, hparse, least, hmeans⟩ :=
    (readAt_of_denotes h he).reads "expr" (by decide) source.utf8ByteSize [] (.inr nofun)
  rw [List.append_nil] at hparse
  refine ⟨tree, ?_, least, fun limits hlimits => ?_⟩
  · exact ParseTree.parse_of_parseSymbol hbuilt (h.start ▸ hparse)
  · rw [ofTree, hmeans limits hlimits]
    rfl

end Readings

/-- Reading goes by the precedence of the operators. The grammar of expressions accepts exactly the sources
whose tokens stand for an expression, and they stand for only one. Such a source is read as it under every
depth limit that is large enough, and under any other limit it can only be refused as too deep. -/
theorem read_by_precedence {table : Table} (htable : Table.expression = .ok table) (source : String) :
    ((∃ tree, ParseTree.parse table source = .ok tree) ↔
      ∃ e : Expr α, Denotes .sum ((Token.scan source).filter fun t => !t.isWhitespace) e) ∧
    ∀ e : Expr α, Denotes .sum ((Token.scan source).filter fun t => !t.isWhitespace) e →
      (∀ e' : Expr α, Denotes .sum ((Token.scan source).filter fun t => !t.isWhitespace) e' → e' = e) ∧
      (∃ least, ∀ limits : Limits, least ≤ limits.maxDepth → read table limits source = .ok e) ∧
      ∀ limits : Limits, read table limits source = .ok e ∨ ∃ span,
        read table limits source = (.error (.located span (.tooDeep limits.maxDepth)) :
          Except Failure (Expr α)) := by
  have hbuilt := Table.built_of_expression htable
  obtain ⟨table', htable', h⟩ := Table.exists_expression
  obtain rfl : table' = table := Except.ok.inj (htable'.symm.trans htable)
  refine ⟨⟨fun ⟨tree, hparse⟩ => exists_denotes h hbuilt hparse, fun ⟨e, he⟩ => ?_⟩, fun e he => ?_⟩
  · obtain ⟨tree, hparse, -⟩ := read_of_denotes h hbuilt he
    exact ⟨tree, hparse⟩
  · obtain ⟨tree, hparse, least, hread⟩ := read_of_denotes h hbuilt he
    have hsource (limits : Limits) : read table' limits source = ofTree (α := α) limits tree := by
      rw [read, hparse]
      rfl
    refine ⟨fun e' he' => ?_, ⟨least, fun limits hlimits => ?_⟩, fun limits => ?_⟩
    · obtain ⟨tree', hparse', least', hread'⟩ := read_of_denotes h hbuilt he'
      obtain rfl : tree' = tree := Except.ok.inj (hparse'.symm.trans hparse)
      let limits : Limits := ⟨0, max least least', 0⟩
      have hboth := (hread limits (le_max_left _ _)).symm.trans (hread' limits (le_max_right _ _))
      exact (Except.ok.inj hboth).symm
    · rw [hsource, hread limits hlimits]
    · let larger : Limits := ⟨0, max least limits.maxDepth, 0⟩
      have hdepth : UpToDepth limits (read table' limits source : Except Failure (Expr α))
          (read table' larger source) := upToDepth_read (le_max_right _ _) table' source
      rw [hsource larger, hread larger (le_max_left _ _)] at hdepth
      exact hdepth

/-- A quotient is taken away as a whole, and the minus of an exponent stays there. -/
theorem read_by_precedence_difference : ∃ table, Table.expression = .ok table ∧
    ∃ least, ∀ limits : Limits, least ≤ limits.maxDepth → read table limits "x-y^-z/t" =
      .ok (.sum [.var "x", (product (.one : Coefficient Float)
        [.power (.var "y") (Expr.var "z").neg] [.var "t"]).neg]) := by
  obtain ⟨table, htable, -⟩ := Table.exists_expression
  refine ⟨table, htable, ((read_by_precedence htable "x-y^-z/t").2 _ ?_).2.1⟩
  have hscan : ((Token.scan "x-y^-z/t").filter fun t => !t.isWhitespace) =
      [⟨.var, "x", ⟨0, 1⟩⟩, ⟨.minus, "-", ⟨1, 2⟩⟩, ⟨.var, "y", ⟨2, 3⟩⟩, ⟨.caret, "^", ⟨3, 4⟩⟩,
        ⟨.minus, "-", ⟨4, 5⟩⟩, ⟨.var, "z", ⟨5, 6⟩⟩, ⟨.divide, "/", ⟨6, 7⟩⟩, ⟨.var, "t", ⟨7, 8⟩⟩] := by
    decide +kernel
  have hletter (name : String) (span : Text.Span) :
      Denotes .operand [⟨.var, name, span⟩] (Expr.var name : Expr Float) := .var rfl
  have hexponent : Denotes .factor [⟨.minus, "-", ⟨4, 5⟩⟩, ⟨.var, "z", ⟨5, 6⟩⟩]
      (Expr.var "z" : Expr Float).neg := .negated rfl (.base (hletter "z" ⟨5, 6⟩))
  have hcaret : Token.kind ⟨.caret, "^", ⟨3, 4⟩⟩ = .caret := rfl
  have hpower := Denotes.power hcaret (hletter "y" ⟨2, 3⟩) hexponent
  have hquotient := Denotes.product (.unsigned hpower)
    (List.cons_ne_nil ⟨⟨.divide, "/", ⟨6, 7⟩⟩, [⟨.var, "t", ⟨7, 8⟩⟩], .var "t"⟩ [])
    (by simp) (by simpa using Denotes.unsigned (.base (hletter "t" ⟨7, 8⟩)))
  have hdifference := Denotes.sum (.factor (.unsigned (.base (hletter "x" ⟨0, 1⟩))))
    (List.cons_ne_nil ⟨⟨.minus, "-", ⟨1, 2⟩⟩, _, _⟩ [])
    (by simp) (by simpa using hquotient)
  rw [hscan]
  exact hdifference

end SymbolicAlgebra.Expr
