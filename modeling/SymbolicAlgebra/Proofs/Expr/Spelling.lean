import SymbolicAlgebra.Expr.Printer
import SymbolicAlgebra.Proofs.Expr.Reading

/-!
# Spelling

A word spells an expression as a nonterminal if it is read so wherever it stands: whatever follows it
begins no longer token, and is not taken for more of what the word spells. The parts that texts of
expressions are put together of are spelled one from another, along the levels of the grammar.
-/

namespace SymbolicAlgebra.Expr

open Token

variable {α : Type} [Scalar α]

/-- The nonterminals vanish before these characters. -/
def Stops (table : Table) (tails : List String) (cs : List Char) : Prop :=
  ∀ tail ∈ tails, ∀ offset, Vanishes table tail (lex offset cs)

/-- The word begins with a token of one of the kinds, and is read as the nonterminal and means the
expression before any characters that break a token and at which these tails vanish. -/
def Spells (table : Table) (name : String) (kinds : List Token.Kind) (tails : List String)
    (word : String) (e : Expr α) : Prop :=
  ∀ sourceEnd cs offset, Breaks cs → Stops table tails cs →
    ∃ token tokens offset', lex offset (word.toList ++ cs) = token :: tokens ∧ token.kind ∈ kinds ∧
      ReadsAs table sourceEnd name (token :: tokens) (lex offset' cs) e

/-- The word spells an operand. -/
def SpellsOperand (table : Table) (name : String) (word : String) (e : Expr α) : Prop :=
  Spells table name Table.operandKinds [] word e

/-- The word spells an operand or a power. -/
def SpellsBody (table : Table) (word : String) (e : Expr α) : Prop :=
  Spells table "body" Table.operandKinds ["body_tail"] word e

/-- The word spells a factor, which may have a minus in front. -/
def SpellsFactor (table : Table) (word : String) (e : Expr α) : Prop :=
  Spells table "factor" (.minus :: Table.operandKinds) ["body_tail"] word e

/-- The word spells a product or a single factor. -/
def SpellsTerm (table : Table) (word : String) (e : Expr α) : Prop :=
  Spells table "term" (.minus :: Table.operandKinds) ["body_tail", "term_tail"] word e

/-- The word spells a sum or a single term. -/
def SpellsExpr (table : Table) (word : String) (e : Expr α) : Prop :=
  Spells table "expr" (.minus :: Table.operandKinds) ["body_tail", "term_tail", "expr_tail"] word e

/-- The word is read as the rest of a chain after operands that end where the tails vanish, and has
these operands above and below the line. -/
def SpellsTail (table : Table) (name : String) (tails : List String) (word : String)
    (above below : List (Expr α)) : Prop :=
  ∀ sourceEnd cs, Breaks cs → Stops table (tails ++ [name]) cs →
    Breaks (word.toList ++ cs) ∧ Stops table tails (word.toList ++ cs) ∧
      ∀ offset, ∃ offset',
        ReadsTail table sourceEnd name (lex offset (word.toList ++ cs)) (lex offset' cs) above below

/-- The word is the sign of an operator: it breaks a token, the tails vanish before it, and it is a
token of the kind. -/
def Joins (table : Table) (tails : List String) (word : String) (kind : Token.Kind) : Prop :=
  ∀ cs, Breaks (word.toList ++ cs) ∧ Stops table tails (word.toList ++ cs) ∧
    ∀ offset, ∃ lexeme span offset',
      lex offset (word.toList ++ cs) = ⟨kind, lexeme, span⟩ :: lex offset' cs

variable {table : Table}

/-- Where tails vanish some of them do. -/
theorem Stops.subset {tails tails' : List String} {cs : List Char} (hstops : Stops table tails cs)
    (hsubset : tails' ⊆ tails) : Stops table tails' cs :=
  fun tail htail => hstops tail (hsubset htail)

section Table

variable (h : table.ReadsExpressions)
include h

/-- A tail vanishes before a mark for which the table says so. -/
theorem vanishes_mark {tail : String} (kinds : List Token.Kind)
    (hchoice : (tail, kinds, [.epsilon]) ∈ Table.expressionChoices) {c : Char} (hc : c ∈ marks)
    (hkind : markKind c ∈ kinds) (cs : List Char) (offset : Nat) :
    Vanishes table tail (lex offset (c :: cs)) := by
  obtain ⟨lexeme, span, offset', hlex⟩ := lex_mark hc cs offset
  rw [hlex]
  exact lookup?_of_choice h hchoice _ hkind

/-- Nothing is taken for more of an expression at the end of a source. -/
theorem stops_nil : Stops table ["body_tail", "term_tail", "expr_tail"] [] := by
  intro tail htail offset
  have hvanishing := h.vanishing tail (by
    revert htail
    simp only [List.mem_cons, List.not_mem_nil, or_false]
    tauto)
  rw [lex, scanFrom]
  exact hvanishing

/-- A closing parenthesis ends an expression. -/
theorem stops_closing (cs : List Char) :
    Stops table ["body_tail", "term_tail", "expr_tail"] (')' :: cs) := by
  intro tail htail offset
  simp only [List.mem_cons, List.not_mem_nil, or_false] at htail
  obtain rfl | rfl | rfl := htail
  · exact vanishes_mark h [.times, .divide, .plus, .minus, .rightParen] (by decide) (by decide)
      (by decide) cs offset
  · exact vanishes_mark h [.plus, .minus, .rightParen] (by decide) (by decide) (by decide) cs offset
  · exact vanishes_mark h [.rightParen] (by decide) (by decide) (by decide) cs offset

/-- The signs of multiplications and divisions join factors. -/
theorem joins_mulop {c : Char} (hc : c ∈ ['*', '/']) :
    Joins table ["body_tail"] (String.ofList [c]) (markKind c) := by
  obtain ⟨hmark, hkind⟩ : c ∈ marks ∧
      markKind c ∈ [Token.Kind.times, .divide, .plus, .minus, .rightParen] := by
    simp only [List.mem_cons, List.not_mem_nil, or_false] at hc
    obtain rfl | rfl := hc <;> decide
  intro cs
  rw [String.toList_ofList]
  refine ⟨breaks_of_mem (List.mem_cons_of_mem _ hmark) cs, fun tail htail offset => ?_,
    lex_mark hmark cs⟩
  obtain rfl := List.mem_singleton.mp htail
  exact vanishes_mark h _ (by decide) hmark hkind cs offset

/-- The signs of additions and subtractions, between blanks, join terms. -/
theorem joins_addop {c : Char} (hc : c ∈ ['+', '-']) :
    Joins table ["body_tail", "term_tail"] (String.ofList [' ', c, ' ']) (markKind c) := by
  obtain ⟨hmark, hbody, hterm⟩ : c ∈ marks ∧
      markKind c ∈ [Token.Kind.times, .divide, .plus, .minus, .rightParen] ∧
      markKind c ∈ [Token.Kind.plus, .minus, .rightParen] := by
    simp only [List.mem_cons, List.not_mem_nil, or_false] at hc
    obtain rfl | rfl := hc <;> decide
  intro cs
  rw [String.toList_ofList]
  refine ⟨breaks_of_mem List.mem_cons_self _, fun tail htail offset => ?_, fun offset => ?_⟩
  · simp only [List.cons_append, lex_space]
    simp only [List.mem_cons, List.not_mem_nil, or_false] at htail
    obtain rfl | rfl := htail
    · exact vanishes_mark h _ (by decide) hmark hbody _ _
    · exact vanishes_mark h _ (by decide) hmark hterm _ _
  · obtain ⟨lexeme, span, offset', hlex⟩ := lex_mark hmark (' ' :: cs) (offset + 1)
    refine ⟨lexeme, span, offset' + 1, ?_⟩
    simp only [List.cons_append, List.nil_append, lex_space, hlex]

/-- What stands between parentheses spells an operand. -/
theorem spells_parenthesized (name : String) (hname : name ∈ ["expo", "funbody"]) {word : String}
    {e : Expr α} (he : SpellsExpr table word e) :
    SpellsOperand table name (parenthesized word) e := by
  intro sourceEnd cs offset _ _
  have hchars : (parenthesized word).toList ++ cs = '(' :: (word.toList ++ ')' :: cs) := by
    simp [parenthesized]
  obtain ⟨_, _, start, hopening⟩ := lex_mark (c := '(') (by decide) (word.toList ++ ')' :: cs) offset
  obtain ⟨token, tokens, stop, hword, -, hread⟩ := he sourceEnd (')' :: cs) start
    (breaks_of_mem (by decide) cs) (stops_closing h cs)
  obtain ⟨_, _, offset', hclosing⟩ := lex_mark (c := ')') (by decide) cs stop
  rw [hclosing, ← hword] at hread
  have hkind : markKind '(' ∈ Table.operandKinds := by decide
  exact ⟨_, _, offset', by rw [hchars, hopening], hkind,
    reads_parenthesized h hname rfl rfl hread⟩

/-- A letter spells the variable of that name. -/
theorem spells_var {name : String} (hname : name ∈ ["expo", "funbody"]) {c : Char}
    (halpha : c.isAlpha = true) (he : c ≠ 'e') :
    SpellsOperand table name (String.ofList [c]) (var (String.ofList [c]) : Expr α) := by
  intro sourceEnd cs offset hcs _
  obtain ⟨span, offset', hlex⟩ := lex_letter halpha he hcs offset
  have hkind : Token.Kind.var ∈ Table.operandKinds := by decide
  rw [String.toList_ofList]
  refine ⟨_, _, offset', hlex, hkind, ?_⟩
  have hinner : Token.Kind.var ∈ [Token.Kind.var] := List.mem_singleton_self _
  simp only [List.mem_cons, List.not_mem_nil, or_false] at hname
  obtain rfl | rfl := hname <;>
    exact reads_operand h (by decide) (by decide) hinner (reads_var h _ rfl)

/-- The name of a constant spells it. -/
theorem spells_constant {name : String} (hname : name ∈ ["expo", "funbody"]) (c : Constant) :
    SpellsOperand table name c.name (constant c : Expr α) := by
  intro sourceEnd cs offset _ _
  obtain ⟨span, offset', hlex⟩ := lex_constant c cs offset
  have hkind : Token.Kind.const ∈ Table.operandKinds := by decide
  refine ⟨_, _, offset', hlex, hkind, ?_⟩
  have hinner : Token.Kind.const ∈ [Token.Kind.const, .number] := by decide
  simp only [List.mem_cons, List.not_mem_nil, or_false] at hname
  obtain rfl | rfl := hname <;>
    exact reads_operand h (by decide) (by decide) hinner (reads_constant h _ rfl rfl)

/-- A numeral spells the literal that it is read as. -/
theorem spells_real {name : String} (hname : name ∈ ["expo", "funbody"]) {word : String} {v : α}
    (hword : IsNumeral word.toList) (hvalue : Scalar.read? word.toList = some v) :
    SpellsOperand table name word (real v) := by
  intro sourceEnd cs offset hcs _
  obtain ⟨span, offset', hlex⟩ := lex_numeral hword hcs offset
  have hkind : Token.Kind.number ∈ Table.operandKinds := by decide
  refine ⟨_, _, offset', hlex, hkind, ?_⟩
  have hinner : Token.Kind.number ∈ [Token.Kind.const, .number] := by decide
  have hlexeme : Scalar.read? (String.ofList word.toList).toList = some v := by
    rw [String.toList_ofList, hvalue]
  simp only [List.mem_cons, List.not_mem_nil, or_false] at hname
  obtain rfl | rfl := hname <;>
    exact reads_operand h (by decide) (by decide) hinner (reads_real h _ rfl hlexeme)

/-- The name of a function before its body in parentheses spells the function of the body. -/
theorem spells_trig (f : Trig) {word : String} {e : Expr α} (he : SpellsExpr table word e) :
    SpellsOperand table "expo" (f.name ++ parenthesized word) (trig f e) := by
  intro sourceEnd cs offset hcs _
  obtain ⟨span, start, hname⟩ := lex_trig f ((parenthesized word).toList ++ cs) offset
  obtain ⟨token, tokens, offset', hword, -, hread⟩ :=
    spells_parenthesized h "funbody" (by decide) he sourceEnd cs start hcs (by simp [Stops])
  have hkind : trigKind f ∈ Table.operandKinds := by cases f <;> decide
  have hinner : trigKind f ∈ [Token.Kind.sin, .cos, .tan, .log] := by cases f <;> decide
  refine ⟨⟨trigKind f, f.name, span⟩, token :: tokens, offset', ?_, hkind, ?_⟩
  · rw [String.toList_append, List.append_assoc, hname, hword]
  · exact reads_operand h (by decide) (by decide) hinner (reads_trig h rfl rfl hread)

/-- The base of a logarithm in parentheses and its body after a mark spell the logarithm. -/
theorem spells_log {word word' : String} {a b : Expr α} (ha : SpellsExpr table word a)
    (hb : SpellsOperand table "funbody" word' b) :
    SpellsOperand table "expo" ("log(" ++ word ++ ")_" ++ word') (log a b) := by
  intro sourceEnd cs offset hcs _
  have hchars : ("log(" ++ word ++ ")_" ++ word').toList ++ cs =
      "log".toList ++ ((parenthesized word).toList ++ '_' :: (word'.toList ++ cs)) := by
    simp [parenthesized]
  obtain ⟨_, start, hname⟩ :=
    lex_log ((parenthesized word).toList ++ '_' :: (word'.toList ++ cs)) offset
  obtain ⟨token, tokens, mid, hword, -, hbase⟩ := spells_parenthesized h "funbody"
    (by decide) ha sourceEnd ('_' :: (word'.toList ++ cs)) start (breaks_of_mem (by decide) _)
    (by simp [Stops])
  obtain ⟨_, _, start', hmark⟩ := lex_mark (c := '_') (by decide) (word'.toList ++ cs) mid
  obtain ⟨token', tokens', offset', hword', -, hbody⟩ := hb sourceEnd cs start' hcs (by simp [Stops])
  rw [hmark, hword'] at hbase
  have hkind : Token.Kind.log ∈ Table.operandKinds := by decide
  have hinner : Token.Kind.log ∈ [Token.Kind.sin, .cos, .tan, .log] := by decide
  refine ⟨_, _, offset', by rw [hchars, hname, hword], hkind, ?_⟩
  exact reads_operand h (by decide) (by decide) hinner (reads_log h rfl rfl hbase hbody)

/-- An operand spells the same where a power may stand. -/
theorem SpellsOperand.body {word : String} {e : Expr α} (he : SpellsOperand table "expo" word e) :
    SpellsBody table word e := by
  intro sourceEnd cs offset hcs hstops
  obtain ⟨token, tokens, offset', hlex, hkind, hread⟩ := he sourceEnd cs offset hcs (by simp [Stops])
  exact ⟨token, tokens, offset', hlex, hkind,
    reads_body h hkind hread (hstops "body_tail" (by decide) offset')⟩

/-- A base and an exponent with a mark between them spell a power. -/
theorem spells_power {word word' : String} {a b : Expr α} (ha : SpellsOperand table "expo" word a)
    (hb : SpellsFactor table word' b) : SpellsBody table (word ++ "^" ++ word') (power a b) := by
  intro sourceEnd cs offset hcs hstops
  have hchars : (word ++ "^" ++ word').toList ++ cs = word.toList ++ '^' :: (word'.toList ++ cs) := by
    simp
  obtain ⟨token, tokens, mid, hword, hkind, hbase⟩ := ha sourceEnd ('^' :: (word'.toList ++ cs))
    offset (breaks_of_mem (by decide) _) (by simp [Stops])
  obtain ⟨_, _, start, hmark⟩ := lex_mark (c := '^') (by decide) (word'.toList ++ cs) mid
  obtain ⟨token', tokens', offset', hword', -, hexponent⟩ := hb sourceEnd cs start hcs hstops
  rw [hmark, hword'] at hbase
  exact ⟨token, tokens, offset', by rw [hchars, hword], hkind,
    reads_power h hkind rfl hbase hexponent⟩

/-- What spells an operand or a power spells a factor. -/
theorem SpellsBody.factor {word : String} {e : Expr α} (he : SpellsBody table word e) :
    SpellsFactor table word e := by
  intro sourceEnd cs offset hcs hstops
  obtain ⟨token, tokens, offset', hlex, hkind, hread⟩ := he sourceEnd cs offset hcs hstops
  exact ⟨token, tokens, offset', hlex, List.mem_cons_of_mem _ hkind, reads_factor h hkind hread⟩

/-- A minus in front spells the opposite. -/
theorem SpellsBody.negated {word : String} {e : Expr α} (he : SpellsBody table word e) :
    SpellsFactor table ("-" ++ word) e.neg := by
  intro sourceEnd cs offset hcs hstops
  obtain ⟨_, _, start, hsign⟩ := lex_mark (c := '-') (by decide) (word.toList ++ cs) offset
  obtain ⟨token, tokens, offset', hlex, -, hread⟩ := he sourceEnd cs start hcs hstops
  have hchars : ("-" ++ word).toList ++ cs = '-' :: (word.toList ++ cs) := by simp
  have hkind : markKind '-' ∈ Token.Kind.minus :: Table.operandKinds := by decide
  exact ⟨_, _, offset', by rw [hchars, hsign, hlex], hkind, reads_negated h rfl hread⟩

omit h in
/-- The rest of a chain may be empty. -/
theorem spellsTail_nil {name : String} (hname : name ∈ ["expr_tail", "term_tail"])
    (tails : List String) : SpellsTail table name tails "" ([] : List (Expr α)) [] := by
  intro sourceEnd cs hcs hstops
  refine ⟨hcs, hstops.subset (List.subset_append_left ..), fun offset => ⟨offset, ?_⟩⟩
  exact readsTail_nil hname (hstops name (by simp) offset)

/-- The rest of a chain goes on with an operator and an operand: a minus changes its sign, and a
fraction line puts it below. -/
theorem spellsTail_cons {name operator inner : String} {kind : Token.Kind}
    (hlinks : Links name operator inner kind) {kinds : List Token.Kind} {tails : List String}
    {sign word rest : String} {e : Expr α} {above below : List (Expr α)}
    (hjoins : Joins table tails sign kind) (he : Spells table inner kinds tails word e)
    (hrest : SpellsTail table name tails rest above below) :
    SpellsTail table name tails (sign ++ word ++ rest)
      (if kind = .minus then e.neg :: above else if kind = .divide then above else e :: above)
      (if kind = .divide then e :: below else below) := by
  intro sourceEnd cs hcs hstops
  have hchars : (sign ++ word ++ rest).toList ++ cs =
      sign.toList ++ (word.toList ++ (rest.toList ++ cs)) := by simp
  obtain ⟨hbreaks, hstop, hrest⟩ := hrest sourceEnd cs hcs hstops
  obtain ⟨hbreaks', hstop', hlex⟩ := hjoins (word.toList ++ (rest.toList ++ cs))
  rw [hchars]
  refine ⟨hbreaks', hstop', fun offset => ?_⟩
  obtain ⟨lexeme, span, start, hlex⟩ := hlex offset
  obtain ⟨token, tokens, mid, hword, -, hread⟩ := he sourceEnd _ start hbreaks hstop
  obtain ⟨offset', htail⟩ := hrest mid
  rw [hlex, hword]
  have htoken : Links name operator inner (Token.mk kind lexeme span).kind := hlinks
  exact ⟨offset', readsTail_cons h htoken hread htail⟩

/-- A factor and the rest of a product spell the product. -/
theorem spells_product {word rest : String} {e : Expr α} {above below : List (Expr α)}
    (he : SpellsFactor table word e)
    (hrest : SpellsTail table "term_tail" ["body_tail"] rest above below) :
    SpellsTerm table (word ++ rest)
      (if above = [] ∧ below = [] then e else .product .one (e :: above) below) := by
  intro sourceEnd cs offset hcs hstops
  obtain ⟨hbreaks, hstop, hrest⟩ := hrest sourceEnd cs hcs hstops
  obtain ⟨token, tokens, mid, hword, hkind, hread⟩ := he sourceEnd _ offset hbreaks hstop
  obtain ⟨offset', htail⟩ := hrest mid
  refine ⟨token, tokens, offset', ?_, hkind, reads_product h hkind hread htail⟩
  rw [String.toList_append, List.append_assoc, hword]

/-- A term and the rest of a sum spell the sum. -/
theorem spells_sum {word rest : String} {e : Expr α} {above below : List (Expr α)}
    (he : SpellsTerm table word e)
    (hrest : SpellsTail table "expr_tail" ["body_tail", "term_tail"] rest above below) :
    SpellsExpr table (word ++ rest)
      (if above = [] ∧ below = [] then e else .sum (e :: above)) := by
  intro sourceEnd cs offset hcs hstops
  obtain ⟨hbreaks, hstop, hrest⟩ := hrest sourceEnd cs hcs hstops
  obtain ⟨token, tokens, mid, hword, hkind, hread⟩ := he sourceEnd _ offset hbreaks hstop
  obtain ⟨offset', htail⟩ := hrest mid
  refine ⟨token, tokens, offset', ?_, hkind, reads_sum h hkind hread htail⟩
  rw [String.toList_append, List.append_assoc, hword]

/-- A factor alone spells a term. -/
theorem SpellsFactor.term {word : String} {e : Expr α} (he : SpellsFactor table word e) :
    SpellsTerm table word e := by
  have hterm := spells_product h he (spellsTail_nil (by decide) _)
  rw [String.append_empty] at hterm
  simpa using hterm

/-- A term alone spells a sum. -/
theorem SpellsTerm.expr {word : String} {e : Expr α} (he : SpellsTerm table word e) :
    SpellsExpr table word e := by
  have hexpr := spells_sum h he (spellsTail_nil (by decide) _)
  rw [String.append_empty] at hexpr
  simpa using hexpr

end Table

end SymbolicAlgebra.Expr
