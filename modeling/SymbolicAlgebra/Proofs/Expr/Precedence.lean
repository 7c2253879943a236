import SymbolicAlgebra.Proofs.Expr.Reading

/-!
# The precedence of operators

How tokens are put together to expressions, from what binds loosest to what binds tightest: sums of
products, products of factors with or without a minus, powers of operands. The exponent of a power is a
factor again, so powers group to the right, and a minus in front of a power negates all of it. This tells
nothing of how tokens are parsed; tokens that are put together to an expression are parsed and read as it,
whatever follows them that cannot be taken for a part of them.
-/

namespace SymbolicAlgebra.Expr

variable {α : Type} [Scalar α]

/-- How tightly the parts of an expression are bound. -/
inductive Level where
  | sum | product | factor | power | operand
deriving DecidableEq

/-- What follows an operator in a chain: its tokens and what they stand for. -/
structure Operand (α : Type) where
  sign : Token
  words : List Token
  value : Expr α

namespace Operand

/-- The tokens of an operand with its operator. -/
def tokens (o : Operand α) : List Token := o.sign :: o.words

/-- The addend that an operand of a sum contributes. -/
def addend (o : Operand α) : Expr α := if o.sign.kind = .minus then o.value.neg else o.value

/-- The operands that a kind of operator joins, in order. -/
def joined (kind : Token.Kind) (os : List (Operand α)) : List (Expr α) :=
  (os.filter fun o => o.sign.kind = kind).map value

/-- The operands of a chain that stand above the line, each minus among them carried out. -/
def above (os : List (Operand α)) : List (Expr α) :=
  (os.filter fun o => o.sign.kind ≠ .divide).map addend

/-- An operand of a chain stands above the line or below it. -/
theorem above_cons (o : Operand α) (os : List (Operand α)) : above (o :: os) =
    if o.sign.kind = .minus then o.value.neg :: above os
      else if o.sign.kind = .divide then above os else o.value :: above os := by
  by_cases hminus : o.sign.kind = .minus
  · rw [if_pos hminus, above, List.filter_cons_of_pos (by simp [hminus]), List.map_cons, addend,
      if_pos hminus, above]
  · by_cases hdivide : o.sign.kind = .divide
    · rw [if_neg hminus, if_pos hdivide, above, List.filter_cons_of_neg (by simp [hdivide]), above]
    · rw [if_neg hminus, if_neg hdivide, above, List.filter_cons_of_pos (by simp [hdivide]),
        List.map_cons, addend, if_neg hminus, above]

omit [Scalar α] in
/-- The operands that a kind of operator joins are found one by one. -/
theorem joined_cons (kind : Token.Kind) (o : Operand α) (os : List (Operand α)) :
    joined kind (o :: os) = if o.sign.kind = kind then o.value :: joined kind os else joined kind os := by
  by_cases hkind : o.sign.kind = kind
  · rw [if_pos hkind, joined, List.filter_cons_of_pos (by simp [hkind]), List.map_cons, joined]
  · rw [if_neg hkind, joined, List.filter_cons_of_neg (by simp [hkind]), joined]

/-- Plus and minus put nothing below the line. -/
theorem above_of_signs {os : List (Operand α)}
    (h : ∀ o ∈ os, o.sign.kind = .plus ∨ o.sign.kind = .minus) :
    above os = os.map addend ∧ joined .divide os = [] := by
  have hkind : ∀ o ∈ os, o.sign.kind ≠ .divide := fun o ho => by
    obtain hkind | hkind := h o ho <;> rw [hkind] <;> decide
  constructor
  · rw [above, List.filter_eq_self.mpr fun o ho => by simpa using hkind o ho]
  · rw [joined, List.filter_eq_nil_iff.mpr fun o ho => by simpa using hkind o ho, List.map_nil]

/-- The signs of multiplication keep their operands above the line. -/
theorem above_of_factors {os : List (Operand α)}
    (h : ∀ o ∈ os, o.sign.kind = .times ∨ o.sign.kind = .divide) :
    above os = joined .times os := by
  have hfilter : (os.filter fun o => o.sign.kind ≠ .divide) =
      os.filter fun o => o.sign.kind = .times := by
    refine List.filter_congr fun o ho => ?_
    obtain hkind | hkind := h o ho <;> simp [hkind]
  rw [above, hfilter, joined]
  refine List.map_congr_left fun o ho => ?_
  have hkind : o.sign.kind = .times := by simpa using List.of_mem_filter ho
  rw [addend, hkind, if_neg (by decide)]

omit [Scalar α] in
/-- Every operand of a product stands above the line or below it. -/
theorem joined_eq_nil {os : List (Operand α)}
    (h : ∀ o ∈ os, o.sign.kind = .times ∨ o.sign.kind = .divide) :
    joined .times os = [] ∧ joined .divide os = [] ↔ os = [] := by
  constructor
  · intro hnone
    cases os with
    | nil => rfl
    | cons o os =>
      rw [joined_cons, joined_cons] at hnone
      obtain hkind | hkind := h o List.mem_cons_self <;> simp [hkind] at hnone
  · rintro rfl
    exact ⟨rfl, rfl⟩

end Operand

/-- The tokens stand for the expression, at a level of precedence. -/
inductive Denotes : Level → List Token → Expr α → Prop
  | sum {words : List Token} {first : Expr α} {os : List (Operand α)} :
    Denotes .product words first → os ≠ [] →
    (∀ o ∈ os, o.sign.kind = .plus ∨ o.sign.kind = .minus) →
    (∀ o ∈ os, Denotes .product o.words o.value) →
    Denotes .sum (words ++ os.flatMap Operand.tokens) (.sum (first :: os.map Operand.addend))
  | addend {words : List Token} {e : Expr α} : Denotes .product words e → Denotes .sum words e
  | product {words : List Token} {first : Expr α} {os : List (Operand α)} :
    Denotes .factor words first → os ≠ [] →
    (∀ o ∈ os, o.sign.kind = .times ∨ o.sign.kind = .divide) →
    (∀ o ∈ os, Denotes .factor o.words o.value) →
    Denotes .product (words ++ os.flatMap Operand.tokens)
      (.product .one (first :: Operand.joined .times os) (Operand.joined .divide os))
  | factor {words : List Token} {e : Expr α} : Denotes .factor words e → Denotes .product words e
  | negated {minus : Token} {words : List Token} {e : Expr α} : minus.kind = .minus →
    Denotes .power words e → Denotes .factor (minus :: words) e.neg
  | unsigned {words : List Token} {e : Expr α} : Denotes .power words e → Denotes .factor words e
  | power {caret : Token} {words exponent : List Token} {a b : Expr α} : caret.kind = .caret →
    Denotes .operand words a → Denotes .factor exponent b →
    Denotes .power (words ++ caret :: exponent) (.power a b)
  | base {words : List Token} {e : Expr α} : Denotes .operand words e → Denotes .power words e
  | parenthesized {opening closing : Token} {words : List Token} {e : Expr α} :
    opening.kind = .leftParen → closing.kind = .rightParen → Denotes .sum words e →
    Denotes .operand (opening :: (words ++ [closing])) e
  | trig {f : Trig} {name : Token} {words : List Token} {e : Expr α} :
    name.kind = Token.trigKind f → name.lexeme = f.name → Denotes .operand words e →
    Denotes .operand (name :: words) (.trig f e)
  | log {name mark : Token} {words body : List Token} {a b : Expr α} :
    name.kind = .log → mark.kind = .underscore → Denotes .operand words a → Denotes .operand body b →
    Denotes .operand (name :: (words ++ mark :: body)) (.log a b)
  | var {letter : Token} : letter.kind = .var → Denotes .operand [letter] (.var letter.lexeme)
  | real {numeral : Token} {v : α} : numeral.kind = .number →
    Scalar.read? numeral.lexeme.toList = some v → Denotes .operand [numeral] (.real v)
  | constant {name : Token} {c : Constant} : name.kind = .const → name.lexeme = c.name →
    Denotes .operand [name] (.constant c)

namespace Level

/-- The nonterminals for what is bound so tightly. -/
def names : Level → List String
  | sum => ["expr"]
  | product => ["term"]
  | factor => ["factor"]
  | power => ["body"]
  | operand => ["expo", "funbody"]

/-- The kinds of tokens that begin what is bound so tightly. -/
def kinds : Level → List Token.Kind
  | sum | product | factor => .minus :: Table.operandKinds
  | power | operand => Table.operandKinds

/-- The kinds of tokens that end what is bound so tightly. An operand ends by itself. -/
def enders : Level → List Token.Kind
  | sum => [.rightParen]
  | product => [.plus, .minus, .rightParen]
  | factor | power => [.times, .divide, .plus, .minus, .rightParen]
  | operand => []

/-- What comes next cannot be taken for a part of what is bound so tightly. -/
def Stops (level : Level) (rest : List Token) : Prop :=
  level = operand ∨ ∀ t ∈ rest.head?, t.kind ∈ level.enders

end Level

/-- The tokens are read as the expression at a level of precedence. -/
structure ReadAt (table : Table) (level : Level) (words : List Token) (e : Expr α) : Prop where
  starts : ∃ first more, words = first :: more ∧ first.kind ∈ level.kinds
  reads : ∀ name ∈ level.names, ∀ sourceEnd rest, level.Stops rest →
    ReadsAs table sourceEnd name (words ++ rest) rest e

omit [Scalar α] in
/-- Where an operator or what may follow the chain comes next, a link of the chain stops. -/
theorem stops_chain {level : Level} {os : List (Operand α)} {rest : List Token}
    (hos : ∀ o ∈ os, o.sign.kind ∈ level.enders) (hrest : ∀ t ∈ rest.head?, t.kind ∈ level.enders) :
    level.Stops (os.flatMap Operand.tokens ++ rest) := by
  refine .inr ?_
  cases os with
  | nil => exact hrest
  | cons o os =>
    intro t ht
    obtain rfl : o.sign = t := by simpa [Operand.tokens] using ht
    exact hos o List.mem_cons_self

section Readings

variable {table : Table} (h : table.ReadsExpressions)
include h

/-- A tail vanishes before the tokens that the table lists for it, and at the end. -/
theorem vanishes_of_choice {name : String} {kinds : List Token.Kind}
    (hname : name ∈ ["expr_tail", "term_tail", "body_tail"])
    (hchoice : (name, kinds, [.epsilon]) ∈ Table.expressionChoices) {rest : List Token}
    (hrest : ∀ t ∈ rest.head?, t.kind ∈ kinds) : Vanishes table name rest := by
  cases rest with
  | nil => exact h.vanishing name hname
  | cons t rest => exact lookup?_of_choice h hchoice t (hrest t rfl)

/-- What has a nonterminal of its own is read as an operand. -/
theorem readAt_operand {inner : String} {kinds : List Token.Kind}
    (hexpo : ("expo", kinds, [.nonterminal inner]) ∈ Table.expressionChoices)
    (hfunbody : ("funbody", kinds, [.nonterminal inner]) ∈ Table.expressionChoices)
    {first : Token} {more : List Token} {e : Expr α} (hkind : first.kind ∈ kinds)
    (hkinds : kinds ⊆ Table.operandKinds)
    (he : ∀ sourceEnd rest, ReadsAs table sourceEnd inner (first :: more ++ rest) rest e) :
    ReadAt table .operand (first :: more) e where
  starts := ⟨first, more, rfl, hkinds hkind⟩
  reads name hname sourceEnd rest _ := by
    simp only [Level.names, List.mem_cons, List.not_mem_nil, or_false] at hname
    obtain rfl | rfl := hname
    · exact reads_operand h (by decide) hexpo hkind (he sourceEnd rest)
    · exact reads_operand h (by decide) hfunbody hkind (he sourceEnd rest)

/-- A function is read as an operand. -/
theorem readAt_function {first : Token} {more : List Token} {e : Expr α}
    (hkind : first.kind ∈ [Token.Kind.sin, .cos, .tan, .log])
    (he : ∀ sourceEnd rest, ReadsAs table sourceEnd "function" (first :: more ++ rest) rest e) :
    ReadAt table .operand (first :: more) e :=
  readAt_operand h (by decide) (by decide) hkind (by decide) he

/-- A number is read as an operand. -/
theorem readAt_number {first : Token} {more : List Token} {e : Expr α}
    (hkind : first.kind ∈ [Token.Kind.const, .number])
    (he : ∀ sourceEnd rest, ReadsAs table sourceEnd "num" (first :: more ++ rest) rest e) :
    ReadAt table .operand (first :: more) e :=
  readAt_operand h (by decide) (by decide) hkind (by decide) he

/-- What stands between parentheses is read as an operand. -/
theorem ReadAt.parenthesized {opening closing : Token} {words : List Token} {e : Expr α}
    (hopening : opening.kind = .leftParen) (hclosing : closing.kind = .rightParen)
    (he : ReadAt table .sum words e) : ReadAt table .operand (opening :: (words ++ [closing])) e where
  starts := ⟨opening, _, rfl, by rw [hopening]; decide⟩
  reads name hname sourceEnd rest _ := by
    have hinner := he.reads "expr" (by decide) sourceEnd (closing :: rest)
      (.inr fun t ht => by cases ht; rw [hclosing]; decide)
    have hwords : words ++ [closing] ++ rest = words ++ closing :: rest := by
      rw [List.append_assoc, List.singleton_append]
    rw [List.cons_append, hwords]
    exact reads_parenthesized h hname hopening hclosing hinner

/-- A function of an operand is read as an operand. -/
theorem ReadAt.trig {f : Trig} {name : Token} {words : List Token} {e : Expr α}
    (hkind : name.kind = Token.trigKind f) (hname : name.lexeme = f.name)
    (he : ReadAt table .operand words e) : ReadAt table .operand (name :: words) (.trig f e) :=
  readAt_function h (by rw [hkind]; cases f <;> decide) fun sourceEnd rest =>
    reads_trig h hkind hname (he.reads "funbody" (by decide) sourceEnd rest (.inl rfl))

/-- A logarithm of an operand to an operand is read as an operand. -/
theorem ReadAt.log {name mark : Token} {words body : List Token} {a b : Expr α}
    (hkind : name.kind = .log) (hmark : mark.kind = .underscore)
    (ha : ReadAt table .operand words a) (hb : ReadAt table .operand body b) :
    ReadAt table .operand (name :: (words ++ mark :: body)) (.log a b) :=
  readAt_function h (by rw [hkind]; decide) fun sourceEnd rest => by
    rw [List.cons_append, List.append_assoc, List.cons_append]
    exact reads_log h hkind hmark
      (ha.reads "funbody" (by decide) sourceEnd (mark :: (body ++ rest)) (.inl rfl))
      (hb.reads "funbody" (by decide) sourceEnd rest (.inl rfl))

/-- An operand with an exponent is read as a power. -/
theorem ReadAt.power {caret : Token} {words exponent : List Token} {a b : Expr α}
    (hcaret : caret.kind = .caret) (ha : ReadAt table .operand words a)
    (hb : ReadAt table .factor exponent b) :
    ReadAt table .power (words ++ caret :: exponent) (.power a b) := by
  obtain ⟨first, more, rfl, hfirst⟩ := ha.starts
  refine ⟨⟨first, more ++ caret :: exponent, rfl, hfirst⟩, fun name hname sourceEnd rest hrest => ?_⟩
  obtain rfl := List.mem_singleton.mp hname
  have hbase := ha.reads "expo" (by decide) sourceEnd (caret :: (exponent ++ rest)) (.inl rfl)
  have hexponent := hb.reads "factor" (by decide) sourceEnd rest (.inr (hrest.resolve_left (by decide)))
  rw [List.append_assoc, List.cons_append]
  exact reads_power h hfirst hcaret hbase hexponent

/-- An operand alone is read as a power. -/
theorem ReadAt.base {words : List Token} {e : Expr α} (he : ReadAt table .operand words e) :
    ReadAt table .power words e := by
  obtain ⟨first, more, rfl, hfirst⟩ := he.starts
  refine ⟨⟨first, more, rfl, hfirst⟩, fun name hname sourceEnd rest hrest => ?_⟩
  obtain rfl := List.mem_singleton.mp hname
  exact reads_body h hfirst (he.reads "expo" (by decide) sourceEnd rest (.inl rfl))
    (vanishes_of_choice h (by decide) (by decide) (hrest.resolve_left (by decide)))

/-- A power with a minus in front is read as a factor. -/
theorem ReadAt.negated {minus : Token} {words : List Token} {e : Expr α}
    (hminus : minus.kind = .minus) (he : ReadAt table .power words e) :
    ReadAt table .factor (minus :: words) e.neg where
  starts := ⟨minus, words, rfl, by rw [hminus]; decide⟩
  reads name hname sourceEnd rest hrest := by
    obtain rfl := List.mem_singleton.mp hname
    exact reads_negated h hminus
      (he.reads "body" (by decide) sourceEnd rest (.inr (hrest.resolve_left (by decide))))

/-- A power alone is read as a factor. -/
theorem ReadAt.unsigned {words : List Token} {e : Expr α} (he : ReadAt table .power words e) :
    ReadAt table .factor words e := by
  obtain ⟨first, more, rfl, hfirst⟩ := he.starts
  refine ⟨⟨first, more, rfl, List.mem_cons_of_mem _ hfirst⟩, fun name hname sourceEnd rest hrest => ?_⟩
  obtain rfl := List.mem_singleton.mp hname
  exact reads_factor h hfirst
    (he.reads "body" (by decide) sourceEnd rest (.inr (hrest.resolve_left (by decide))))

/-- The operands of a chain are read one after the other. -/
theorem readsTail_operands {name operator inner : String} {level : Level} (hinner : inner ∈ level.names)
    {os : List (Operand α)} (hlinks : ∀ o ∈ os, Links name operator inner o.sign.kind)
    (hsigns : ∀ o ∈ os, o.sign.kind ∈ level.enders)
    (hread : ∀ o ∈ os, ReadAt table level o.words o.value) {sourceEnd : Nat} {rest : List Token}
    (htail : name ∈ ["expr_tail", "term_tail"]) (hrest : ∀ t ∈ rest.head?, t.kind ∈ level.enders)
    (hvanishes : Vanishes table name rest) :
    ReadsTail table sourceEnd name (os.flatMap Operand.tokens ++ rest) rest (Operand.above os)
      (Operand.joined .divide os) := by
  induction os with
  | nil => exact readsTail_nil htail hvanishes
  | cons o os ih =>
    rw [List.forall_mem_cons] at hlinks hsigns hread
    have hhere := hread.1.reads inner hinner sourceEnd _ (stops_chain hsigns.2 hrest)
    have hchain := readsTail_cons h hlinks.1 hhere (ih hlinks.2 hsigns.2 hread.2)
    rw [List.flatMap_cons, List.append_assoc, Operand.tokens, List.cons_append]
    rw [Operand.above_cons, Operand.joined_cons]
    exact hchain

/-- Products with plus and minus between them are read as their sum, and a product alone as itself. -/
theorem ReadAt.terms {words : List Token} {first : Expr α} {os : List (Operand α)}
    (hsigns : ∀ o ∈ os, o.sign.kind = .plus ∨ o.sign.kind = .minus)
    (hfirst : ReadAt table .product words first)
    (hread : ∀ o ∈ os, ReadAt table .product o.words o.value) :
    ReadAt table .sum (words ++ os.flatMap Operand.tokens)
      (if os = [] then first else .sum (first :: os.map Operand.addend)) := by
  obtain ⟨token, more, rfl, htoken⟩ := hfirst.starts
  refine ⟨⟨token, _, rfl, htoken⟩, fun name hname sourceEnd rest hrest => ?_⟩
  obtain rfl := List.mem_singleton.mp hname
  have hends := hrest.resolve_left (by decide)
  have hlater : ∀ t ∈ rest.head?, t.kind ∈ Level.product.enders := fun t ht => by
    rw [List.mem_singleton.mp (hends t ht)]
    decide
  have henders : ∀ o ∈ os, o.sign.kind ∈ Level.product.enders := fun o ho => by
    obtain hkind | hkind := hsigns o ho <;> rw [hkind] <;> decide
  have hlinks : ∀ o ∈ os, Links "expr_tail" "addop" "term" o.sign.kind := fun o ho => by
    obtain hkind | hkind := hsigns o ho <;> rw [hkind]
    · exact links_of_sign.1
    · exact links_of_sign.2.1
  have hvanishes : Vanishes table "expr_tail" rest :=
    vanishes_of_choice h (by decide) (by decide) hends
  have hterm := hfirst.reads "term" (by decide) sourceEnd _ (stops_chain henders hlater)
  have hsum := reads_sum h htoken hterm
    (readsTail_operands h (List.mem_singleton_self _) hlinks henders hread (by decide) hlater hvanishes)
  obtain ⟨habove, hbelow⟩ := Operand.above_of_signs hsigns
  simp only [habove, hbelow, List.map_eq_nil_iff, and_true] at hsum
  rw [List.append_assoc]
  exact hsum

/-- Factors with signs of multiplication and division between them are read as their product, and a
factor alone as itself. -/
theorem ReadAt.factors {words : List Token} {first : Expr α} {os : List (Operand α)}
    (hsigns : ∀ o ∈ os, o.sign.kind = .times ∨ o.sign.kind = .divide)
    (hfirst : ReadAt table .factor words first)
    (hread : ∀ o ∈ os, ReadAt table .factor o.words o.value) :
    ReadAt table .product (words ++ os.flatMap Operand.tokens) (if os = [] then first else
      .product .one (first :: Operand.joined .times os) (Operand.joined .divide os)) := by
  obtain ⟨token, more, rfl, htoken⟩ := hfirst.starts
  refine ⟨⟨token, _, rfl, htoken⟩, fun name hname sourceEnd rest hrest => ?_⟩
  obtain rfl := List.mem_singleton.mp hname
  have hends := hrest.resolve_left (by decide)
  have hlater : ∀ t ∈ rest.head?, t.kind ∈ Level.factor.enders := fun t ht =>
    List.mem_cons_of_mem _ (List.mem_cons_of_mem _ (hends t ht))
  have henders : ∀ o ∈ os, o.sign.kind ∈ Level.factor.enders := fun o ho => by
    obtain hkind | hkind := hsigns o ho <;> rw [hkind] <;> decide
  have hlinks : ∀ o ∈ os, Links "term_tail" "mulop" "factor" o.sign.kind := fun o ho => by
    obtain hkind | hkind := hsigns o ho <;> rw [hkind]
    · exact links_of_sign.2.2.1
    · exact links_of_sign.2.2.2
  have hvanishes : Vanishes table "term_tail" rest :=
    vanishes_of_choice h (by decide) (by decide) hends
  have hfactor := hfirst.reads "factor" (by decide) sourceEnd _ (stops_chain henders hlater)
  have hproduct := reads_product h htoken hfactor
    (readsTail_operands h (List.mem_singleton_self _) hlinks henders hread (by decide) hlater hvanishes)
  simp only [Operand.above_of_factors hsigns, Operand.joined_eq_nil hsigns] at hproduct
  rw [List.append_assoc]
  exact hproduct

/-- What tokens stand for is what they are read as, whatever follows that is not a part of them. -/
theorem readAt_of_denotes {level : Level} {words : List Token} {e : Expr α}
    (hdenotes : Denotes level words e) : ReadAt table level words e := by
  induction hdenotes with
  | sum _ hsome hsigns _ ihfirst ihrest => simpa [hsome] using ReadAt.terms h hsigns ihfirst ihrest
  | addend _ ih =>
    have hterms := ReadAt.terms h (fun o ho => absurd ho List.not_mem_nil) ih
      fun o ho => absurd ho List.not_mem_nil
    simpa using hterms
  | product _ hsome hsigns _ ihfirst ihrest =>
    simpa [hsome] using ReadAt.factors h hsigns ihfirst ihrest
  | factor _ ih =>
    have hfactors := ReadAt.factors h (fun o ho => absurd ho List.not_mem_nil) ih
      fun o ho => absurd ho List.not_mem_nil
    simpa using hfactors
  | negated hminus _ ih => exact .negated h hminus ih
  | unsigned _ ih => exact .unsigned h ih
  | power hcaret _ _ iha ihb => exact .power h hcaret iha ihb
  | base _ ih => exact .base h ih
  | parenthesized hopening hclosing _ ih => exact .parenthesized h hopening hclosing ih
  | trig hkind hname _ ih => exact .trig h hkind hname ih
  | log hkind hmark _ _ iha ihb => exact .log h hkind hmark iha ihb
  | var hkind =>
    exact readAt_operand h (by decide) (by decide) (List.mem_singleton.mpr hkind) (by decide)
      fun _ rest => reads_var h rest hkind
  | real hkind hvalue =>
    exact readAt_number h (by rw [hkind]; decide) fun _ rest => reads_real h rest hkind hvalue
  | constant hkind hname =>
    exact readAt_number h (by rw [hkind]; decide) fun _ rest => reads_constant h rest hkind hname

end Readings

end SymbolicAlgebra.Expr
