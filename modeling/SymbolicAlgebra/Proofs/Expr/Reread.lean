import SymbolicAlgebra.Proofs.Expr.Nodes
import SymbolicAlgebra.Proofs.Expr.Spelling
import SymbolicAlgebra.Proofs.Scalar.Text

/-!
# Texts read again

What the text of an expression is read as: a coefficient becomes a factor and a divisor of its own, a
minus sign changes the sign of what it stands before, and several divisors become a product. An
expression can be read again if its variables are single letters and its numbers are legible.
-/

namespace SymbolicAlgebra.Expr

open Token (breaks_nil lex scanFrom)

variable {α : Type} [Scalar α]

/-- Operands that are joined by signs of multiplication and division; one alone is no product. -/
def chain (above below : List (Expr α)) : Expr α :=
  match above, below with
  | [e], [] => e
  | n, d => .product .one n d

/-- The factors above the line, the numerator of the coefficient or its sign among them. -/
def rereadNumerator (c : Coefficient α) : List (Expr α) → List (Expr α)
  | [] => [real c.numer]
  | e :: es =>
    if Scalar.eq c.numer (Scalar.ofInt (-1)) then e.neg :: es
    else if Scalar.eq c.numer Scalar.one then e :: es
    else real c.numer :: e :: es

/-- Several divisors make one product. -/
def groupDivisors : List (Expr α) → List (Expr α)
  | [] => []
  | [e] => [e]
  | es => [.product .one es []]

/-- The divisors, the denominator of the coefficient among them. -/
def rereadDivisors (c : Coefficient α) (divisors : List (Expr α)) : List (Expr α) :=
  (if Scalar.eq c.denom Scalar.one then [] else [real c.denom]) ++ groupDivisors divisors

/-- A product of factors as its text is read; `bare` tells that the first needs no parentheses. -/
def rereadProduct (c : Coefficient α) (bare : Bool) (numerator denominator : List (Expr α)) : Expr α :=
  if Scalar.eq c.numer (Scalar.ofInt (-1)) && !numerator.isEmpty && !bare then
    (chain numerator (rereadDivisors c denominator)).neg
  else chain (rereadNumerator c numerator) (rereadDivisors c denominator)

mutual

/-- The expression that the text of an expression is read as. -/
def reread : Expr α → Expr α
  | sum [] => zero
  | sum (a :: as) => if as.isEmpty then reread a else sum (reread a :: rereadAddends as)
  | product c n d => rereadProduct c (startsBare n) (rereadAll n) (rereadAll d)
  | power a b => power (reread a) (reread b)
  | log a b => log (reread a) (reread b)
  | trig f a => trig f (reread a)
  | var x => var x
  | number n => number n

/-- The addends after the first, each with the sign in front of it. -/
def rereadAddends : List (Expr α) → List (Expr α)
  | [] => []
  | product c n d :: as =>
    let e := rereadProduct (if c.isNegative then -c else c) (startsBare n) (rereadAll n) (rereadAll d)
    (if c.isNegative then e.neg else e) :: rereadAddends as
  | a :: as => reread a :: rereadAddends as

/-- The expressions that the texts of factors are read as. -/
def rereadAll : List (Expr α) → List (Expr α)
  | [] => []
  | a :: as => reread a :: rereadAll as

end

/-- The numbers that are written at this node can be read again, and so can the name of a variable. -/
def LegibleNode : Expr α → Prop
  | .var name => ∃ c : Char, name = String.ofList [c] ∧ c.isAlpha = true ∧ c ≠ 'e'
  | .number (.real v) => Scalar.Legible v
  | .product c _ _ => Scalar.Legible c.numer ∧ Scalar.Legible c.denom
  | .sum as => as ≠ []
  | _ => True

/-- The expressions of a list are read one by one. -/
theorem rereadAll_eq_map (es : List (Expr α)) : rereadAll es = es.map reread := by
  induction es with
  | nil => rfl
  | cons e es ih => rw [rereadAll, ih, List.map_cons]

/-- The texts of factors are those of the single factors. -/
theorem factorTexts_eq_map (es : List (Expr α)) :
    factorTexts es = es.map fun e => wrapped (!e.isFactor) e.text := by
  induction es with
  | nil => rfl
  | cons e es ih => rw [factorTexts, ih, List.map_cons]

/-- The texts of addends follow each other. -/
theorem addendsText_cons (a : Expr α) (as : List (Expr α)) :
    addendsText (a :: as) = addendsText [a] ++ addendsText as := by
  cases a with
  | number v => cases v <;> simp [addendsText]
  | _ => simp [addendsText]

/-- Addends are read one after the other. -/
theorem rereadAddends_cons (a : Expr α) (as : List (Expr α)) :
    rereadAddends (a :: as) = rereadAddends [a] ++ rereadAddends as := by
  cases a <;> simp [rereadAddends]

/-- Factors in a row are one alone or a product. -/
theorem chain_cons (e : Expr α) (above below : List (Expr α)) :
    chain (e :: above) below =
      if above = [] ∧ below = [] then e else .product .one (e :: above) below := by
  cases above <;> cases below <;> simp [chain]

/-- Words with a sign of multiplication before each. -/
def timesText : List String → String
  | [] => ""
  | word :: words => "*" ++ word ++ timesText words

omit [Scalar α] in
/-- Words with a sign of multiplication between them begin with the first. -/
theorem intercalate_cons (word : String) (words : List String) :
    "*".intercalate (word :: words) = word ++ timesText words := by
  induction words generalizing word with
  | nil => simp [timesText]
  | cons next words ih =>
    rw [String.intercalate_cons_cons, ih, timesText, String.append_assoc, String.append_assoc]

/-- The text of the expression is read as `reread` has it, at every level of the grammar at which it may
stand without parentheses. -/
structure Spelled (table : Table) (e : Expr α) : Prop where
  expr : SpellsExpr table e.text e.reread
  term : e.isSum = false → SpellsTerm table e.text e.reread
  factor : e.isFactor = true → SpellsBody table e.text e.reread
  exponent : e.isExponent = true → SpellsBody table e.text e.reread
  base : e.isPowerBase = true → SpellsOperand table "expo" e.text e.reread
  argument : e.isAtomic = true → SpellsOperand table "funbody" e.text e.reread
  addend {rest : String} {above : List (Expr α)} :
    SpellsTail table "expr_tail" ["body_tail", "term_tail"] rest above [] →
    SpellsTail table "expr_tail" ["body_tail", "term_tail"] (addendsText [e] ++ rest)
      (rereadAddends [e] ++ above) []

section Table

variable {table : Table} (h : table.ReadsExpressions)
include h

/-- Factors after a sign of multiplication each are read before what follows them. -/
theorem spellsTail_factors {words : List String} {es : List (Expr α)}
    (hes : List.Forall₂ (SpellsBody table) words es) {rest : String} {below : List (Expr α)}
    (hrest : SpellsTail table "term_tail" ["body_tail"] rest [] below) :
    SpellsTail table "term_tail" ["body_tail"] (timesText words ++ rest) es below := by
  induction hes with
  | nil => simpa [timesText] using hrest
  | @cons word e words es he _ ih =>
    have htail := spellsTail_cons h links_of_sign.2.2.1
      (joins_mulop h (c := '*') (by decide)) (he.factor h) ih
    rw [timesText, String.append_assoc]
    exact htail

/-- A divisor is read before what follows it. -/
theorem spellsTail_divisor {word rest : String} {e : Expr α} {below : List (Expr α)}
    (he : SpellsFactor table word e)
    (hrest : SpellsTail table "term_tail" ["body_tail"] rest [] below) :
    SpellsTail table "term_tail" ["body_tail"] ("/" ++ word ++ rest) [] (e :: below) :=
  spellsTail_cons h links_of_sign.2.2.2 (joins_mulop h (c := '/') (by decide)) he hrest

/-- Factors with signs of multiplication between them are read as a chain. -/
theorem spells_intercalate {word : String} {words : List String} {e : Expr α} {es : List (Expr α)}
    (he : SpellsFactor table word e) (hes : List.Forall₂ (SpellsBody table) words es) {rest : String}
    {below : List (Expr α)} (hrest : SpellsTail table "term_tail" ["body_tail"] rest [] below) :
    SpellsTerm table (word ++ (timesText words ++ rest)) (chain (e :: es) below) := by
  rw [chain_cons]
  exact spells_product h he (spellsTail_factors h hes hrest)

/-- A term is read before the addends that follow it. -/
theorem spellsTail_plus {word rest : String} {e : Expr α} {above : List (Expr α)}
    (he : SpellsTerm table word e)
    (hrest : SpellsTail table "expr_tail" ["body_tail", "term_tail"] rest above []) :
    SpellsTail table "expr_tail" ["body_tail", "term_tail"] (" + " ++ word ++ rest) (e :: above) [] :=
  spellsTail_cons h links_of_sign.1 (joins_addop h (c := '+') (by decide)) he hrest

/-- A term behind a minus is read with the opposite sign before the addends that follow it. -/
theorem spellsTail_minus {word rest : String} {e : Expr α} {above : List (Expr α)}
    (he : SpellsTerm table word e)
    (hrest : SpellsTail table "expr_tail" ["body_tail", "term_tail"] rest above []) :
    SpellsTail table "expr_tail" ["body_tail", "term_tail"] (" - " ++ word ++ rest) (e.neg :: above)
      [] :=
  spellsTail_cons h links_of_sign.2.1 (joins_addop h (c := '-') (by decide)) he hrest

variable [Scalar.Numeric α]

/-- The text of a number that is not negative spells it as an operand. -/
theorem spells_text_numeral {name : String} (hname : name ∈ ["expo", "funbody"]) {v : α}
    (hv : Scalar.Legible v) (hpos : Scalar.lt v Scalar.zero = false) :
    SpellsOperand table name (Scalar.text v) (real v) :=
  spells_real h hname (hv.numeral hpos).1 (hv.numeral hpos).2

/-- The text of a number spells it as a factor. -/
theorem spells_text_real {v : α} (hv : Scalar.Legible v) :
    SpellsFactor table (Scalar.text v) (real v) := by
  cases hneg : Scalar.lt v Scalar.zero with
  | false => exact ((spells_text_numeral h (by decide) hv hneg).body h).factor h
  | true =>
    obtain ⟨hopposite, hpos, htext⟩ := hv.opposite hneg
    have hspells := ((spells_text_numeral h (by decide) hopposite hpos).body h).negated h
    have hback : (real (-v)).neg = real v := by
      rw [real, Number.literal, hopposite.unsigned, neg, Scalar.Signed.neg_neg]
    rw [htext, ← hback]
    exact hspells

/-- What is written below the fraction line is read as the divisors. -/
theorem spellsTail_divisorText {c : Coefficient α} (hdenom : Scalar.Legible c.denom)
    {words : List String} {es : List (Expr α)} (hes : List.Forall₂ (SpellsBody table) words es) :
    SpellsTail table "term_tail" ["body_tail"] (divisorText c words) [] (rereadDivisors c es) := by
  have hend : SpellsTail table "term_tail" ["body_tail"] "" ([] : List (Expr α)) [] :=
    spellsTail_nil (by decide) _
  have hgroup : ∃ word, divisorText c words =
      (if Scalar.eq c.denom Scalar.one then "" else "/" ++ Scalar.text c.denom) ++ word ∧
      SpellsTail table "term_tail" ["body_tail"] word [] (groupDivisors es) := by
    cases hes with
    | nil => exact ⟨"", by simp [divisorText], hend⟩
    | @cons word e words es he hes =>
      cases hes with
      | nil =>
        refine ⟨"/" ++ word ++ "", by simp [divisorText, String.append_assoc], ?_⟩
        exact spellsTail_divisor h (he.factor h) hend
      | @cons word' e' words es he' hes =>
        refine ⟨"/" ++ parenthesized ("*".intercalate (word :: word' :: words)) ++ "",
          by simp [divisorText, String.append_assoc], ?_⟩
        have hterm := spells_intercalate h (he.factor h) (.cons he' hes) hend
        rw [String.append_empty, ← intercalate_cons] at hterm
        exact spellsTail_divisor h
          (((spells_parenthesized h _ (by decide) (hterm.expr h)).body h).factor h) hend
  obtain ⟨word, htext, hgroup⟩ := hgroup
  rw [htext, rereadDivisors]
  split
  · simpa using hgroup
  · exact spellsTail_divisor h (spells_text_real h hdenom) hgroup

/-- The text of a product is read as a chain of its factors and divisors. -/
theorem spells_productText {c : Coefficient α} (hnumer : Scalar.Legible c.numer)
    (hdenom : Scalar.Legible c.denom) (bare : Bool) {words words' : List String} {n d : List (Expr α)}
    (hn : List.Forall₂ (SpellsBody table) words n) (hd : List.Forall₂ (SpellsBody table) words' d) :
    SpellsTerm table (productText c bare words words') (rereadProduct c bare n d) := by
  have hbelow := spellsTail_divisorText h hdenom hd
  cases hn with
  | nil =>
    have hterm := spells_intercalate h (spells_text_real h hnumer) .nil hbelow
    simpa [productText, coefficientText, rereadProduct, rereadNumerator, timesText] using hterm
  | @cons word e words es he hes =>
    have hbody := spells_intercalate h (he.factor h) hes hbelow
    have hnegated := spells_intercalate h (he.negated h) hes hbelow
    have hscaled := spells_intercalate h (spells_text_real h hnumer) (.cons he hes) hbelow
    have hwrapped := (((spells_parenthesized h _ (by decide) (hbody.expr h)).body h).negated h).term h
    rw [productText, rereadProduct, coefficientText, rereadNumerator, intercalate_cons]
    cases hminus : Scalar.eq c.numer (Scalar.ofInt (-1)) with
    | true =>
      cases bare with
      | true => simpa [String.append_assoc] using hnegated
      | false => simpa [String.append_assoc] using hwrapped
    | false =>
      cases hone : Scalar.eq c.numer Scalar.one with
      | true => simpa [String.append_assoc] using hbody
      | false => simpa [String.append_assoc, timesText] using hscaled

omit [Scalar.Numeric α] in
/-- The text of a factor, between parentheses if it needs them, spells it. -/
theorem Spelled.wrapped_factor {e : Expr α} (he : Spelled table e) :
    SpellsBody table (wrapped (!e.isFactor) e.text) e.reread := by
  cases hfactor : e.isFactor with
  | true => exact he.factor hfactor
  | false => exact (spells_parenthesized h _ (by decide) he.expr).body h

omit [Scalar.Numeric α] in
/-- The text of an addend, between parentheses if it needs them, spells it. -/
theorem Spelled.wrapped_addend {e : Expr α} (he : Spelled table e) :
    SpellsTerm table (wrapped e.isSum e.text) e.reread := by
  cases hsum : e.isSum with
  | true => exact (((spells_parenthesized h _ (by decide) he.expr).body h).factor h).term h
  | false => exact he.term hsum

omit [Scalar.Numeric α] in
/-- An operand or a power whose text spells it is spelled at every level. -/
theorem spelled_of_body {e : Expr α} (hbody : SpellsBody table e.text e.reread)
    (hbase : e.isPowerBase = true → SpellsOperand table "expo" e.text e.reread)
    (hargument : e.isAtomic = true → SpellsOperand table "funbody" e.text e.reread)
    (htext : addendsText [e] = " + " ++ e.text) (hreread : rereadAddends [e] = [e.reread]) :
    Spelled table e where
  expr := ((hbody.factor h).term h).expr h
  term _ := (hbody.factor h).term h
  factor _ := hbody
  exponent _ := hbody
  base := hbase
  argument := hargument
  addend hrest := by
    rw [htext, hreread]
    exact spellsTail_plus h ((hbody.factor h).term h) hrest

omit h [Scalar.Numeric α] in
/-- Addends are read one after the other up to the end of the sum. -/
theorem spellsTail_addends {es : List (Expr α)} (hes : ∀ e ∈ es, Spelled table e) :
    SpellsTail table "expr_tail" ["body_tail", "term_tail"] (addendsText es) (rereadAddends es)
      [] := by
  induction es with
  | nil => exact spellsTail_nil (by decide) _
  | cons e es ih =>
    rw [List.forall_mem_cons] at hes
    rw [addendsText_cons, rereadAddends_cons]
    exact hes.1.addend (ih hes.2)

omit [Scalar.Numeric α] in
/-- A sum is spelled if its addends are. -/
theorem spelled_sum {a : Expr α} {as : List (Expr α)} (ha : Spelled table a)
    (has : ∀ b ∈ as, Spelled table b) : Spelled table (sum (a :: as)) := by
  have hexpr : SpellsExpr table (sum (a :: as)).text (sum (a :: as)).reread := by
    have hsum := spells_sum h (ha.wrapped_addend h) (spellsTail_addends has)
    have hnone : rereadAddends as = [] ↔ as.isEmpty = true := by
      cases as with
      | nil => simp [rereadAddends]
      | cons b as => cases b <;> simp [rereadAddends]
    rw [text, reread]
    simpa only [hnone, and_true] using hsum
  refine {
    expr := hexpr
    term := nofun
    factor := nofun
    exponent := nofun
    base := nofun
    argument := nofun
    addend := fun {rest above} hrest => ?_ }
  have hterm := (((spells_parenthesized h "expo" (by decide) hexpr).body h).factor h).term h
  simpa [addendsText, rereadAddends, isSum, wrapped] using spellsTail_plus h hterm hrest

/-- A product is spelled if its factors are and its coefficient is legible. -/
theorem spelled_product {c : Coefficient α} {n d : List (Expr α)} (hnumer : Scalar.Legible c.numer)
    (hdenom : Scalar.Legible c.denom)
    (hn : List.Forall₂ (SpellsBody table) (factorTexts n) (rereadAll n))
    (hd : List.Forall₂ (SpellsBody table) (factorTexts d) (rereadAll d)) :
    Spelled table (product c n d) := by
  have hterm : SpellsTerm table (product c n d).text (product c n d).reread :=
    spells_productText h hnumer hdenom (startsBare n) hn hd
  refine {
    expr := hterm.expr h
    term := fun _ => hterm
    factor := nofun
    exponent := nofun
    base := nofun
    argument := nofun
    addend := fun {rest above} hrest => ?_ }
  cases hneg : c.isNegative with
  | false =>
    have htail := spellsTail_plus h hterm hrest
    simpa [addendsText, rereadAddends, hneg, text, reread] using htail
  | true =>
    -- the text of the opposite product stands behind the minus
    obtain ⟨hopposite, -⟩ := hnumer.opposite hneg
    have hnumer' : Scalar.Legible (-c).numer := by
      change Scalar.Legible (Scalar.unsignZero (-c.numer))
      rw [hopposite.unsigned]
      exact hopposite
    have hdenom' : Scalar.Legible (-c).denom := hdenom
    have htail := spellsTail_minus h (spells_productText h hnumer' hdenom' (startsBare n) hn hd) hrest
    simpa [addendsText, rereadAddends, hneg] using htail

omit [Scalar.Numeric α] in
/-- A power is spelled if its parts are. -/
theorem spelled_power {a b : Expr α} (ha : Spelled table a) (hb : Spelled table b) :
    Spelled table (power a b) := by
  have hbase : SpellsOperand table "expo" (wrapped (!a.isPowerBase) a.text) a.reread := by
    cases hbare : a.isPowerBase with
    | true => exact ha.base hbare
    | false => exact spells_parenthesized h _ (by decide) ha.expr
  have hexponent : SpellsBody table (wrapped (!b.isExponent) b.text) b.reread := by
    cases hbare : b.isExponent with
    | true => exact hb.exponent hbare
    | false => exact (spells_parenthesized h _ (by decide) hb.expr).body h
  refine spelled_of_body h ?_ nofun nofun ?_ ?_
  · exact spells_power h hbase (hexponent.factor h)
  · exact String.append_empty
  · rfl

omit [Scalar.Numeric α] in
/-- A logarithm is spelled if its parts are. -/
theorem spelled_log {a b : Expr α} (ha : Spelled table a) (hb : Spelled table b) :
    Spelled table (log a b) := by
  have hbody : SpellsOperand table "funbody" (wrapped (!b.isAtomic) b.text) b.reread := by
    cases hbare : b.isAtomic with
    | true => exact hb.argument hbare
    | false => exact spells_parenthesized h _ (by decide) hb.expr
  have hlog : SpellsOperand table "expo" (log a b).text (log a b).reread := by
    exact spells_log h ha.expr hbody
  refine spelled_of_body h (hlog.body h) (fun _ => hlog) nofun ?_ ?_
  · exact String.append_empty
  · rfl

omit [Scalar.Numeric α] in
/-- A function is spelled if its body is. -/
theorem spelled_trig {f : Trig} {a : Expr α} (ha : Spelled table a) : Spelled table (trig f a) := by
  have htrig : SpellsOperand table "expo" (trig f a).text (trig f a).reread := by
    exact spells_trig h f ha.expr
  refine spelled_of_body h (htrig.body h) (fun _ => htrig) nofun ?_ ?_
  · exact String.append_empty
  · rfl

/-- A legible literal is spelled. -/
theorem spelled_real {v : α} (hv : Scalar.Legible v) : Spelled table (number (.real v)) := by
  have hliteral : real v = number (.real v) := by
    rw [real, Number.literal, hv.unsigned]
  cases hneg : Scalar.lt v Scalar.zero with
  | false =>
    have hoperand {name : String} (hname : name ∈ ["expo", "funbody"]) :
        SpellsOperand table name (number (.real v)).text (number (.real v)).reread := by
      rw [text, reread, Number.text, ← hliteral]
      exact spells_text_numeral h hname hv hneg
    refine spelled_of_body h ((hoperand (by decide)).body h) (fun _ => hoperand (by decide))
      (fun _ => hoperand (by decide)) ?_ ?_
    · simp [addendsText, hneg, text, Number.text]
    · rfl
  | true =>
    -- a negative literal stands nowhere without parentheses but as a factor
    obtain ⟨hopposite, hpos, -⟩ := hv.opposite hneg
    have hfactor : SpellsFactor table (number (.real v)).text (number (.real v)).reread := by
      rw [text, reread, Number.text, ← hliteral]
      exact spells_text_real h hv
    have hnot : ¬ Scalar.le Scalar.zero v = true := fun hle => by
      rw [Scalar.Signed.lt_of_nonneg v hle] at hneg
      cases hneg
    refine {
      expr := (hfactor.term h).expr h
      term := fun _ => hfactor.term h
      factor := fun hbare => by simp [isFactor, hneg] at hbare
      exponent := fun hbare => (hnot hbare).elim
      base := fun hbare => (hnot hbare).elim
      argument := fun hbare => (hnot hbare).elim
      addend := fun {rest above} hrest => ?_ }
    have htail := spellsTail_minus h ((spells_text_real h hopposite).term h) hrest
    have hback : (real (-v)).neg = number (.real v) := by
      rw [← hliteral, real, Number.literal, hopposite.unsigned, neg, Scalar.Signed.neg_neg]
    rw [hback] at htail
    simpa [addendsText, rereadAddends, reread, hneg, hopposite.unsigned] using htail

/-- The text of an expression with legible nodes is spelled. -/
theorem spelled {e : Expr α} (he : e.Everywhere LegibleNode) : Spelled table e := by
  have below : ∀ child ∈ e.children, Spelled table child := fun child hchild =>
    spelled (he.child hchild)
  have factors {es : List (Expr α)} (hes : ∀ a ∈ es, Spelled table a) :
      List.Forall₂ (SpellsBody table) (factorTexts es) (rereadAll es) := by
    rw [factorTexts_eq_map, rereadAll_eq_map, List.forall₂_map_left_iff, List.forall₂_map_right_iff,
      List.forall₂_same]
    exact fun a ha => (hes a ha).wrapped_factor h
  cases e with
  | sum as =>
    cases as with
    | nil => exact (he.root rfl).elim
    | cons a as =>
      rw [children, List.forall_mem_cons] at below
      exact spelled_sum h below.1 below.2
  | product c n d =>
    rw [children, List.forall_mem_append] at below
    exact spelled_product h he.root.1 he.root.2 (factors below.1) (factors below.2)
  | power a b => exact spelled_power h (below a (by simp [children])) (below b (by simp [children]))
  | log a b => exact spelled_log h (below a (by simp [children])) (below b (by simp [children]))
  | trig f a => exact spelled_trig h (below a (by simp [children]))
  | var x =>
    obtain ⟨c, rfl, halpha, hc⟩ := he.root
    have hvar {name : String} (hname : name ∈ ["expo", "funbody"]) :
        SpellsOperand table name (String.ofList [c]) (var (String.ofList [c]) : Expr α) :=
      spells_var h hname halpha hc
    refine spelled_of_body h ((hvar (by decide)).body h) (fun _ => hvar (by decide))
      (fun _ => hvar (by decide)) ?_ ?_
    · exact String.append_empty
    · rfl
  | number v =>
    cases v with
    | real v => exact spelled_real h he.root
    | constant k =>
      have hconstant {name : String} (hname : name ∈ ["expo", "funbody"]) :
          SpellsOperand table name k.name (constant k : Expr α) := spells_constant h hname k
      refine spelled_of_body h ((hconstant (by decide)).body h) (fun _ => hconstant (by decide))
        (fun _ => hconstant (by decide)) ?_ ?_
      · exact String.append_empty
      · rfl
termination_by e.size
decreasing_by exact size_lt_of_mem_children hchild

/-- The text of an expression with legible nodes is read as `reread` has it, under every depth limit that
is large enough. -/
theorem exists_read (hbuilt : Table.Built table.grammar table) {e : Expr α}
    (he : e.Everywhere LegibleNode) :
    ∃ least, ∀ limits : Limits, least ≤ limits.maxDepth →
      read table limits e.text = .ok e.reread := by
  obtain ⟨token, tokens, offset', hlex, -, depth, fuel, tree, hparse, least, hmeans⟩ :=
    (spelled h he).expr e.text.utf8ByteSize [] 0 breaks_nil (stops_nil h)
  have hrest : lex offset' [] = [] := by
    rw [lex, scanFrom, List.filter_nil]
  rw [List.append_nil] at hlex
  rw [← hlex, hrest] at hparse
  refine ⟨least, fun limits hlimits => ?_⟩
  have hsource : ParseTree.parse table e.text = .ok tree :=
    ParseTree.parse_of_parseSymbol hbuilt (h.start ▸ hparse)
  rw [read, hsource]
  change ofTree limits tree = _
  rw [ofTree, hmeans limits hlimits]
  rfl

end Table

end SymbolicAlgebra.Expr
