import SymbolicAlgebra.Proofs.Expr.Sort
import SymbolicAlgebra.Proofs.Reduction.NormalForm
import SymbolicAlgebra.Proofs.Scalar.Units

/-!
# Stable expressions

Expressions that simplification leaves as they are, told by a property of each node: the rule for
the node gives it back. What single rules make of stable expressions is stable, other than what
cancelling and multiplying exponents lead to.
-/

namespace SymbolicAlgebra.Reduction

open SymbolicAlgebra.Expr

variable {α : Type} [Scalar α]

/-- A normal product that is neither empty nor a single factor with the coefficient one. -/
structure StableProduct (c : Coefficient α) (n d : List (Expr α)) : Prop
    extends NormalProduct c n d where
  nonempty : ¬ (n = [] ∧ d = [])
  scaled : ∀ e, n = [e] → d = [] → c.isOne = false

/-- The rule for this node gives it back. -/
def StableNode : Expr α → Prop
  | .sum as => (sumRule as).value = .sum as
  | .product c n d => StableProduct c n d
  | .power base exponent =>
    plainPower? base exponent = none ∧ exponent.isNegative = false ∧
      ∀ k, wholeExponent? exponent = some k → Unraised k base
  | .log base body => (logRule base body).value = .log base body
  | .trig f body => (trigRule f body).value = .trig f body
  | .var _ => True
  | .number _ => True

/-- The rules give back every node. -/
def Stable (e : Expr α) : Prop := e.Everywhere StableNode

/-- Numbers are stable. -/
theorem stable_number (v : Number α) : Stable (.number v) := everywhere_of_leaf rfl trivial

/-- Variables are stable. -/
theorem stable_var (name : String) : Stable (.var name : Expr α) := everywhere_of_leaf rfl trivial

/-- A stable sum is one of stable addends. -/
theorem stable_sum {as : List (Expr α)} :
    Stable (.sum as) ↔ (sumRule as).value = .sum as ∧ ∀ a ∈ as, Stable a := everywhere_iff

/-- A stable product is one of stable factors. -/
theorem stable_product {c : Coefficient α} {n d : List (Expr α)} :
    Stable (.product c n d) ↔
      StableProduct c n d ∧ (∀ e ∈ n, Stable e) ∧ ∀ e ∈ d, Stable e := by
  rw [Stable, everywhere_iff]
  simp only [children, List.forall_mem_append]
  rfl

/-- A stable power is one of stable parts. -/
theorem stable_power {base exponent : Expr α} :
    Stable (.power base exponent) ↔
      StableNode (.power base exponent) ∧ Stable base ∧ Stable exponent := by
  rw [Stable, everywhere_iff]
  simp only [children, List.forall_mem_cons, List.not_mem_nil, false_imp_iff, implies_true, and_true]
  rfl

/-- A stable logarithm is one of stable parts. -/
theorem stable_log {base body : Expr α} :
    Stable (.log base body) ↔
      (logRule base body).value = .log base body ∧ Stable base ∧ Stable body := by
  rw [Stable, everywhere_iff]
  simp only [children, List.forall_mem_cons, List.not_mem_nil, false_imp_iff, implies_true, and_true]
  rfl

/-- A stable function is one of a stable body. -/
theorem stable_trig {f : Trig} {body : Expr α} :
    Stable (.trig f body) ↔ (trigRule f body).value = .trig f body ∧ Stable body := by
  rw [Stable, everywhere_iff]
  simp only [children, List.forall_mem_singleton]
  rfl

/-- The factors of a stable product are stable. -/
theorem factors_stable (c : Coefficient α) (n d : List (Expr α)) (h : Stable (.product c n d)) :
    (∀ e ∈ n, Stable e) ∧ ∀ e ∈ d, Stable e := (stable_product.mp h).2

/-- The rule for logarithms makes stable expressions of stable ones. -/
theorem logRule_stable {base body : Expr α} (hbase : Stable base) (hbody : Stable body) :
    Stable (logRule base body).value := by
  have outcome := logOutcome base body
  generalize hvalue : (logRule base body).value = e at outcome
  cases outcome with
  | self _ => exact stable_number _
  | bodyOne _ => exact stable_number _
  | power _ => exact (stable_power.mp hbody).2.2
  | literal _ _ _ => exact stable_number _
  | stays _ => exact stable_log.mpr ⟨hvalue, hbase, hbody⟩

/-- The rule for trigonometric functions makes a stable expression of a stable one. -/
theorem trigRule_stable {f : Trig} {body : Expr α} (hbody : Stable body) :
    Stable (trigRule f body).value := by
  have outcome := trigOutcome f body
  generalize hvalue : (trigRule f body).value = e at outcome
  cases outcome with
  | zero _ => cases f <;> exact stable_number _
  | pi _ => cases f <;> exact stable_number _
  | stays => exact stable_trig.mpr ⟨hvalue, hbody⟩

/-- A power that follows from its parts is stable if they are. -/
theorem plainPower?_stable {base exponent : Expr α} {found : Traced (Expr α)}
    (h : plainPower? base exponent = some found) (hbase : Stable base)
    (hexponent : Stable exponent) : Stable found.value := by
  have outcome := powerOutcome h
  generalize found.value = e at outcome
  cases outcome with
  | exponentZero _ => exact stable_number _
  | exponentOne _ => exact hbase
  | baseOne _ => exact stable_number _
  | literal _ => exact stable_number _
  | logarithm _ => exact (stable_log.mp hexponent).2.2

/-- Where only zeros are bases on both sides there is nothing to cancel. -/
theorem common?_eq_none {n d : List (Expr α)}
    (h : ∀ a ∈ n, ∀ b ∈ d, (b.powerParts.1 == a.powerParts.1) = true →
      a.powerParts.1.isZero = true) : Fraction.common? d n = none := by
  have untaken {base : Expr α} {es : List (Expr α)}
      (hes : ∀ e ∈ es, (e.powerParts.1 == base) = false) : Fraction.takeBase? base es = none := by
    induction es with
    | nil => rfl
    | cons e es ih =>
      rw [List.forall_mem_cons] at hes
      rw [Fraction.takeBase?, hes.1, ih hes.2]
      rfl
  induction n with
  | nil => rfl
  | cons e n ih =>
    rw [List.forall_mem_cons] at h
    rw [Fraction.common?]
    have htake : (if e.powerParts.1.isZero then none
        else Fraction.takeBase? e.powerParts.1 d) = none := by
      split
      · rfl
      · rename_i hzero
        exact untaken fun b hb => Bool.eq_false_iff.mpr fun hbase => hzero (h.1 b hb hbase)
    simp only [htake, ih h.2, Option.map_none]

/-- Factors that are no products and no literals are put on their side one by one. -/
theorem absorbAll_factors (side : Side) (f : Fraction α) {es : List (Expr α)}
    (h : ∀ e ∈ es, e.isProduct = false ∧ e.real? = none) :
    (Fraction.absorbAll side f es).value =
      match side with
      | .above => { f with numerator := f.numerator ++ es }
      | .below => { f with denominator := f.denominator ++ es } := by
  induction es generalizing f with
  | nil => cases side <;> simp [Fraction.absorbAll]
  | cons e es ih =>
    rw [List.forall_mem_cons] at h
    have hplace : (Fraction.absorb side f e).value = f.place side e := by
      obtain ⟨⟨hproduct, hliteral⟩, -⟩ := h
      cases e with
      | product c n d => cases hproduct
      | number v =>
        cases v with
        | real v => cases hliteral
        | constant c => rfl
      | _ => rfl
    change (Fraction.absorbAll side (Fraction.absorb side f e).value es).value = _
    rw [hplace, ih _ h.2]
    cases side <;> simp [Fraction.place]

section Lawful

variable [Scalar.Lawful α]

/-- The rule for sums is made of what the rules make of its addends. -/
theorem Stable.normal {e : Expr α} (h : Stable e) : e.Normal := by
  have below : ∀ child ∈ e.children, child.Normal := fun child hchild =>
    Stable.normal (h.child hchild)
  cases e with
  | sum as =>
    have hrule := (stable_sum.mp h).1
    rw [← hrule]
    exact sumRule_normal fun a ha => (below a ha).addends
  | product c n d =>
    rw [children, List.forall_mem_append] at below
    exact normal_product.mpr ⟨(stable_product.mp h).1.toNormalProduct, below⟩
  | power base exponent =>
    obtain ⟨⟨hplain, hneg, -⟩, -⟩ := stable_power.mp h
    exact power_normal hplain hneg (below base (by simp [children])) (below exponent (by simp [children]))
  | log base body =>
    rw [← (stable_log.mp h).1]
    exact logRule_normal (below base (by simp [children])) (below body (by simp [children]))
  | trig f body => exact normal_trig.mpr (below body (by simp [children]))
  | var x => exact normal_var x
  | number v => exact normal_number v
termination_by e.size
decreasing_by exact size_lt_of_mem_children hchild

/-- A stable sum has two addends at least. -/
theorem two_le_length_of_stable {as : List (Expr α)} (h : Stable (.sum as)) : 2 ≤ as.length := by
  have hrule := (stable_sum.mp h).1
  rw [sumRule_value] at hrule
  have hnormal := (normal_sum.mp h.normal).1
  generalize hterms : sort (sumTerms (as.flatMap Expr.addends)) = terms at hrule
  match terms, hrule with
  | [e], hrule =>
    -- a sum that is its own only addend would be one of the addends of stable expressions
    have hmem : e ∈ sumTerms (as.flatMap Expr.addends) :=
      (sort_perm _).mem_iff.mp (hterms ▸ List.mem_singleton_self e)
    obtain hkept | ⟨v, rfl, -⟩ := mem_sumTerms hmem
    · obtain ⟨a, ha, he⟩ := List.mem_flatMap.mp (mem_keptAddends.mp hkept).1
      have hflat := (((stable_sum.mp h).2 a ha).normal.addends e he).2
      rw [collapseSum] at hrule
      rw [hrule] at hflat
      cases hflat
    · cases hrule
  | a :: b :: rest, hrule =>
    obtain rfl := Expr.sum.inj hrule
    simp

omit [Scalar.Lawful α] in
/-- A stable product is assembled of its sorted factors. -/
theorem StableProduct.assemble {c : Coefficient α} {n d : List (Expr α)} (h : StableProduct c n d) :
    (Fraction.assemble c n d).value = .product c n d := by
  have outcome := Fraction.assembly c n d
  generalize hvalue : (Fraction.assemble c n d).value = e at outcome
  cases outcome with
  | sum hone => exact (h.notSum _ ⟨rfl, rfl⟩).elim
  | distributed => exact (h.notSum _ ⟨rfl, rfl⟩).elim
  | number => exact (h.nonempty ⟨rfl, rfl⟩).elim
  | factor hone =>
    have := h.scaled e rfl rfl
    rw [hone] at this
    cases this
  | product _ => rfl

/-- An addend of a stable sum in the making: stable and not itself a sum. -/
def StableAddend (e : Expr α) : Prop := Stable e ∧ e.isSum = false

/-- The addends of a stable expression are stable and not sums. -/
theorem Stable.addends {e : Expr α} (h : Stable e) : ∀ a ∈ e.addends, StableAddend a := by
  intro a ha
  refine ⟨?_, (h.normal.addends a ha).2⟩
  cases e with
  | sum as => exact (stable_sum.mp h).2 a ha
  | _ =>
    obtain rfl := List.mem_singleton.mp ha
    exact h

/-- A stable factor that is not a sum is a stable addend with any coefficient. -/
theorem ofScaleParts_stable_of_factor {c : Coefficient α} {key : Expr α} (hkey : key.Factor Stable)
    (hsum : key.isSum = false) : StableAddend (ofScaleParts c key) := by
  fun_cases ofScaleParts c key with
  | case1 hc => exact ⟨stable_number _, rfl⟩
  | case2 hc hone => exact ⟨stable_number _, rfl⟩
  | case3 hc c' n d => exact (Bool.noConfusion hkey.2.1)
  | case4 hc hone => exact ⟨hkey.1, hsum⟩
  | case5 hc hreal hproduct hone =>
    have hnormal : (product c [key] []).Normal :=
      normal_scaled (Bool.eq_false_iff.mpr hc) ⟨hkey.1.normal, hkey.2⟩ hsum
    refine ⟨stable_product.mpr ⟨?_, by simpa using hkey.1, by simp⟩, rfl⟩
    exact {
      toNormalProduct := (normal_product.mp hnormal).1
      nonempty := by simp
      scaled := fun _ _ _ => Bool.eq_false_iff.mpr hone }

/-- A stable addend is still one with another coefficient. -/
theorem ofScaleParts_stable {e : Expr α} (h : StableAddend e) (c : Coefficient α) :
    StableAddend (ofScaleParts c e.scaleParts.2) := by
  obtain ⟨hstable, hsum⟩ := h
  fun_cases scaleParts e with
  | case1 v =>
    change StableAddend (ofScaleParts c one)
    unfold ofScaleParts
    rw [isReal_one, if_pos rfl]
    split <;> exact ⟨stable_number _, rfl⟩
  | case2 k x =>
    obtain ⟨shape, above, -⟩ := stable_product.mp hstable
    refine ofScaleParts_stable_of_factor
      ⟨above x List.mem_cons_self, shape.factors x List.mem_cons_self⟩ ?_
    cases x with
    | sum as => exact (shape.notSum as ⟨rfl, rfl⟩).elim
    | _ => rfl
  | case3 k n d hsingle =>
    obtain ⟨shape, factors⟩ := stable_product.mp hstable
    change StableAddend (ofScaleParts c (product .one n d))
    rw [ofScaleParts]
    split
    · exact ⟨stable_number _, rfl⟩
    · rename_i hc
      refine ⟨stable_product.mpr ⟨?_, factors⟩, rfl⟩
      exact {
        shape with
        coefficient := Bool.eq_false_iff.mpr hc
        scaled := fun x hn hd => (hsingle x hn hd).elim }
  | case4 _ hreal hsingle hproduct =>
    refine ofScaleParts_stable_of_factor ⟨hstable, ?_, ?_⟩ hsum
    · cases e with
      | product c n d => exact (hproduct c n d rfl).elim
      | _ => rfl
    · cases e with
      | number v =>
        cases v with
        | real v => exact (hreal v rfl).elim
        | constant k => rfl
      | _ => rfl

end Lawful

section Unital

variable [Scalar.Unital α]

omit [Scalar.Unital α] in
/-- The addends that are left are those that are no literals, where none is zero. -/
theorem keptAddends_of_nonzero {es : List (Expr α)} (h : ∀ a ∈ es, a.isZero = false) :
    keptAddends es = es.filter fun a => a.real?.isNone := by
  rw [keptAddends, List.filter_eq_self]
  intro a ha
  simp [h a (List.mem_filter.mp ha).1]

omit [Scalar.Unital α] in
/-- The addends that are left contain no literal. -/
theorem filterMap_keptAddends (flat : List (Expr α)) :
    (keptAddends flat).filterMap Expr.real? = [] := by
  rw [List.filterMap_eq_nil_iff]
  exact fun a ha => (mem_keptAddends.mp ha).2.1

/-- What is added up is not zero. -/
theorem isZero_of_mem_sumTerms {flat : List (Expr α)} {a : Expr α} (h : a ∈ sumTerms flat) :
    a.isZero = false := by
  obtain hkept | ⟨v, rfl, hv⟩ := mem_sumTerms h
  · exact (mem_keptAddends.mp hkept).2.2
  · exact (isZero_real v).trans hv

/-- The sorted terms of a sum are also what they themselves are added up to. -/
theorem sort_sumTerms_sort (flat : List (Expr α)) :
    sort (sumTerms (sort (sumTerms flat))) = sort (sumTerms flat) := by
  have hkept : keptAddends (sort (sumTerms flat)) =
      (sort (sumTerms flat)).filter fun a => a.real?.isNone :=
    keptAddends_of_nonzero fun a ha => isZero_of_mem_sumTerms ((sort_perm _).mem_iff.mp ha)
  have hperm := (sort_perm (sumTerms flat)).filterMap Expr.real?
  refine sort_eq (pairwise_sort _) fun x => ?_
  have hothers : (alike x (keptAddends flat)).filter (fun a => a.real?.isNone) =
      alike x (keptAddends flat) := by
    rw [List.filter_eq_self]
    intro a ha
    simp [(mem_keptAddends.mp (List.mem_filter.mp ha).1).2.1]
  have halike : alike x (keptAddends (sort (sumTerms flat))) =
      (alike x (sumTerms flat)).filter fun a => a.real?.isNone := by
    rw [hkept, alike, List.filter_comm, ← alike, alike_sort]
  rw [alike_sort]
  generalize sort (sumTerms flat) = sorted at *
  cases hconstant : Scalar.eq (total (flat.filterMap Expr.real?)) Scalar.zero with
  | true =>
    have hterms : sumTerms flat = keptAddends flat := if_pos hconstant
    rw [hterms] at hperm halike ⊢
    rw [filterMap_keptAddends] at hperm
    have hsame : sumTerms sorted = keptAddends sorted := by
      rw [sumTerms, hperm.eq_nil]
      exact if_pos total_nil
    rw [hsame, halike, hothers]
  | false =>
    have hterms : sumTerms flat =
        keptAddends flat ++ [.real (total (flat.filterMap Expr.real?))] :=
      if_neg (Bool.eq_false_iff.mp hconstant)
    generalize total (flat.filterMap Expr.real?) = constant at *
    rw [hterms] at hperm halike ⊢
    rw [List.filterMap_append, filterMap_keptAddends] at hperm
    have hliteral : sorted.filterMap Expr.real? = [Scalar.unsignZero constant] :=
      List.perm_singleton.mp hperm
    have hv : Scalar.eq (Scalar.unsignZero constant) Scalar.zero = false :=
      (Scalar.Lawful.eq_unsignZero constant).trans hconstant
    have htotal : total [Scalar.unsignZero constant] = Scalar.unsignZero constant := by
      rw [total, List.mergeSort_singleton]
      exact Scalar.Unital.zero_add _ hv
    have hreal : Expr.real (Scalar.unsignZero constant) = .real constant := by
      rw [Expr.real, Number.literal, Scalar.unsignZero_of_ne hv]
      rfl
    have hsame : sumTerms sorted = keptAddends sorted ++ [.real constant] := by
      rw [sumTerms, hliteral, htotal, hreal]
      exact if_neg (Bool.eq_false_iff.mp hv)
    have hnone : (alike x [.real constant]).filter (fun a => a.real?.isNone) = [] := by
      rw [alike, List.filter_comm]
      rfl
    rw [hsame, alike_append, halike, alike_append, List.filter_append, hothers, hnone,
      List.append_nil]

omit [Scalar α] [Scalar.Unital α] in
/-- What is no sum is its own only addend. -/
theorem addends_of_not_sum {e : Expr α} (h : e.isSum = false) : e.addends = [e] := by
  cases e with
  | sum as => cases h
  | _ => rfl

omit [Scalar α] [Scalar.Unital α] in
/-- Addends that are no sums are not spliced in. -/
theorem flatMap_addends {es : List (Expr α)} (h : ∀ e ∈ es, e.isSum = false) :
    es.flatMap Expr.addends = es := by
  rw [List.flatMap_congr fun e he => addends_of_not_sum (h e he)]
  exact List.flatMap_singleton' es

/-- A sum of stable addends is stable. -/
theorem sumRule_stable {addends : List (Expr α)}
    (h : ∀ e ∈ addends, ∀ a ∈ e.addends, StableAddend a) : Stable (sumRule addends).value := by
  rw [sumRule_value]
  have hflat : ∀ a ∈ addends.flatMap Expr.addends, StableAddend a := by
    intro a ha
    obtain ⟨e, he, ha⟩ := List.mem_flatMap.mp ha
    exact h e he a ha
  generalize addends.flatMap Expr.addends = flat at hflat
  have hterms : ∀ a ∈ sort (sumTerms flat), StableAddend a := by
    intro a ha
    obtain hkept | ⟨v, rfl, -⟩ := mem_sumTerms ((sort_perm _).mem_iff.mp ha)
    · exact hflat a (mem_keptAddends.mp hkept).1
    · exact ⟨stable_number _, rfl⟩
  have hagain := sort_sumTerms_sort flat
  generalize sort (sumTerms flat) = terms at hterms hagain
  match terms, hterms, hagain with
  | [], _, _ => exact stable_number _
  | [e], hterms, _ => exact (hterms e List.mem_cons_self).1
  | a :: b :: rest, hterms, hagain =>
    refine stable_sum.mpr ⟨?_, fun e he => (hterms e he).1⟩
    rw [sumRule_value, flatMap_addends fun e he => (hterms e he).2, hagain]
    rfl

/-- The factors of a product in the making without common bases make a stable expression. -/
theorem finish_stable {f : Fraction α} (h : f.Has Stable)
    (hcommon : Fraction.common? f.denominator f.numerator = none) : Stable f.finish.value := by
  have hnormal := finish_normal (f := f)
    ⟨fun e he => (h.1 e he).imp_left Stable.normal, fun e he => (h.2 e he).imp_left Stable.normal⟩
    hcommon
  cases hc : f.coefficient.isZero with
  | true =>
    rw [Fraction.finish, if_pos hc]
    exact stable_number _
  | false =>
    rw [Fraction.finish_eq hc] at hnormal ⊢
    have habove : ∀ e ∈ sort f.numerator, e.Factor Stable :=
      fun e he => h.1 e ((sort_perm _).mem_iff.mp he)
    have hbelow : ∀ e ∈ sort f.divisors, Stable e := by
      intro e he
      replace he := (sort_perm _).mem_iff.mp he
      rw [Fraction.divisors] at he
      split at he
      · obtain rfl := List.mem_singleton.mp he
        exact stable_number _
      · exact (h.2 e he).1
    generalize sort f.numerator = n at *
    generalize sort f.divisors = d at *
    have outcome := Fraction.assembly f.coefficient n d
    generalize hvalue : (Fraction.assemble f.coefficient n d).value = e at outcome hnormal
    cases outcome with
    | sum hone => exact (habove _ List.mem_cons_self).1
    | distributed =>
      refine sumRule_stable fun e he a ha => ?_
      obtain ⟨x, hx, rfl⟩ := List.mem_map.mp he
      have hstable := (habove _ List.mem_cons_self).1.addends x hx
      exact (ofScaleParts_stable hstable _).1.addends a ha
    | number => exact stable_number _
    | factor hone => exact (habove e List.mem_cons_self).1
    | product hsum =>
      refine stable_product.mpr ⟨?_, fun e he => (habove e he).1, hbelow⟩
      refine { toNormalProduct := (normal_product.mp hnormal).1, nonempty := ?_, scaled := ?_ }
      · rintro ⟨rfl, rfl⟩
        cases hvalue
      · -- a single factor with the coefficient one would have been returned instead
        rintro e rfl rfl
        rw [← Bool.not_eq_true]
        intro hone
        have hsingle : (Fraction.assemble f.coefficient [e] []).value = e := by
          have hnot : ∀ as, e ≠ .sum as := fun as has => hsum as ⟨by rw [has], rfl⟩
          cases e with
          | sum as => exact (hnot as rfl).elim
          | _ => simp [Fraction.assemble, Fraction.collapse, hone]
        rw [hsingle] at hvalue
        have := (habove e List.mem_cons_self).2.1
        rw [hvalue] at this
        cases this

/-- An addend of a stable sum is put together again of what is scaled and its coefficient. -/
theorem ofScaleParts_scaleParts {e : Expr α} (h : StableAddend e) (hzero : e.isZero = false) :
    ofScaleParts e.scaleParts.1 e.scaleParts.2 = e := by
  obtain ⟨hstable, -⟩ := h
  fun_cases scaleParts e with
  | case1 v =>
    have hv : Scalar.eq v Scalar.zero = false := hzero
    have hunsign := Scalar.unsignZero_of_ne hv
    have hcoefficient : (Coefficient.ofScalar v).isZero = false := by
      rw [Coefficient.ofScalar_eq, Coefficient.isZero, hunsign]
      exact hv
    have hvalue : (Coefficient.ofScalar v).value = v := by
      rw [Coefficient.ofScalar_eq, Coefficient.value, hunsign, Scalar.Unital.div_one]
    change ofScaleParts (Coefficient.ofScalar v) one = _
    rw [ofScaleParts.eq_def, hcoefficient, isReal_one, hvalue, Expr.real, Number.literal, hunsign]
    rfl
  | case2 c x =>
    obtain ⟨shape, -⟩ := stable_product.mp hstable
    obtain ⟨hproduct, hliteral⟩ := shape.factors x List.mem_cons_self
    have hone : c.isOne = false := shape.scaled x rfl rfl
    have hreal : x.isReal Scalar.one = false := by
      rw [isReal, hliteral]
    change ofScaleParts c x = _
    rw [ofScaleParts.eq_def, shape.coefficient, hreal]
    cases x with
    | product c n d => cases hproduct
    | _ => simp [hone, scaled]
  | case3 c n d =>
    obtain ⟨shape, -⟩ := stable_product.mp hstable
    change ofScaleParts c (product .one n d) = _
    rw [ofScaleParts, shape.coefficient]
    rfl
  | case4 e hreal hsingle hproduct =>
    change ofScaleParts .one e = _
    have hone : (Coefficient.one : Coefficient α).isZero = false := Scalar.Unital.eq_one_zero
    have hisOne : (Coefficient.one : Coefficient α).isOne = true := by
      rw [Coefficient.isOne, Bool.and_eq_true]
      exact ⟨Scalar.Lawful.eq_one, Scalar.Lawful.eq_one⟩
    rw [ofScaleParts.eq_def, hone]
    cases e with
    | product c n d => exact (hproduct c n d rfl).elim
    | number v =>
      cases v with
      | real v => exact (hreal v rfl).elim
      | constant k => simp [isReal, real?, Number.real?, hisOne]
    | _ => simp [isReal, real?, hisOne]

end Unital

end SymbolicAlgebra.Reduction
