import SymbolicAlgebra.Proofs.Derivative.Ends
import SymbolicAlgebra.Proofs.Reduction.Hereditary

/-!
# Products of the rules of differentiation

The rules build their products part by part: by a coefficient, a factor or a divisor at a time. Here
every product that the derivative of an expression is made of is given by its parts, which are parts
of the expression, derivatives that are asked for and literals. So a property that is passed on by
all of them is one of the derivative too.
-/

namespace SymbolicAlgebra.Derivative

open SymbolicAlgebra.Expr SymbolicAlgebra.Reduction

variable {α : Type} [Scalar α]

/-- A part of a product in the making. -/
inductive Part (α : Type) where
  | coefficient (c : Coefficient α)
  | factor (e : Expr α)
  | divisor (e : Expr α)

namespace Term

/-- Takes a part into a product, unless that makes it vanish. -/
def add (t : Term α) : Part α → Option (Term α)
  | .coefficient c => t.scale c
  | .factor e => t.times e
  | .divisor e => some (t.divide e)

/-- Takes parts into a product, from the first to the last. -/
def build (t : Term α) (ps : List (Part α)) : Option (Term α) := ps.foldlM add t

/-- No parts change nothing. -/
@[simp] theorem build_nil (t : Term α) : t.build [] = some t := rfl

/-- The first part is taken in before the others. -/
@[simp] theorem build_cons (t : Term α) (p : Part α) (ps : List (Part α)) :
    t.build (p :: ps) = (t.add p).bind (·.build ps) := rfl

/-- Parts are taken in one list after the other. -/
@[simp] theorem build_append (t : Term α) (ps qs : List (Part α)) :
    t.build (ps ++ qs) = (t.build ps).bind (·.build qs) := List.foldlM_append

/-- The factors of a list are taken in as parts. -/
theorem timesAll_eq (t : Term α) (es : List (Expr α)) :
    t.timesAll es = t.build (es.map .factor) := by
  rw [build, List.foldlM_map]
  rfl

/-- The divisors of a list are taken in as parts. -/
theorem divideAll_eq (t : Term α) (es : List (Expr α)) :
    some (t.divideAll es) = t.build (es.map .divisor) := by
  induction es generalizing t with
  | nil => rfl
  | cons e es ih => exact ih (t.divide e)

end Term

/-- The product of parts. -/
def productOf (ps : List (Part α)) : Expr α := Term.toExpr (Term.unit.build ps)

namespace Quotient

/-- The parts that all terms of the derivative of a quotient begin with. -/
def fixedParts (q : Quotient α) : List (Part α) :=
  .coefficient q.coefficient :: q.fixedNumerator.map .factor ++ q.fixedDenominator.map .divisor

/-- The parts of the derivative of a reciprocal. -/
def reciprocalParts (q : Quotient α) (g : Pair α) : List (Part α) :=
  q.fixedParts ++
    [.coefficient .minusOne, .factor g.slope, .divisor (.power g.expr (.real (Scalar.ofInt 2)))]

/-- The parts of the terms that come from the factors above the line. -/
def upperParts (q : Quotient α) : List (List (Part α)) :=
  (replaceEach [] q.numerator).map fun factors =>
    q.fixedParts ++ factors.map .factor ++ (q.denominator.map Pair.expr).map .divisor

/-- The parts of the terms that come from the factors below the line. -/
def lowerParts (q : Quotient α) : List (List (Part α)) :=
  q.denominator.map fun h =>
    q.fixedParts ++ .coefficient .minusOne :: (q.numerator.map Pair.expr).map .factor ++
      .factor h.slope :: (q.denominator.map Pair.expr).map .divisor ++ [.divisor h.expr]

/-- The parts of all terms of the derivative of a quotient. -/
def products (q : Quotient α) : List (List (Part α)) :=
  match q.numerator, q.denominator with
  | [], [g] => [q.reciprocalParts g]
  | _, _ => q.upperParts ++ q.lowerParts

variable (q : Quotient α)

/-- The fixed part of a quotient is built of its parts. -/
theorem fixedPart_eq_build : q.fixedPart = Term.unit.build q.fixedParts := by
  simp [fixedPart, fixedParts, Term.add, Term.timesAll_eq, ← Term.divideAll_eq]

/-- The derivative of a reciprocal is the product of its parts. -/
theorem reciprocalSlope_eq_productOf (g : Pair α) :
    q.reciprocalSlope g = productOf (q.reciprocalParts g) := by
  simp [reciprocalSlope, reciprocalParts, productOf, fixedPart_eq_build, Term.add]

/-- The terms that come from the factors above the line are products of their parts. -/
theorem upperTerms_eq_map : q.upperTerms = q.upperParts.map productOf := by
  rw [upperTerms, upperParts, List.map_map]
  refine List.map_congr_left fun factors _ => ?_
  simp [-List.map_map, productOf, fixedPart_eq_build, Term.timesAll_eq, ← Term.divideAll_eq]

/-- The terms that come from the factors below the line are products of their parts. -/
theorem lowerTerms_eq_map : q.lowerTerms = q.lowerParts.map productOf := by
  rw [lowerTerms, lowerParts, List.map_map]
  refine List.map_congr_left fun h _ => ?_
  simp [-List.map_map, productOf, fixedPart_eq_build, Term.add, Term.timesAll_eq,
    ← Term.divideAll_eq]

end Quotient

/-- The parts of a function's derivative that come after the derivative of its body. -/
def trigParts (f : Trig) (body : Expr α) : List (Part α) :=
  match f with
  | .sin => [.factor (.trig .cos body)]
  | .cos => [.coefficient .minusOne, .factor (.trig .sin body)]
  | .tan => [.divisor (.power (.trig .cos body) (.real (Scalar.ofInt 2)))]

/-- The parts of all products that the rule for an expression builds. -/
def products (name : String) (e : Expr α) : List (List (Part α)) :=
  if e.dependsOn name then
    match e with
    | .product c n d => (Quotient.ofPairs name c (derivatives name n) (derivatives name d)).products
    | .power a b =>
      if !b.dependsOn name then
        [[.factor b, .factor (power a (decrement b)), .factor (a.derivative name)]]
      else if !a.dependsOn name then
        [[.factor (power a b), .factor (ln a), .factor (b.derivative name)]]
      else [[.factor (power a b), .factor ((b.times (ln a)).derivative name)]]
    | .log a b =>
      if a.dependsOn name then [] else [[.factor (b.derivative name), .divisor b, .divisor (ln a)]]
    | .trig f a => [.factor (a.derivative name) :: trigParts f a]
    | _ => []
  else []

/-- The derivative of an expression: a literal, a derivative that is asked for, the only product
that the rule builds, or a sum of such derivatives or products. -/
inductive Outcome (name : String) (e : Expr α) : Expr α → Prop
  | fixed : Outcome name e zero
  | own : Outcome name e one
  | derivative {callee : Expr α} : Calls name e callee → Outcome name e (callee.derivative name)
  | single {ps : List (Part α)} : ps ∈ products name e → Outcome name e (productOf ps)
  | addends {as : List (Expr α)} : (∀ a ∈ as, Calls name e a) →
    Outcome name e (sumOf (as.map (·.derivative name)))
  | terms : Outcome name e (sumOf ((products name e).map productOf))

/-- The slope of a quotient is its only product, or the sum of its products. -/
theorem slope_eq (q : Quotient α) :
    (∃ ps, q.products = [ps] ∧ q.slope = productOf ps) ∨
      q.slope = sumOf (q.products.map productOf) := by
  rw [Quotient.slope]
  split
  · rename_i g hn hd
    exact .inl ⟨q.reciprocalParts g, by rw [Quotient.products, hn, hd],
      q.reciprocalSlope_eq_productOf g⟩
  · rename_i hother
    have hproducts : q.products = q.upperParts ++ q.lowerParts := by
      rw [Quotient.products]
      split
      · exact (hother _ ‹_› ‹_›).elim
      · rfl
    rw [q.upperTerms_eq_map, q.lowerTerms_eq_map, ← List.map_append, hproducts]
    exact .inr rfl

/-- What differentiating an expression gives is one of these. -/
theorem outcome_derivative (name : String) (e : Expr α) : Outcome name e (e.derivative name) := by
  cases hdepends : e.dependsOn name with
  | false =>
    rw [derivative_of_not_dependsOn hdepends]
    exact .fixed
  | true =>
    have only (ps : List (Part α)) (h : products name e = [ps])
        (heq : e.derivative name = productOf ps) : Outcome name e (e.derivative name) := by
      rw [heq]
      exact .single (h ▸ List.mem_singleton_self ps)
    cases e with
    | sum as =>
      rw [Expr.derivative, if_pos hdepends, derivatives_eq_map, List.map_map]
      exact .addends fun a ha => .addend hdepends ha
    | product c n d =>
      have hproducts : products name (product c n d) =
          (Quotient.ofPairs name c (derivatives name n) (derivatives name d)).products :=
        if_pos hdepends
      have hderivative : (product c n d).derivative name =
        (Quotient.ofPairs name c (derivatives name n) (derivatives name d)).slope :=
        derivative_product hdepends
      obtain ⟨ps, hps, hslope⟩ | hslope :=
        slope_eq (Quotient.ofPairs name c (derivatives name n) (derivatives name d))
      · exact only ps (hproducts.trans hps) (hderivative.trans hslope)
      · rw [hderivative, hslope, ← hproducts]
        exact .terms
    | power a b =>
      cases hb : b.dependsOn name with
      | false =>
        refine only [.factor b, .factor (power a (decrement b)), .factor (a.derivative name)] ?_ ?_
        · simp [products, hdepends, hb]
        · simp only [Expr.derivative, if_pos hdepends, powerSlope, hb]
          rfl
      | true =>
        cases ha : a.dependsOn name with
        | false =>
          refine only [.factor (power a b), .factor (ln a), .factor (b.derivative name)] ?_ ?_
          · simp [products, hdepends, hb, ha]
          · simp only [Expr.derivative, if_pos hdepends, powerSlope, hb, ha]
            rfl
        | true =>
          refine only [.factor (power a b), .factor ((b.times (ln a)).derivative name)] ?_ ?_
          · simp [products, hdepends, hb, ha]
          · rw [derivative_times_ln a b hb]
            simp only [Expr.derivative, if_pos hdepends, powerSlope, hb, ha]
            rfl
    | log a b =>
      cases ha : a.dependsOn name with
      | false =>
        refine only [.factor (b.derivative name), .divisor b, .divisor (ln a)] ?_ ?_
        · simp [products, hdepends, ha]
        · simp only [Expr.derivative, if_pos hdepends, anyLogSlope, ha]
          rfl
      | true =>
        have heq : (log a b).derivative name = ((ln b).dividedBy (ln a)).derivative name := by
          rw [derivative_ln_dividedBy_ln a b ha, Expr.derivative, if_pos hdepends, anyLogSlope,
            if_pos ha]
        rw [heq]
        exact .derivative (.quotient hdepends ha)
    | trig f a =>
      refine only (.factor (a.derivative name) :: trigParts f a) (by simp [products, hdepends]) ?_
      rw [Expr.derivative, if_pos hdepends, trigSlope, productOf, Term.build_cons, Term.add]
      congr 1
      cases f <;> simp [trigParts, Term.add]
    | var x =>
      rw [Expr.derivative, if_pos hdepends]
      split
      · exact .own
      · exact .fixed
    | number v => cases hdepends

section Kept

variable {C : Coefficient α → Prop} {K : Expr α → Prop}

/-- A hereditary property that Euler's number has, and every product whose coefficient and factors
do. -/
structure Inherited (C : Coefficient α → Prop) (K : Expr α → Prop) : Prop
    extends Hereditary C K where
  euler : K (.constant .e)
  allProducts {c : Coefficient α} {n d : List (Expr α)} :
    C c → (∀ x ∈ n, K x) → (∀ x ∈ d, K x) → K (.product c n d)

/-- The coefficient or the expression that a part consists of has its property. -/
def Part.Has (C : Coefficient α → Prop) (K : Expr α → Prop) : Part α → Prop
  | .coefficient c => C c
  | .factor e => K e
  | .divisor e => K e

/-- The coefficient and the factors of a product in the making have their properties. -/
structure Term.Has (C : Coefficient α → Prop) (K : Expr α → Prop) (t : Term α) : Prop where
  coefficient : C t.coefficient
  numerator : ∀ e ∈ t.numerator, K e
  denominator : ∀ e ∈ t.denominator, K e

/-- The coefficient and the factors of a quotient have their properties, and the slopes of its
factors. -/
structure Quotient.Has (C : Coefficient α → Prop) (K : Expr α → Prop) (q : Quotient α) : Prop where
  coefficient : C q.coefficient
  fixedNumerator : ∀ e ∈ q.fixedNumerator, K e
  fixedDenominator : ∀ e ∈ q.fixedDenominator, K e
  numerator : ∀ p ∈ q.numerator, K p.expr ∧ K p.slope
  denominator : ∀ p ∈ q.denominator, K p.expr ∧ K p.slope

omit [Scalar α] in
/-- The factors of which one is replaced by its slope are expressions or slopes. -/
theorem forall_replaceEach {before : List (Expr α)} {ps : List (Pair α)}
    (hbefore : ∀ e ∈ before, K e) (hps : ∀ q ∈ ps, K q.expr ∧ K q.slope) :
    ∀ factors ∈ replaceEach before ps, ∀ e ∈ factors, K e := by
  induction ps generalizing before with
  | nil => exact nofun
  | cons q ps ih =>
    rw [List.forall_mem_cons] at hps
    rw [replaceEach, List.forall_mem_cons]
    constructor
    · rw [List.forall_mem_append, List.forall_mem_cons, List.forall_mem_map]
      exact ⟨hbefore, hps.1.2, fun q hq => (hps.2 q hq).1⟩
    · refine ih ?_ hps.2
      rw [List.forall_mem_append, List.forall_mem_singleton]
      exact ⟨hbefore, hps.1.1⟩

namespace Inherited

variable (hK : Inherited C K)

include hK

/-- A product in the making keeps the property with every part. -/
theorem add {t t' : Term α} (ht : t.Has C K) {p : Part α} (hp : p.Has C K) (h : t.add p = some t') :
    t'.Has C K := by
  cases p with
  | coefficient c =>
    rw [Term.add, Term.scale] at h
    split at h
    · cases h
    · cases h
      exact ⟨hK.arithmetic.mul ht.coefficient hp, ht.numerator, ht.denominator⟩
  | factor e =>
    rw [Term.add] at h
    unfold Term.times at h
    split at h
    · cases h
    · split at h
      · cases h
        exact ⟨hK.arithmetic.mul ht.coefficient (hK.arithmetic.ofScalar _), ht.numerator,
          ht.denominator⟩
      · cases h
        refine ⟨ht.coefficient, ?_, ht.denominator⟩
        exact List.forall_mem_append.mpr ⟨ht.numerator, List.forall_mem_singleton.mpr hp⟩
  | divisor e =>
    cases h
    rw [Term.divide]
    split
    · exact ht
    · refine ⟨ht.coefficient, ht.numerator, ?_⟩
      exact List.forall_mem_append.mpr ⟨ht.denominator, List.forall_mem_singleton.mpr hp⟩

/-- A product in the making keeps the property with all parts. -/
theorem build {t t' : Term α} (ht : t.Has C K) {ps : List (Part α)} (hps : ∀ p ∈ ps, p.Has C K)
    (h : t.build ps = some t') : t'.Has C K := by
  induction ps generalizing t with
  | nil =>
    cases h
    exact ht
  | cons p ps ih =>
    rw [List.forall_mem_cons] at hps
    obtain ⟨next, hadd, hrest⟩ := Option.bind_eq_some_iff.mp h
    exact ih (hK.add ht hps.1 hadd) hps.2 hrest

/-- The product without factors has the property. -/
theorem unit : (Term.unit : Term α).Has C K :=
  ⟨hK.arithmetic.one, by simp [Term.unit], by simp [Term.unit]⟩

/-- The product of parts with the property has it. -/
theorem productOf {ps : List (Part α)} (hps : ∀ p ∈ ps, p.Has C K) : K (productOf ps) := by
  have hbuilt : ∀ t, Term.unit.build ps = some t → t.Has C K := fun t h => hK.build hK.unit hps h
  rw [Derivative.productOf]
  generalize Term.unit.build ps = t at hbuilt
  fun_cases Term.toExpr t with
  | case1 => exact hK.real _
  | case2 c => exact hK.real _
  | case3 c e => exact (hbuilt _ rfl).numerator e List.mem_cons_self
  | case4 c e =>
    obtain ⟨hc, hn, hd⟩ := hbuilt _ rfl
    exact hK.allProducts hc hn hd
  | case5 c n d =>
    obtain ⟨hc, hn, hd⟩ := hbuilt _ rfl
    exact hK.allProducts hc hn hd

/-- The sum of what is not zero of expressions with the property has it. -/
theorem sumOf {addends : List (Expr α)} (h : ∀ e ∈ addends, K e) : K (sumOf addends) := by
  have hkept : ∀ e ∈ addends.filter (!·.isZero), K e := fun e he => h e (List.mem_of_mem_filter he)
  rw [Derivative.sumOf]
  generalize addends.filter (!·.isZero) = kept at hkept
  split
  · exact hK.real _
  · exact hkept _ List.mem_cons_self
  · exact hK.sum.mpr hkept

/-- The natural logarithm of an expression with the property has it. -/
theorem ln {body : Expr α} (h : K body) : K (ln body) := hK.log.mpr ⟨hK.euler, h⟩

/-- An exponent with the property, less one, has it. -/
theorem decrement {exponent : Expr α} (h : K exponent) : K (decrement exponent) := by
  rw [Derivative.decrement]
  split
  · exact hK.real _
  · exact hK.sum.mpr (List.forall_mem_append.mpr ⟨hK.addends h, hK.addends (hK.real _)⟩)

/-- What a derivative is asked for has the property if the expression has it. -/
theorem callee {name : String} {e callee : Expr α} (h : Calls name e callee) (he : K e) :
    K callee := by
  cases h with
  | addend _ ha => exact hK.sum.mp he _ ha
  | factor _ ha _ => exact List.forall_mem_append.mpr (hK.factors he) _ ha
  | base _ _ => exact (hK.power.mp he).1
  | exponent _ _ _ => exact (hK.power.mp he).2
  | logarithmic _ _ _ =>
    obtain ⟨hbase, hexponent⟩ := hK.power.mp he
    refine hK.allProducts hK.arithmetic.one ?_ nofun
    exact List.forall_mem_cons.mpr ⟨hexponent, List.forall_mem_singleton.mpr (hK.ln hbase)⟩
  | body _ _ => exact (hK.log.mp he).2
  | quotient _ _ =>
    obtain ⟨hbase, hbody⟩ := hK.log.mp he
    exact hK.allProducts hK.arithmetic.one (List.forall_mem_singleton.mpr (hK.ln hbody))
      (List.forall_mem_singleton.mpr (hK.ln hbase))
  | argument _ => exact hK.trig.mp he

/-- The parts of the products of a quotient whose factors have the property, and their slopes, have
it. -/
theorem quotient {q : Quotient α} (hq : q.Has C K) : ∀ ps ∈ q.products, ∀ p ∈ ps, p.Has C K := by
  have factors {es : List (Expr α)} (h : ∀ e ∈ es, K e) : ∀ p ∈ es.map Part.factor, p.Has C K :=
    List.forall_mem_map.mpr h
  have divisors {es : List (Expr α)} (h : ∀ e ∈ es, K e) : ∀ p ∈ es.map Part.divisor, p.Has C K :=
    List.forall_mem_map.mpr h
  have hfixed : ∀ p ∈ q.fixedParts, p.Has C K := by
    rw [Quotient.fixedParts, List.forall_mem_append, List.forall_mem_cons]
    exact ⟨⟨hq.coefficient, factors hq.fixedNumerator⟩, divisors hq.fixedDenominator⟩
  have hbelow : ∀ p ∈ (q.denominator.map Pair.expr).map Part.divisor, p.Has C K :=
    divisors (List.forall_mem_map.mpr fun g hg => (hq.denominator g hg).1)
  rw [Quotient.products]
  split
  · rename_i g _ hd
    obtain ⟨hexpr, hslope⟩ := hq.denominator g (hd ▸ List.mem_singleton_self g)
    rw [List.forall_mem_singleton, Quotient.reciprocalParts, List.forall_mem_append]
    simp only [List.forall_mem_cons]
    exact ⟨hfixed, hK.arithmetic.minusOne, hslope, hK.power.mpr ⟨hexpr, hK.real _⟩, nofun⟩
  · rw [List.forall_mem_append, Quotient.upperParts, List.forall_mem_map, Quotient.lowerParts,
      List.forall_mem_map]
    constructor
    · intro fs hfs
      have hfactors := forall_replaceEach (List.forall_mem_nil _) hq.numerator fs hfs
      rw [List.forall_mem_append, List.forall_mem_append]
      exact ⟨⟨hfixed, factors hfactors⟩, hbelow⟩
    · intro g hg
      obtain ⟨hexpr, hslope⟩ := hq.denominator g hg
      have habove : ∀ p ∈ (q.numerator.map Pair.expr).map Part.factor, p.Has C K :=
        factors (List.forall_mem_map.mpr fun f hf => (hq.numerator f hf).1)
      simp only [List.forall_mem_append, List.forall_mem_cons]
      exact ⟨⟨⟨hfixed, hK.arithmetic.minusOne, habove⟩, hslope, hbelow⟩, hexpr, nofun⟩

/-- The parts of a function's derivative have the property if its body has it. -/
theorem trigParts (f : Trig) {body : Expr α} (h : K body) : ∀ p ∈ trigParts f body, p.Has C K := by
  have htrig (g : Trig) : K (.trig g body) := hK.trig.mpr h
  cases f with
  | sin => exact List.forall_mem_singleton.mpr (htrig .cos)
  | cos =>
    exact List.forall_mem_cons.mpr
      ⟨hK.arithmetic.minusOne, List.forall_mem_singleton.mpr (htrig .sin)⟩
  | tan => exact List.forall_mem_singleton.mpr (hK.power.mpr ⟨htrig .cos, hK.real _⟩)

/-- The parts of the products that the rule for an expression builds have the property if the
expression has it, and what is asked for. -/
theorem parts {name : String} {e : Expr α} (he : K e)
    (hcalls : ∀ callee, Calls name e callee → K (callee.derivative name)) :
    ∀ ps ∈ products name e, ∀ p ∈ ps, p.Has C K := by
  rw [products.eq_def]
  split
  · rename_i hdepends
    split
    · rename_i c n d
      obtain ⟨hn, hd⟩ := hK.factors he
      have hpair : ∀ p ∈ (n ++ d).filter (·.dependsOn name), K p ∧ K (p.derivative name) := by
        intro p hp
        obtain ⟨hmem, hp⟩ := List.mem_filter.mp hp
        exact ⟨List.forall_mem_append.mpr ⟨hn, hd⟩ p hmem, hcalls p (.factor hdepends hmem hp)⟩
      rw [List.filter_append, List.forall_mem_append] at hpair
      rw [ofPairs_derivatives, derivatives_eq_map, derivatives_eq_map]
      exact hK.quotient ⟨hK.coefficient he, fun e he => hn e (List.mem_of_mem_filter he),
        fun e he => hd e (List.mem_of_mem_filter he), List.forall_mem_map.mpr hpair.1,
        List.forall_mem_map.mpr hpair.2⟩
    · rename_i a b
      obtain ⟨ha, hb⟩ := hK.power.mp he
      split
      · rename_i hfixed
        simp only [List.forall_mem_cons]
        exact ⟨⟨hb, hK.power.mpr ⟨ha, hK.decrement hb⟩,
          hcalls a (.base hdepends (by simpa using hfixed)), nofun⟩, nofun⟩
      · rename_i hexponent
        replace hexponent : b.dependsOn name = true := by simpa using hexponent
        split
        · rename_i hfixed
          simp only [List.forall_mem_cons]
          exact ⟨⟨he, hK.ln ha, hcalls b (.exponent hdepends hexponent (by simpa using hfixed)),
            nofun⟩, nofun⟩
        · rename_i hbase
          simp only [List.forall_mem_cons]
          exact ⟨⟨he, hcalls _ (.logarithmic hdepends hexponent (by simpa using hbase)), nofun⟩,
            nofun⟩
    · rename_i a b
      obtain ⟨ha, hb⟩ := hK.log.mp he
      split
      · exact nofun
      · rename_i hfixed
        simp only [List.forall_mem_cons]
        exact ⟨⟨hcalls b (.body hdepends (by simpa using hfixed)), hb, hK.ln ha, nofun⟩, nofun⟩
    · rename_i f a
      rw [List.forall_mem_singleton, List.forall_mem_cons]
      exact ⟨hcalls a (.argument hdepends), hK.trigParts f (hK.trig.mp he)⟩
    · exact nofun
  · exact nofun

/-- The derivative of an expression with the property has it. -/
theorem derivative (name : String) {e : Expr α} (he : K e) : K (e.derivative name) := by
  induction wellFounded_calls name |>.apply e with
  | intro e _ ih =>
    have hcalls (callee : Expr α) (h : Calls name e callee) : K (callee.derivative name) :=
      ih callee h (hK.callee h he)
    have hparts := hK.parts he hcalls
    have outcome := outcome_derivative name e
    generalize e.derivative name = slope at outcome
    cases outcome with
    | fixed => exact hK.real _
    | own => exact hK.real _
    | derivative h => exact hcalls _ h
    | single hps => exact hK.productOf (hparts _ hps)
    | addends has => exact hK.sumOf (List.forall_mem_map.mpr fun a ha => hcalls a (has a ha))
    | terms => exact hK.sumOf (List.forall_mem_map.mpr fun ps hps => hK.productOf (hparts ps hps))

end Inherited

end Kept

end SymbolicAlgebra.Derivative
