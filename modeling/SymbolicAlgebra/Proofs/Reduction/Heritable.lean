import SymbolicAlgebra.Proofs.Reduction.Operations

/-!
# Properties that are passed on

Properties that expressions share with their parts and that are put together again from them and from
coefficients with a property. Exponents and the arguments of functions have the property too if it goes deep;
otherwise only the factors, the addends and the bases do. The single rules keep such a property as long as
each operation with numbers that they consist of keeps it.
-/

namespace SymbolicAlgebra.Reduction

open SymbolicAlgebra.Expr

variable {α : Type} [Scalar α]

/-- A property of coefficients and one of expressions, which is inherited by factors, addends and bases and
passed on by them; of products only those need it whose factors are no products. Exponents and arguments of
functions take part if it goes deep, and only then the opposites of exponents need it, and the zeros and
whole exponents that the rules put in. -/
structure Heritable (deep : Prop) (C : Coefficient α → Prop) (K : Expr α → Prop) : Prop where
  one : C .one
  real_one : K .one
  ofScalar {v : α} : K (.number (.real v)) → C (.ofScalar v)
  value {c : Coefficient α} : C c → K (.real c.value)
  zero_of_coefficient {c : Coefficient α} : C c → c.isZero = true → K .zero
  zero_of_real {v : α} : K (.number (.real v)) → Scalar.eq v Scalar.zero = true → K .zero
  sum {as : List (Expr α)} : K (.sum as) ↔ ∀ a ∈ as, K a
  coefficient {c : Coefficient α} {n d : List (Expr α)} : K (.product c n d) → C c
  factors {c : Coefficient α} {n d : List (Expr α)} :
    K (.product c n d) → (∀ x ∈ n, K x) ∧ ∀ x ∈ d, K x
  product {c : Coefficient α} {n d : List (Expr α)} : C c →
    (∀ x ∈ n, K x ∧ x.isProduct = false) → (∀ x ∈ d, K x ∧ x.isProduct = false) →
    K (.product c n d)
  rescale {c c' : Coefficient α} {n d : List (Expr α)} :
    C c' → K (.product c n d) → K (.product c' n d)
  power {base exponent : Expr α} : K (.power base exponent) ↔ K base ∧ (deep → K exponent)
  log {base body : Expr α} : deep → (K (.log base body) ↔ K base ∧ K body)
  trig {f : Trig} {body : Expr α} : deep → (K (.trig f body) ↔ K body)
  neg {c : Coefficient α} : deep → C c → C (-c)
  neg_real {v : α} : deep → K (.number (.real v)) → K (.real (-v))
  minusOne : deep → C .minusOne ∧ K (.real (Scalar.ofInt (-1)))
  zero : deep → K .zero
  whole {exponent : Expr α} {k : Int} : deep → wholeExponent? exponent = some k →
    K (.real (Scalar.ofInt k))

/-- A sum whose addends have a property has it if the sum of its literals has, and where nothing is left of
it zero has. -/
theorem kept_sumRule {K : Expr α → Prop} (hsum : ∀ as : List (Expr α), K (.sum as) ↔ ∀ a ∈ as, K a)
    {es : List (Expr α)} (h : ∀ e ∈ es, K e)
    (htotal : let v := total ((es.flatMap Expr.addends).filterMap Expr.real?)
      Scalar.eq v Scalar.zero = false → K (.real v))
    (hempty : (sumRule es).value = .zero → K .zero) : K (sumRule es).value := by
  have hflat : ∀ a ∈ es.flatMap Expr.addends, K a := by
    intro a ha
    obtain ⟨e, he, ha⟩ := List.mem_flatMap.mp ha
    have hK := h e he
    cases e with
    | sum as => exact (hsum as).mp hK a ha
    | _ => exact List.mem_singleton.mp ha ▸ hK
  have hterms : ∀ a ∈ sort (sumTerms (es.flatMap Expr.addends)), K a := by
    intro a ha
    obtain ha | ⟨rfl, hconstant⟩ := mem_keptAddends_or_total ((sort_perm _).mem_iff.mp ha)
    · exact hflat a (mem_keptAddends.mp ha).1
    · exact htotal hconstant
  rw [sumRule_value] at hempty ⊢
  generalize sort (sumTerms (es.flatMap Expr.addends)) = terms at hterms hempty
  fun_cases collapseSum terms with
  | case1 => exact hempty rfl
  | case2 e => exact hterms e List.mem_cons_self
  | case3 => exact (hsum _).mpr hterms

namespace Heritable

variable {deep : Prop} {C : Coefficient α → Prop} {K : Expr α → Prop}

/-- A single factor that is no product may be scaled. -/
theorem scaled (hK : Heritable deep C K) {c : Coefficient α} (hc : C c) {e : Expr α} (he : K e)
    (h : e.isProduct = false) : K (.product c [e] []) :=
  hK.product hc (List.forall_mem_singleton.mpr ⟨he, h⟩) (by simp)

mutual

/-- The opposite of an expression has a property that goes deep. -/
theorem neg_expr (hK : Heritable deep C K) (hdeep : deep) (e : Expr α) (he : K e) : K e.neg := by
  cases e with
  | sum as =>
    rw [Expr.neg, negList_eq_map, hK.sum, List.forall_mem_map]
    exact neg_of_mem hK hdeep as (hK.sum.mp he)
  | product c n d => exact hK.rescale (hK.neg hdeep (hK.coefficient he)) he
  | number v =>
    cases v with
    | real v => exact hK.neg_real hdeep he
    | constant c => exact hK.scaled (hK.minusOne hdeep).1 he rfl
  | _ => exact hK.scaled (hK.minusOne hdeep).1 he rfl

/-- The opposites of a list's members have a property that goes deep. -/
theorem neg_of_mem (hK : Heritable deep C K) (hdeep : deep) (es : List (Expr α))
    (hes : ∀ e ∈ es, K e) : ∀ e ∈ es, K e.neg := by
  cases es with
  | nil => simp
  | cons e es =>
    rw [List.forall_mem_cons] at hes ⊢
    exact ⟨neg_expr hK hdeep e hes.1, neg_of_mem hK hdeep es hes.2⟩

end

/-- The base that an expression is taken for has the property, and the exponent if it goes deep. -/
theorem powerParts (hK : Heritable deep C K) (e : Expr α) (he : K e) :
    K e.powerParts.1 ∧ (deep → K e.powerParts.2) := by
  cases e with
  | power base exponent => exact hK.power.mp he
  | _ => exact ⟨he, fun _ => hK.real_one⟩

/-- The coefficient of an expression and what it scales have their properties. -/
theorem scaleParts (hK : Heritable deep C K) {e : Expr α} (he : K e) :
    C e.scaleParts.1 ∧ K e.scaleParts.2 := by
  fun_cases Expr.scaleParts e with
  | case1 v => exact ⟨hK.ofScalar he, hK.real_one⟩
  | case2 c e => exact ⟨hK.coefficient he, (hK.factors he).1 e List.mem_cons_self⟩
  | case3 c n d => exact ⟨hK.coefficient he, hK.rescale hK.one he⟩
  | case4 => exact ⟨hK.one, he⟩

/-- What is scaled by a coefficient has the property. -/
theorem ofScaleParts (hK : Heritable deep C K) {c : Coefficient α} (hc : C c) {key : Expr α}
    (h : K key) : K (ofScaleParts c key) := by
  fun_cases Expr.ofScaleParts c key with
  | case1 => exact hK.zero_of_coefficient hc ‹_›
  | case2 => exact hK.value hc
  | case3 => exact hK.rescale hc h
  | case4 => exact h
  | case5 _ hone hproduct =>
    refine hK.scaled hc h ?_
    cases key with
    | product k n d => exact (hproduct k n d rfl).elim
    | _ => rfl

/-- Functions of expressions have a property that goes deep. -/
theorem trigRule (hK : Heritable deep C K) (hdeep : deep) {f : Trig} {body : Expr α} (hbody : K body) :
    K (trigRule f body).value := by
  have outcome := trigOutcome f body
  generalize (Reduction.trigRule f body).value = e at outcome
  cases outcome with
  | zero _ => cases f <;> first | exact hK.zero hdeep | exact hK.real_one
  | pi _ => cases f <;> first | exact hK.zero hdeep | exact (hK.minusOne hdeep).2
  | stays => exact (hK.trig hdeep).mpr hbody

/-- A product in the making whose coefficient and factors have their properties. If a zero was put below
its line then zero has the property. -/
structure Made (C : Coefficient α → Prop) (K : Expr α → Prop) (f : Fraction α) : Prop where
  coefficient : C f.coefficient
  zero : f.zeroDivisor = true → K .zero
  factors : f.Has K

/-- Scaling keeps a product in the making if its operation keeps the properties. -/
theorem Made.scale {side : Side} {f : Fraction α} {c : Coefficient α} (hf : Made C K f) (hc : C c)
    (hdivisor : side = .below → Divisor c) (hop : (f.scaling side c).Keeps deep C K) :
    Made C K (f.scale side c) := by
  refine ⟨?_, ?_, hf.factors.scale side c⟩
  · cases side with
    | above => exact hop hf.coefficient hc
    | below => exact hop (hdivisor rfl) hf.coefficient hc
  · cases side <;> exact hf.zero

/-- A factor that is neither a literal nor a product is put in its place. -/
theorem Made.place {side : Side} {f : Fraction α} {e : Expr α} (hf : Made C K f) (he : e.Factor K) :
    Made C K (f.place side e) := by
  refine ⟨?_, ?_, hf.factors.place side he⟩ <;> cases side
  · exact hf.coefficient
  · exact hf.coefficient
  · exact hf.zero
  · exact hf.zero

mutual

/-- Multiplying by an expression, or dividing by it, keeps a product in the making if the operations keep the
properties. -/
theorem absorb (hK : Heritable deep C K) (side : Side) {f : Fraction α}
    (hf : Made C K f) (e : Expr α) (he : K e) (hops : ∀ op ∈ Fraction.scalings side f e, op.Keeps deep C K) :
    Made C K (Fraction.absorb side f e).value := by
  cases e with
  | number v =>
    cases v with
    | real v =>
      rw [Fraction.scalings] at hops
      rw [Fraction.absorb]
      split
      · rename_i hzero
        refine ⟨hf.coefficient, fun _ => hK.zero_of_real he ?_, hf.factors⟩
        exact (Bool.and_eq_true_iff.mp hzero).2
      · rename_i hzero
        rw [if_neg hzero, List.forall_mem_singleton] at hops
        exact hf.scale (hK.ofScalar he) (by rintro rfl; exact .inr ⟨v, by simpa using hzero, rfl⟩) hops
    | constant c => exact hf.place ⟨he, rfl, rfl⟩
  | product c n d =>
    obtain ⟨above, below⟩ := hK.factors he
    rw [Fraction.scalings] at hops
    rw [Fraction.absorb]
    split
    · rename_i hzero
      refine ⟨hf.coefficient, fun _ => hK.zero_of_coefficient (hK.coefficient he) ?_, hf.factors⟩
      exact (Bool.and_eq_true_iff.mp hzero).2
    · rename_i hzero
      rw [if_neg hzero, List.forall_mem_cons, List.forall_mem_append] at hops
      obtain ⟨hscaling, habove, hbelow⟩ := hops
      have hscaled : Made C K (f.scale side c) :=
        hf.scale (hK.coefficient he) (by rintro rfl; exact .inl (by simpa using hzero)) hscaling
      exact absorbAll hK side.flip (absorbAll hK side hscaled n above habove) d below hbelow
  | sum as => exact hf.place ⟨he, rfl, rfl⟩
  | power base exponent => exact hf.place ⟨he, rfl, rfl⟩
  | log base body => exact hf.place ⟨he, rfl, rfl⟩
  | trig function body => exact hf.place ⟨he, rfl, rfl⟩
  | var name => exact hf.place ⟨he, rfl, rfl⟩

/-- Multiplying by expressions, or dividing by them, keeps a product in the making if the operations keep the
properties. -/
theorem absorbAll (hK : Heritable deep C K) (side : Side) {f : Fraction α}
    (hf : Made C K f) (es : List (Expr α)) (hes : ∀ e ∈ es, K e)
    (hops : ∀ op ∈ Fraction.scalingsAll side f es, op.Keeps deep C K) :
    Made C K (Fraction.absorbAll side f es).value := by
  cases es with
  | nil => exact hf
  | cons e es =>
    rw [List.forall_mem_cons] at hes
    rw [Fraction.scalingsAll, List.forall_mem_append] at hops
    exact absorbAll hK side (absorb hK side hf e hes.1 hops.1) es hes.2 hops.2

end

/-- Taking a common base away keeps a product in the making; its base has the property, and its exponents have
it if it goes deep. -/
theorem without (hK : Heritable deep C K) {f : Fraction α} (hf : Made C K f)
    {common : Fraction.Common α} (h : Fraction.common? f.denominator f.numerator = some common) :
    Made C K (f.without common) ∧ K common.base ∧ (deep → K common.upper) ∧ (deep → K common.lower) := by
  obtain ⟨rest, hparts⟩ := hf.factors.without (B := K) (X := fun e => deep → K e) hK.powerParts h
  exact ⟨⟨hf.coefficient, hf.zero, rest⟩, hparts⟩

/-- Taking a common base away and multiplying by a power of it, or dividing by one, keeps a product in the
making if the operations for it keep the properties. -/
theorem restore (hK : Heritable deep C K) (side : Side) {f : Fraction α} (hf : Made C K f)
    {common : Fraction.Common α} (h : Fraction.common? f.denominator f.numerator = some common)
    {factor : Expr α} (hfactor : K common.base → (deep → K common.upper) → (deep → K common.lower) → K factor)
    (hops : ∀ op ∈ Fraction.scalings side (f.without common) factor, op.Keeps deep C K) :
    Made C K (Fraction.absorb side (f.without common) factor).value := by
  obtain ⟨rest, hbase, hupper, hlower⟩ := hK.without hf h
  exact hK.absorb side rest factor (hfactor hbase hupper hlower) hops

/-- A product in the making whose factors have the property results in one that has it, if multiplying its
coefficient into a sum keeps it. -/
theorem finish (hK : Heritable deep C K) {f : Fraction α} (hf : Made C K f)
    (hops : f.coefficient.isZero = false → f.coefficient.isOne = false →
      ∀ op ∈ f.distributions, op.Keeps deep C K) : K f.finish.value := by
  cases hc : f.coefficient.isZero with
  | true =>
    rw [Fraction.finish, if_pos hc]
    exact hK.zero_of_coefficient hf.coefficient hc
  | false =>
    rw [Fraction.finish_eq hc]
    have habove : ∀ e ∈ sort f.numerator, K e ∧ e.isProduct = false :=
      fun e he => (hf.factors.1 e ((sort_perm _).mem_iff.mp he)).imp_right And.left
    have hbelow : ∀ e ∈ sort f.divisors, K e ∧ e.isProduct = false := by
      intro e he
      replace he := (sort_perm _).mem_iff.mp he
      rw [Fraction.divisors] at he
      split at he
      · rename_i hzero
        exact List.mem_singleton.mp he ▸ ⟨hf.zero hzero, rfl⟩
      · exact (hf.factors.2 e he).imp_right And.left
    replace hops := hops hc
    rw [Fraction.distributions] at hops
    generalize sort f.numerator = n at habove hops
    generalize sort f.divisors = d at hbelow hops
    fun_cases Fraction.assemble f.coefficient n d with
    | case1 addends hone => exact (habove _ List.mem_cons_self).1
    | case2 addends hone =>
      have hdistributed := hops (Bool.eq_false_iff.mpr hone)
      rw [List.forall_mem_cons, List.forall_mem_map] at hdistributed
      refine hdistributed.1 fun e he => ?_
      obtain ⟨a, ha, rfl⟩ := List.mem_map.mp he
      obtain ⟨hpart, hkey⟩ := hK.scaleParts (hK.sum.mp (habove _ List.mem_cons_self).1 a ha)
      exact hK.ofScaleParts (hdistributed.2 a ha hf.coefficient hpart) hkey
    | case3 n d hsum =>
      rw [Traced.pure_value]
      fun_cases Fraction.collapse f.coefficient n d with
      | case1 => exact hK.value hf.coefficient
      | case2 e hone => exact (habove e List.mem_cons_self).1
      | case3 e hone => exact hK.product hf.coefficient habove hbelow
      | case4 n d => exact hK.product hf.coefficient habove hbelow

/-- A term that is added to others has the property of them as long as the addition keeps it. -/
theorem addTerm {c : Coefficient α} {key : Expr α} (hc : C c) (hkey : K key)
    {terms : List (Coefficient α × Expr α)} (hterms : ∀ term ∈ terms, C term.1 ∧ K term.2)
    (hops : ∀ op ∈ termAdditions c key terms, op.Keeps deep C K) :
    ∀ term ∈ addTerm c key terms, C term.1 ∧ K term.2 := by
  induction terms with
  | nil => simpa [Reduction.addTerm] using ⟨hc, hkey⟩
  | cons term terms ih =>
    rw [List.forall_mem_cons] at hterms
    rw [termAdditions] at hops
    rw [Reduction.addTerm]
    split
    · rename_i hsame
      rw [if_pos hsame, List.forall_mem_singleton] at hops
      rw [List.forall_mem_cons]
      exact ⟨⟨hops hterms.1.1 hc, hterms.1.2⟩, hterms.2⟩
    · rename_i hother
      rw [if_neg hother] at hops
      rw [List.forall_mem_cons]
      exact ⟨hterms.1, ih hterms.2 hops⟩

/-- Addends with the property are added to terms that have it as long as adding coefficients keeps it. -/
theorem foldl_addTerm (hK : Heritable deep C K) {as : List (Expr α)} (h : ∀ a ∈ as, K a)
    {terms : List (Coefficient α × Expr α)} (hterms : ∀ term ∈ terms, C term.1 ∧ K term.2)
    (hops : ∀ op ∈ additions terms as, op.Keeps deep C K) :
    ∀ term ∈ as.foldl (fun terms e => Reduction.addTerm e.scaleParts.1 e.scaleParts.2 terms) terms,
      C term.1 ∧ K term.2 := by
  induction as generalizing terms with
  | nil => exact hterms
  | cons e as ih =>
    rw [List.forall_mem_cons] at h
    rw [additions, List.forall_mem_append] at hops
    obtain ⟨hc, hkey⟩ := hK.scaleParts h.1
    exact ih h.2 (addTerm hc hkey hterms hops.1) hops.2

/-- The terms of addends with the property have it as long as adding coefficients keeps it. -/
theorem likeTerms (hK : Heritable deep C K) {as : List (Expr α)} (h : ∀ a ∈ as, K a)
    (hops : ∀ op ∈ additions [] as, op.Keeps deep C K) :
    ∀ term ∈ likeTerms as, C term.1 ∧ K term.2 :=
  hK.foldl_addTerm h (by simp) hops

end Heritable

end SymbolicAlgebra.Reduction
