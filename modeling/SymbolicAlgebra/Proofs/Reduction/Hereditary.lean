import SymbolicAlgebra.Proofs.Reduction.Heritable

/-!
# Hereditary properties

Properties that literals have, that expressions share with all of their parts and that are put together
again from them and from coefficients with a property that arithmetic keeps. The rules keep every such
property whatever numbers they compute with, since no operation with numbers breaks it.
-/

namespace SymbolicAlgebra.Reduction

open SymbolicAlgebra.Expr

variable {α : Type} [Scalar α]

/-- A property of coefficients that their arithmetic keeps: nothing is divided by zero, and only powers
to exponents that are not negative are taken. -/
structure Arithmetic (C : Coefficient α → Prop) : Prop where
  one : C .one
  minusOne : C .minusOne
  ofScalar (v : α) : C (.ofScalar v)
  neg {a : Coefficient α} : C a → C (-a)
  add {a b : Coefficient α} : C a → C b → C (a + b)
  mul {a b : Coefficient α} : C a → C b → C (a * b)
  div {a b : Coefficient α} : C a → C b → b.isZero = false → C (a / b)
  divScalar {a : Coefficient α} {v : α} : C a → Scalar.eq v Scalar.zero = false → C (a / .ofScalar v)
  zpow {a : Coefficient α} {exponent : Expr α} {k : Int} : C a → exponent.isNegative = false →
    wholeExponent? exponent = some k → C (a.zpow k)

/-- Having no property at all is kept. -/
theorem arithmetic_trivial : Arithmetic fun _ : Coefficient α => True := by
  constructor <;> intros <;> trivial

/-- A property that literals have and that is inherited by parts and passed on by them; of products
only those need it whose coefficients have another property and whose factors are no products. -/
structure Hereditary (C : Coefficient α → Prop) (K : Expr α → Prop) : Prop where
  arithmetic : Arithmetic C
  real (v : α) : K (.real v)
  sum {as : List (Expr α)} : K (.sum as) ↔ ∀ a ∈ as, K a
  coefficient {c : Coefficient α} {n d : List (Expr α)} : K (.product c n d) → C c
  factors {c : Coefficient α} {n d : List (Expr α)} :
    K (.product c n d) → (∀ x ∈ n, K x) ∧ ∀ x ∈ d, K x
  product {c : Coefficient α} {n d : List (Expr α)} : C c →
    (∀ x ∈ n, K x ∧ x.isProduct = false) → (∀ x ∈ d, K x ∧ x.isProduct = false) →
    K (.product c n d)
  rescale {c c' : Coefficient α} {n d : List (Expr α)} :
    C c' → K (.product c n d) → K (.product c' n d)
  power {base exponent : Expr α} : K (.power base exponent) ↔ K base ∧ K exponent
  log {base body : Expr α} : K (.log base body) ↔ K base ∧ K body
  trig {f : Trig} {body : Expr α} : K (.trig f body) ↔ K body

namespace Hereditary

variable {C : Coefficient α → Prop} {K : Expr α → Prop}

/-- A hereditary property is passed on, and it goes deep. -/
theorem heritable (hK : Hereditary C K) : Heritable True C K where
  one := hK.arithmetic.one
  real_one := hK.real _
  ofScalar {v} _ := hK.arithmetic.ofScalar v
  value _ := hK.real _
  zero_of_coefficient _ _ := hK.real _
  zero_of_real _ _ := hK.real _
  sum := hK.sum
  coefficient := hK.coefficient
  factors := hK.factors
  product := hK.product
  rescale := hK.rescale
  power := hK.power.trans (and_congr_right' true_imp_iff.symm)
  log _ := hK.log
  trig _ := hK.trig
  neg _ := hK.arithmetic.neg
  neg_real _ _ := hK.real _
  minusOne _ := ⟨hK.arithmetic.minusOne, hK.real _⟩
  zero _ := hK.real _
  whole _ _ := hK.real _

/-- The opposite of an expression has the property. -/
theorem neg (hK : Hereditary C K) (e : Expr α) (he : K e) : K e.neg :=
  hK.heritable.neg_expr trivial e he

/-- The addends of an expression have the property. -/
theorem addends (hK : Hereditary C K) {e : Expr α} (he : K e) : ∀ a ∈ e.addends, K a := by
  cases e with
  | sum as => exact hK.sum.mp he
  | _ => exact List.forall_mem_singleton.mpr he

/-- The base and the exponent that an expression is taken for have the property. -/
theorem powerParts (hK : Hereditary C K) (e : Expr α) (he : K e) :
    K e.powerParts.1 ∧ K e.powerParts.2 :=
  (hK.heritable.powerParts e he).imp_right fun hexponent => hexponent trivial

/-- The coefficient of an expression and what it scales have their properties. -/
theorem scaleParts (hK : Hereditary C K) {e : Expr α} (he : K e) :
    C e.scaleParts.1 ∧ K e.scaleParts.2 :=
  hK.heritable.scaleParts he

/-- What is scaled by a coefficient has the property. -/
theorem ofScaleParts (hK : Hereditary C K) {c : Coefficient α} (hc : C c) {key : Expr α}
    (h : K key) : K (ofScaleParts c key) :=
  hK.heritable.ofScaleParts hc h

/-- Sums of expressions have the property. -/
theorem sumRule (hK : Hereditary C K) {addends : List (Expr α)} (h : ∀ e ∈ addends, K e) :
    K (sumRule addends).value :=
  kept_sumRule (fun _ => hK.sum) h (fun _ => hK.real _) fun _ => hK.real _

/-- A power that follows from its parts has the property. -/
theorem plainPower (hK : Hereditary C K) {base exponent : Expr α} {found : Traced (Expr α)}
    (h : plainPower? base exponent = some found) (hbase : K base) (hexponent : K exponent) :
    K found.value := by
  have outcome := powerOutcome h
  generalize found.value = e at outcome
  cases outcome with
  | exponentZero _ => exact hK.real _
  | exponentOne _ => exact hbase
  | baseOne _ => exact hK.real _
  | literal _ => exact hK.real _
  | logarithm _ => exact (hK.log.mp hexponent).2

/-- Logarithms have the property. -/
theorem logRule (hK : Hereditary C K) {base body : Expr α} (hbase : K base) (hbody : K body) :
    K (logRule base body).value := by
  have outcome := logOutcome base body
  generalize (Reduction.logRule base body).value = e at outcome
  cases outcome with
  | self _ => exact hK.real _
  | bodyOne _ => exact hK.real _
  | power _ => exact (hK.power.mp hbody).2
  | literal _ _ _ => exact hK.real _
  | stays _ => exact hK.log.mpr ⟨hbase, hbody⟩

/-- Functions of expressions have the property. -/
theorem trigRule (hK : Hereditary C K) {f : Trig} {body : Expr α} (hbody : K body) :
    K (trigRule f body).value :=
  hK.heritable.trigRule trivial hbody

/-- Differences of expressions have the property. -/
theorem difference (hK : Hereditary C K) {u l : Expr α} (hu : K u) (hl : K l) :
    K (Reduction.sumRule [u, l.neg]).value :=
  hK.sumRule (List.forall_mem_cons.mpr ⟨hu, List.forall_mem_singleton.mpr (hK.neg l hl)⟩)

/-- Every operation with numbers keeps a hereditary property. -/
theorem keeps (hK : Hereditary C K) (op : Operation α) : op.Keeps True C K := by
  cases op with
  | multiply a b => exact hK.arithmetic.mul
  | divide a b =>
    intro hdivisor ha hb
    obtain hzero | ⟨v, hv, rfl⟩ := hdivisor
    · exact hK.arithmetic.div ha hb hzero
    · exact hK.arithmetic.divScalar ha hv
  | add a b => exact hK.arithmetic.add
  | raise c k => exact fun _ hneg hwhole _ hc => hK.arithmetic.zpow hc hneg hwhole
  | subtract u l => exact fun _ _ _ => ⟨hK.real _, hK.real _⟩
  | difference u l => exact fun _ => hK.difference
  | sum es => exact hK.sumRule
  | power base exponent => exact fun _ h hbase hexponent => hK.plainPower h hbase (hexponent trivial)
  | log base body => exact fun _ => hK.logRule

/-- Multiplying by expressions with the property, or dividing by them, keeps a product in the making. -/
theorem absorbAll (hK : Hereditary C K) (side : Side) {f : Fraction α} (hf : Heritable.Made C K f)
    {es : List (Expr α)} (hes : ∀ e ∈ es, K e) :
    Heritable.Made C K (Fraction.absorbAll side f es).value :=
  hK.heritable.absorbAll side hf es hes fun op _ => hK.keeps op

/-- Taking a common base away and multiplying by a power of it, or dividing by one, keeps a product in the
making. -/
theorem restore (hK : Hereditary C K) (side : Side) {f : Fraction α} (hf : Heritable.Made C K f)
    {common : Fraction.Common α} (h : Fraction.common? f.denominator f.numerator = some common)
    {factor : Expr α} (hfactor : K common.base → K common.upper → K common.lower → K factor) :
    Heritable.Made C K (Fraction.absorb side (f.without common) factor).value :=
  hK.heritable.restore side hf h (fun hbase hupper hlower => hfactor hbase (hupper trivial) (hlower trivial))
    fun op _ => hK.keeps op

/-- A product in the making whose factors have the property results in one that has it. -/
theorem finish (hK : Hereditary C K) {f : Fraction α} (hf : Heritable.Made C K f) :
    K f.finish.value :=
  hK.heritable.finish hf fun _ _ op _ => hK.keeps op

/-- All rules keep a hereditary property. -/
theorem closed (hK : Hereditary C K) : Closed (α := α)
    (fun base exponent e => K base → K exponent → K e)
    (fun f g => Heritable.Made C K f → Heritable.Made C K g)
    (fun c n d e => C c → (∀ x ∈ n, K x) → (∀ x ∈ d, K x) → K e)
    (fun e e' => K e → K e') where
  plain h hbase hexponent := hK.plainPower h hbase hexponent
  relocate _ _ hpositive hmoved he hbase hexponent :=
    he hK.arithmetic.one (by simp) (by simpa using hmoved hbase (hpositive (hK.neg _ hexponent)))
  nest _ _ _ hfolded he hbase hexponent := by
    obtain ⟨hinner, hinside⟩ := hK.power.mp hbase
    exact he hinner (hfolded hK.arithmetic.one (by simpa using ⟨hinside, hexponent⟩) (by simp))
  spread _ hneg hwhole _ hn hd he hbase _ := by
    obtain ⟨above, below⟩ := hK.factors hbase
    exact he (hK.arithmetic.zpow (hK.coefficient hbase) hneg hwhole)
      (forall_of_forall₂ hn fun b hb _ h => h (above b hb) (hK.real _))
      (forall_of_forall₂ hd fun b hb _ h => h (below b hb) (hK.real _))
  remain _ _ _ hbase hexponent := hK.power.mpr ⟨hbase, hexponent⟩
  done _ h := h
  cancelAbove h _ _ _ hfactor hg hf :=
    hg (hK.restore .above hf h fun hbase _ _ => hfactor hbase (hK.real _))
  cancelBelow h _ _ _ hfactor hg hf :=
    hg (hK.restore .below hf h fun hbase _ _ => hfactor hbase (hK.real _))
  cancelBoth h _ _ _ _ hg hf := hg (hK.heritable.without hf h).1
  cancelSymbolic h _ hfactor hg hf :=
    hg (hK.restore .above hf h fun hbase hupper hlower => hfactor hbase (hK.difference hupper hlower))
  multiply {c} _ _ _ hf hc hn hd := by
    have start : Heritable.Made C K { coefficient := c } := ⟨hc, nofun, by simp, by simp⟩
    exact hK.finish (hf (hK.absorbAll .below (hK.absorbAll .above start hn) hd))
  sum h he := hK.sumRule (forall_of_forall₂ h fun a ha _ h => h (hK.sum.mp he a ha))
  fraction hn hd he h := by
    obtain ⟨above, below⟩ := hK.factors h
    exact he (hK.coefficient h) (forall_of_forall₂ hn fun b hb _ h => h (above b hb))
      (forall_of_forall₂ hd fun b hb _ h => h (below b hb))
  raise hbase hexponent he h := he (hbase (hK.power.mp h).1) (hexponent (hK.power.mp h).2)
  log hbase hbody h := hK.logRule (hbase (hK.log.mp h).1) (hbody (hK.log.mp h).2)
  trig hbody h := hK.trigRule (hbody (hK.trig.mp h))
  var _ h := h
  number _ h := h

end Hereditary

end SymbolicAlgebra.Reduction

/-!
### Products without scaled factors

A coefficient and what it scales make up an expression again only if the latter is not a product
with a coefficient of its own. Expressions without products of this kind among the factors of their
products are closed under the rules.
-/

namespace SymbolicAlgebra.Expr

variable {α : Type} [Scalar α]

/-- The expression is not a product with a coefficient other than one. -/
def Unscaled (e : Expr α) : Prop := ∀ c n d, e = product c n d → c.isOne = true

/-- No factor is a product with a coefficient other than one. -/
def PlainNode : Expr α → Prop
  | product _ n d => (∀ e ∈ n, e.Unscaled) ∧ ∀ e ∈ d, e.Unscaled
  | _ => True

/-- No factor of any product is a product with a coefficient other than one. -/
def Plain (e : Expr α) : Prop := e.Everywhere PlainNode

/-- What is no product has no coefficient. -/
theorem unscaled_of_not_product {e : Expr α} (h : e.isProduct = false) : e.Unscaled := by
  rintro c n d rfl
  cases h

/-- Being plain is hereditary. -/
theorem hereditary_plain : Reduction.Hereditary (fun _ => True) (Plain : Expr α → Prop) where
  arithmetic := Reduction.arithmetic_trivial
  real v := everywhere_of_leaf rfl trivial
  sum := everywhere_sum trivial
  coefficient _ := trivial
  factors h := by
    have hbelow := (everywhere_iff.mp h).2
    rw [children, List.forall_mem_append] at hbelow
    exact hbelow
  product _ hn hd := by
    refine everywhere_iff.mpr ⟨⟨?_, ?_⟩, ?_⟩
    · exact fun e he => unscaled_of_not_product (hn e he).2
    · exact fun e he => unscaled_of_not_product (hd e he).2
    · rw [children, List.forall_mem_append]
      exact ⟨fun e he => (hn e he).1, fun e he => (hd e he).1⟩
  rescale _ h := by
    obtain ⟨node, below⟩ := everywhere_iff.mp h
    exact everywhere_iff.mpr ⟨node, below⟩
  power := everywhere_power trivial
  log := everywhere_log trivial
  trig := everywhere_trig trivial

/-- What the coefficient of a plain expression scales has none of its own. -/
theorem Plain.unscaled_scaleParts [Scalar.Lawful α] {e : Expr α} (h : e.Plain) :
    e.scaleParts.2.Unscaled := by
  fun_cases scaleParts e with
  | case1 v => exact unscaled_of_not_product rfl
  | case2 c e => exact h.root.1 e List.mem_cons_self
  | case3 c n d =>
    rintro c n d ⟨⟩
    rw [Coefficient.isOne, Bool.and_eq_true]
    exact ⟨Scalar.Lawful.eq_one, Scalar.Lawful.eq_one⟩
  | case4 _ hreal hsingle hproduct =>
    rintro c n d rfl
    exact (hproduct c n d rfl).elim

end SymbolicAlgebra.Expr
