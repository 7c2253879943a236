import SymbolicAlgebra.Proofs.Derivative.Products
import SymbolicAlgebra.Proofs.Reduction.Denominators
import SymbolicAlgebra.Proofs.Reduction.MergeHalting
import SymbolicAlgebra.Proofs.Reduction.Silent

/-!
# Denominators in derivatives

Differentiation divides no coefficients: it multiplies the coefficient of a product in the making by
that of the expression, by literals and by minus one. Here are its rules with a log of the fractions
that they make. A product that has vanished takes no factors any more, but it is still scaled, and a
fraction is made for that too. So neither the rules nor differentiation make a fraction over zero,
as long as the coefficients that they start from are not made over zero.
-/

namespace SymbolicAlgebra

variable {α : Type} [Scalar α]

namespace Logged

open SymbolicAlgebra.Derivative SymbolicAlgebra.Reduction

/-- A product in the making, and whether a part has made it vanish. -/
structure Builder (α : Type) [Scalar α] where
  coefficient : Coefficient α := .one
  numerator : List (Expr α) := []
  denominator : List (Expr α) := []
  zero : Bool := false

namespace Builder

/-- Multiplies by a factor, unless the product has vanished; a factor that is zero makes it
vanish. -/
def times (e : Expr α) (b : Builder α) : Logged α (Builder α) :=
  if b.zero then pure b
  else if e.isZero then pure { b with numerator := [], denominator := [], zero := true }
  else
    match e with
    | .number (.real v) => do return { b with coefficient := ← mul b.coefficient (← ofScalar v) }
    | e => pure { b with numerator := b.numerator ++ [e] }

/-- Divides by an expression other than one, unless the product has vanished. -/
def divide (e : Expr α) (b : Builder α) : Builder α :=
  if b.zero || e.isReal Scalar.one then b else { b with denominator := b.denominator ++ [e] }

/-- Multiplies by a coefficient, even if the product has vanished; a coefficient of zero makes it
vanish. -/
def scale (c : Coefficient α) (b : Builder α) : Logged α (Builder α) :=
  if c.isZero then b.times .zero else do return { b with coefficient := ← mul b.coefficient c }

/-- Takes a part into the product. -/
def add (b : Builder α) : Derivative.Part α → Logged α (Builder α)
  | .coefficient c => b.scale c
  | .factor e => b.times e
  | .divisor e => pure (b.divide e)

/-- The product, unless it has vanished. -/
def term? (b : Builder α) : Option (Term α) :=
  if b.zero then none else some ⟨b.coefficient, b.numerator, b.denominator⟩

end Builder

/-- The product of parts. -/
def productOf (ps : List (Derivative.Part α)) : Logged α (Expr α) := do
  let b ← foldList Builder.add {} ps
  return Term.toExpr b.term?

/-- The derivative of a quotient of products. -/
def slope (q : Quotient α) : Logged α (Expr α) :=
  match q.numerator, q.denominator with
  | [], [g] => productOf (q.reciprocalParts g)
  | _, _ => do return sumOf (← mapList productOf (q.upperParts ++ q.lowerParts))

/-- The derivative of a quotient of products whose factors come with their derivatives. -/
def productSlope (name : String) (c : Coefficient α) (numerator denominator : List (Pair α)) :
    Logged α (Expr α) :=
  slope (.ofPairs name c numerator denominator)

/-- The derivative of a logarithm whose base does not depend on the variable. -/
def logSlope (base : Expr α) (body : Pair α) : Logged α (Expr α) :=
  productOf [.factor body.slope, .divisor body.expr, .divisor (.ln base)]

/-- The natural logarithm of an expression, with its derivative. -/
def lnPair (name : String) (body : Pair α) : Logged α (Pair α) := do
  let slope ← if body.expr.dependsOn name then logSlope (.constant .e) body else pure .zero
  return ⟨.ln body.expr, slope⟩

/-- The derivative of any logarithm. -/
def anyLogSlope (name : String) (base body : Pair α) : Logged α (Expr α) :=
  if base.expr.dependsOn name then do
    let body ← lnPair name body
    let base ← lnPair name base
    productSlope name .one [body] [base]
  else logSlope base.expr body

/-- The derivative of a power. -/
def powerSlope (name : String) (base exponent : Pair α) : Logged α (Expr α) :=
  let power := Expr.power base.expr exponent.expr
  if !exponent.expr.dependsOn name then
    productOf [.factor exponent.expr, .factor (.power base.expr (decrement exponent.expr)),
      .factor base.slope]
  else if !base.expr.dependsOn name then
    productOf [.factor power, .factor (.ln base.expr), .factor exponent.slope]
  else do
    let base ← lnPair name base
    let slope ← productSlope name .one [exponent, base] []
    productOf [.factor power, .factor slope]

/-- The derivative of a function. -/
def trigSlope (function : Trig) (body : Pair α) : Logged α (Expr α) :=
  productOf (.factor body.slope :: trigParts function body.expr)

mutual

/-- The derivative with respect to a variable. -/
def derivative (name : String) (e : Expr α) : Logged α (Expr α) :=
  if e.dependsOn name then
    match e with
    | .sum as => do return sumOf ((← derivatives name as).map Pair.slope)
    | .product c n d => do
      let numerator ← derivatives name n
      let denominator ← derivatives name d
      productSlope name c numerator denominator
    | .power a b => do
      let base ← derivative name a
      let exponent ← derivative name b
      powerSlope name ⟨a, base⟩ ⟨b, exponent⟩
    | .log a b => do
      let base ← derivative name a
      let body ← derivative name b
      anyLogSlope name ⟨a, base⟩ ⟨b, body⟩
    | .trig f a => do trigSlope f ⟨a, ← derivative name a⟩
    | .var x => pure (if x = name then .one else .zero)
    | .number _ => pure .zero
  else pure .zero

/-- The expressions of a list with their derivatives. -/
def derivatives (name : String) : List (Expr α) → Logged α (List (Pair α))
  | [] => pure []
  | e :: es => do
    let slope ← derivative name e
    let pairs ← derivatives name es
    return ⟨e, slope⟩ :: pairs

end

section Erasure

variable [Scalar.Lawful α]

/-- Taking a part into a product is that of the log without it, as long as the product does not
vanish, and it vanishes with the same parts. -/
theorem Builder.erase_add (b : Builder α) (p : Derivative.Part α) :
    ∃ b', (b.add p).erase = pure b' ∧ b'.term? = b.term?.bind (·.add p) := by
  have htimes (e : Expr α) :
      ∃ b', (b.times e).erase = pure b' ∧ b'.term? = b.term?.bind (·.times e) := by
    unfold times
    split
    · rename_i hzero
      exact ⟨b, rfl, by simp [term?, hzero]⟩
    · rename_i hzero
      split
      · rename_i he
        exact ⟨_, rfl, by simp [term?, hzero, Term.times, he]⟩
      · rename_i he
        split
        · rename_i v
          exact ⟨{ b with coefficient := b.coefficient * .ofScalar v }, by simp, by
            simp [term?, hzero, Term.times, he]⟩
        · rename_i hreal
          have hterm (t : Term α) :
              t.times e = some { t with numerator := t.numerator ++ [e] } := by
            unfold Term.times
            rw [if_neg he]
            split
            · exact (hreal _ rfl).elim
            · rfl
          exact ⟨{ b with numerator := b.numerator ++ [e] }, rfl, by simp [term?, hzero, hterm]⟩
  cases p with
  | coefficient c =>
    rw [add, scale]
    split
    · rename_i hc
      obtain ⟨b', hb', hterm⟩ := htimes .zero
      refine ⟨b', hb', hterm.trans ?_⟩
      simp [Term.add, Term.scale, Term.times, hc, isZero_zero]
    · rename_i hc
      refine ⟨{ b with coefficient := b.coefficient * c }, by simp, ?_⟩
      cases hzero : b.zero <;> simp [term?, hzero, Term.add, Term.scale, hc]
  | factor e => exact htimes e
  | divisor e =>
    refine ⟨_, rfl, ?_⟩
    rw [divide]
    cases hzero : b.zero
    · cases he : e.isReal Scalar.one <;> simp [term?, hzero, he, Term.add, Term.divide]
    · simp [term?, hzero]

/-- The product of parts is that of the log without it. -/
theorem erase_productOf (ps : List (Derivative.Part α)) :
    (productOf ps).erase = pure (Derivative.productOf ps) := by
  have hbuild (b : Builder α) :
      ∃ b', (foldList Builder.add b ps).erase = pure b' ∧ b'.term? = b.term?.bind (·.build ps) := by
    induction ps generalizing b with
    | nil => exact ⟨b, rfl, by simp⟩
    | cons p ps ih =>
      obtain ⟨next, hnext, hterm⟩ := b.erase_add p
      obtain ⟨last, hlast, hrest⟩ := ih next
      refine ⟨last, by simp only [foldList, erase_bind, hnext, pure_bind, hlast], ?_⟩
      rw [hrest, hterm, Option.bind_assoc]
      rfl
  obtain ⟨b, hb, hterm⟩ := hbuild {}
  simp only [productOf, erase_bind, hb, pure_bind, erase_pure, hterm]
  rfl

/-- The rule for quotients is that of the log without it. -/
theorem erase_slope (q : Quotient α) : (slope q).erase = pure q.slope := by
  rw [slope, Quotient.slope]
  split
  · rename_i g hn hd
    simp only [erase_productOf, ← q.reciprocalSlope_eq_productOf, hn, hd]
  · rw [q.upperTerms_eq_map, q.lowerTerms_eq_map, ← List.map_append]
    have hmap (qs : List (List (Derivative.Part α))) :
        (mapList productOf qs).erase = pure (qs.map Derivative.productOf) := by
      induction qs with
      | nil => rfl
      | cons ps qs ih =>
        simp only [mapList, erase_bind, erase_productOf, ih, pure_bind, erase_pure, List.map_cons]
    simp only [erase_bind, hmap, pure_bind, erase_pure]

/-- The rule for logarithms to a fixed base is that of the log without it. -/
theorem erase_logSlope (base : Expr α) (body : Pair α) :
    (logSlope base body).erase = pure (Derivative.logSlope base body) := by
  rw [logSlope, erase_productOf]
  rfl

/-- Differentiating a natural logarithm is that of the log without it. -/
theorem erase_lnPair (name : String) (body : Pair α) :
    (lnPair name body).erase = pure (Derivative.lnPair name body) := by
  rw [lnPair, Derivative.lnPair]
  split
  · simp only [erase_bind, erase_logSlope, pure_bind, erase_pure]
  · rfl

/-- The rule for logarithms is that of the log without it. -/
theorem erase_anyLogSlope (name : String) (base body : Pair α) :
    (anyLogSlope name base body).erase = pure (Derivative.anyLogSlope name base body) := by
  rw [anyLogSlope, Derivative.anyLogSlope]
  split
  · simp only [erase_bind, erase_lnPair, pure_bind, productSlope, erase_slope]
    rfl
  · exact erase_logSlope _ _

/-- The rule for powers is that of the log without it. -/
theorem erase_powerSlope (name : String) (base exponent : Pair α) :
    (powerSlope name base exponent).erase = pure (Derivative.powerSlope name base exponent) := by
  rw [powerSlope, Derivative.powerSlope]
  split
  · rw [erase_productOf]
    rfl
  · split
    · rw [erase_productOf]
      rfl
    · simp only [erase_bind, erase_lnPair, pure_bind, productSlope, erase_slope, erase_productOf]
      rfl

/-- The rule for functions is that of the log without it. -/
theorem erase_trigSlope (f : Trig) (body : Pair α) :
    (trigSlope f body).erase = pure (Derivative.trigSlope f body) := by
  rw [trigSlope, erase_productOf, Derivative.productOf, Term.build_cons, Term.add,
    Derivative.trigSlope]
  congr 2
  cases f <;> simp [trigParts, Term.add]

mutual

/-- Differentiation is that of the log without it. -/
theorem erase_derivative (name : String) (e : Expr α) :
    (derivative name e).erase = pure (e.derivative name) := by
  rw [derivative.eq_def, Expr.derivative.eq_def]
  split
  · cases e with
    | sum as => simp only [erase_bind, erase_derivatives, pure_bind, erase_pure]
    | product c n d =>
      simp only [erase_bind, erase_derivatives, pure_bind, productSlope, erase_slope]
      rfl
    | power a b => simp only [erase_bind, erase_derivative, pure_bind, erase_powerSlope]
    | log a b => simp only [erase_bind, erase_derivative, pure_bind, erase_anyLogSlope]
    | trig f a => simp only [erase_bind, erase_derivative, pure_bind, erase_trigSlope]
    | var x => rfl
    | number v => rfl
  · rfl

/-- Differentiation is that of the log without it, for all expressions of a list. -/
theorem erase_derivatives (name : String) (es : List (Expr α)) :
    (derivatives name es).erase = pure (Expr.derivatives name es) := by
  cases es with
  | nil => rfl
  | cons e es =>
    simp only [derivatives, Expr.derivatives, erase_bind, erase_derivative, erase_derivatives,
      pure_bind, erase_pure]

end

end Erasure

open SymbolicAlgebra.Expr in
/-- In the derivative of a vanishing multiple of a reciprocal the product is scaled after it has
vanished: the log has the fraction that is made for this. -/
theorem returns_derivative_of_vanishing [Scalar.Lawful α] {c : Coefficient α} (hc : c.isZero = true)
    (name : String) : (derivative name (.product c [] [.var name])).Returns .zero
      [((Coefficient.one : Coefficient α).numer * (Coefficient.minusOne : Coefficient α).numer,
        (Coefficient.one : Coefficient α).denom * (Coefficient.minusOne : Coefficient α).denom)
      ] := by
  have hvar : (var name : Expr α).dependsOn name = true := by
    simp [dependsOn, postOrder, postOrderOnto, isVar]
  have hquotient : (product c [] [.var name]).dependsOn name = true := by
    simp [dependsOn, postOrder, postOrderOnto, postOrderListOnto, isVar]
  have hkept : (Coefficient.minusOne : Coefficient α).isZero = false :=
    Scalar.Lawful.eq_minusOne_zero
  have hparts : derivative name (product c [] [var name]) =
      productOf [.coefficient c, .coefficient .minusOne, .factor one,
        .divisor (power (var name) (real (Scalar.ofInt 2)))] := by
    simp [derivative.eq_def, derivatives, productSlope, slope, Quotient.ofPairs,
      Quotient.reciprocalParts, Quotient.fixedParts, bind_of_pure, hquotient, hvar]
  have hvanishes : (({} : Builder α).add (.coefficient c)) = pure { zero := true } := by
    simp [Builder.add, Builder.scale, Builder.times, hc, isZero_zero]
  rw [hparts, productOf, foldList, hvanishes, bind_of_pure, foldList, Builder.add, Builder.scale,
    hkept]
  exact ⟨_, rfl, rfl⟩

end Logged

namespace Derivative

open SymbolicAlgebra.Expr SymbolicAlgebra.Reduction SymbolicAlgebra.Coefficient Logged

variable [Scalar.Whole α]

/-- Derivatives of expressions have no denominators of zero if the expressions have none. -/
theorem inherited_built : Inherited Built (Everywhere BuiltNode : Expr α → Prop) where
  toHereditary := hereditary_built
  euler := everywhere_of_leaf rfl trivial
  allProducts hc hn hd := built_product.mpr ⟨hc, hn, hd⟩

/-- Taking a part into a product makes no fraction over zero, even where the product has
vanished. -/
theorem ensures_add {b : Builder α} (hb : b.coefficient.Built) {p : Part α}
    (hp : p.Has Built (Everywhere BuiltNode)) :
    (b.add p).Ensures NotOverZero (·.coefficient.Built) := by
  have htimes (e : Expr α) : (b.times e).Ensures NotOverZero (·.coefficient.Built) := by
    unfold Builder.times
    split
    · exact ensures_pure hb
    · split
      · exact ensures_pure hb
      · split
        · rename_i v _
          exact (ensures_ofScalar v).bind fun c hc =>
            (ensures_mul hb hc).bind fun c hc => ensures_pure hc
        · exact ensures_pure hb
  cases p with
  | coefficient c =>
    rw [Builder.add, Builder.scale]
    split
    · exact htimes .zero
    · exact (ensures_mul hb hp).bind fun c hc => ensures_pure hc
  | factor e => exact htimes e
  | divisor e =>
    rw [Builder.add, Builder.divide]
    split
    · exact ensures_pure hb
    · exact ensures_pure hb

/-- Building a product makes no fraction over zero. -/
theorem ensures_productOf {ps : List (Part α)}
    (hps : ∀ p ∈ ps, p.Has Built (Everywhere BuiltNode)) :
    (Logged.productOf ps).Ensures NotOverZero (Everywhere BuiltNode) := by
  have hbuild : (foldList Builder.add {} ps).Ensures NotOverZero (·.coefficient.Built) :=
    ensures_foldList .one fun p hp b hb => ensures_add hb (hps p hp)
  refine (hbuild.bind (p := fun _ => True) fun _ _ => ensures_pure trivial).of_erase fun e he => ?_
  have he := (Logged.erase_productOf ps) ▸ he
  exact Reducing.returns_pure.mp he ▸ inherited_built.productOf hps

/-- The rule for products makes no fraction over zero. -/
theorem ensures_productSlope (name : String) {c : Coefficient α} (hc : c.Built)
    {n d : List (Pair α)}
    (hn : ∀ p ∈ n, p.expr.Everywhere BuiltNode ∧ p.slope.Everywhere BuiltNode)
    (hd : ∀ p ∈ d, p.expr.Everywhere BuiltNode ∧ p.slope.Everywhere BuiltNode) :
    (Logged.productSlope name c n d).Ensures NotOverZero (Everywhere BuiltNode) := by
  have hq : (Quotient.ofPairs name c n d).Has Built (Everywhere BuiltNode) :=
    { coefficient := hc
      fixedNumerator := List.forall_mem_map.mpr fun p hp => (hn p (List.mem_of_mem_filter hp)).1
      fixedDenominator := List.forall_mem_map.mpr fun p hp => (hd p (List.mem_of_mem_filter hp)).1
      numerator := fun p hp => hn p (List.mem_of_mem_filter hp)
      denominator := fun p hp => hd p (List.mem_of_mem_filter hp) }
  have hproducts := inherited_built.quotient hq
  rw [Logged.productSlope, Logged.slope]
  generalize Quotient.ofPairs name c n d = q at hproducts
  rw [Quotient.products] at hproducts
  split
  · exact ensures_productOf (hproducts _ (by simp_all))
  · rename_i hother
    have hall :
        ∀ ps ∈ q.upperParts ++ q.lowerParts, ∀ p ∈ ps, p.Has Built (Everywhere BuiltNode) := by
      split at hproducts
      · exact (hother _ ‹_› ‹_›).elim
      · exact hproducts
    exact (ensures_mapList fun ps hps => ensures_productOf (hall ps hps)).bind fun es hes =>
      ensures_pure (inherited_built.sumOf hes)

section Slopes

variable {base body exponent : Pair α}

/-- The rule for logarithms to a fixed base makes no fraction over zero. -/
theorem ensures_logSlope {base : Expr α} (hbase : base.Everywhere BuiltNode)
    (hexpr : body.expr.Everywhere BuiltNode) (hslope : body.slope.Everywhere BuiltNode) :
    (Logged.logSlope base body).Ensures NotOverZero (Everywhere BuiltNode) :=
  ensures_productOf (by simpa [Part.Has] using ⟨hslope, hexpr, inherited_built.ln hbase⟩)

/-- Differentiating a natural logarithm makes no fraction over zero. -/
theorem ensures_lnPair (name : String) (hexpr : body.expr.Everywhere BuiltNode)
    (hslope : body.slope.Everywhere BuiltNode) :
    (Logged.lnPair name body).Ensures NotOverZero fun p =>
      p.expr.Everywhere BuiltNode ∧ p.slope.Everywhere BuiltNode := by
  have hln := inherited_built.ln hexpr
  rw [Logged.lnPair]
  split
  · exact (ensures_logSlope inherited_built.euler hexpr hslope).bind fun slope hslope =>
      ensures_pure ⟨hln, hslope⟩
  · exact (ensures_pure (hereditary_built.real _)).bind fun slope hslope =>
      ensures_pure ⟨hln, hslope⟩

/-- The rule for logarithms makes no fraction over zero. -/
theorem ensures_anyLogSlope (name : String) (hbase : base.expr.Everywhere BuiltNode)
    (hbaseSlope : base.slope.Everywhere BuiltNode) (hbody : body.expr.Everywhere BuiltNode)
    (hbodySlope : body.slope.Everywhere BuiltNode) :
    (Logged.anyLogSlope name base body).Ensures NotOverZero (Everywhere BuiltNode) := by
  rw [Logged.anyLogSlope]
  split
  · exact (ensures_lnPair name hbody hbodySlope).bind fun f hf =>
      (ensures_lnPair name hbase hbaseSlope).bind fun g hg => ensures_productSlope name .one
        (List.forall_mem_singleton.mpr hf) (List.forall_mem_singleton.mpr hg)
  · exact ensures_logSlope hbase hbody hbodySlope

/-- The rule for powers makes no fraction over zero. -/
theorem ensures_powerSlope (name : String) (hbase : base.expr.Everywhere BuiltNode)
    (hbaseSlope : base.slope.Everywhere BuiltNode) (hexponent : exponent.expr.Everywhere BuiltNode)
    (hexponentSlope : exponent.slope.Everywhere BuiltNode) :
    (Logged.powerSlope name base exponent).Ensures NotOverZero (Everywhere BuiltNode) := by
  have hK := inherited_built (α := α)
  have hpower := hK.power.mpr ⟨hbase, hexponent⟩
  have hless := hK.power.mpr ⟨hbase, hK.decrement hexponent⟩
  rw [Logged.powerSlope]
  split
  · exact ensures_productOf (by simpa [Part.Has] using ⟨hexponent, hless, hbaseSlope⟩)
  · split
    · exact ensures_productOf (by simpa [Part.Has] using ⟨hpower, hK.ln hbase, hexponentSlope⟩)
    · refine (ensures_lnPair name hbase hbaseSlope).bind fun f hf => ?_
      have hfactors :
          ∀ p ∈ [exponent, f], p.expr.Everywhere BuiltNode ∧ p.slope.Everywhere BuiltNode :=
        List.forall_mem_cons.mpr ⟨⟨hexponent, hexponentSlope⟩, List.forall_mem_singleton.mpr hf⟩
      refine (ensures_productSlope name .one hfactors (List.forall_mem_nil _)).bind
        fun slope hslope => ?_
      exact ensures_productOf (by simpa [Part.Has] using ⟨hpower, hslope⟩)

/-- The rule for functions makes no fraction over zero. -/
theorem ensures_trigSlope (f : Trig) (hexpr : body.expr.Everywhere BuiltNode)
    (hslope : body.slope.Everywhere BuiltNode) :
    (Logged.trigSlope f body).Ensures NotOverZero (Everywhere BuiltNode) :=
  ensures_productOf (List.forall_mem_cons.mpr ⟨hslope, inherited_built.trigParts f hexpr⟩)

end Slopes

mutual

/-- Differentiation makes no fraction over zero. -/
theorem ensures_derivative (name : String) (e : Expr α) (he : e.Everywhere BuiltNode) :
    (Logged.derivative name e).Ensures NotOverZero (Everywhere BuiltNode) := by
  have hK := inherited_built (α := α)
  rw [Logged.derivative.eq_def]
  split
  · cases e with
    | sum as =>
      exact (ensures_derivatives name as (hK.sum.mp he)).bind fun ps hps =>
        ensures_pure (hK.sumOf (List.forall_mem_map.mpr fun p hp => (hps p hp).2))
    | product c n d =>
      obtain ⟨hc, above, below⟩ := built_product.mp he
      exact (ensures_derivatives name n above).bind fun n hn =>
        (ensures_derivatives name d below).bind fun d hd => ensures_productSlope name hc hn hd
    | power a b =>
      obtain ⟨ha, hb⟩ := hK.power.mp he
      exact (ensures_derivative name a ha).bind fun f hf =>
        (ensures_derivative name b hb).bind fun g hg => ensures_powerSlope name ha hf hb hg
    | log a b =>
      obtain ⟨ha, hb⟩ := hK.log.mp he
      exact (ensures_derivative name a ha).bind fun f hf =>
        (ensures_derivative name b hb).bind fun g hg => ensures_anyLogSlope name ha hf hb hg
    | trig f a =>
      have ha := hK.trig.mp he
      exact (ensures_derivative name a ha).bind fun g hg => ensures_trigSlope f ha hg
    | var x =>
      refine ensures_pure ?_
      split
      · exact hK.real _
      · exact hK.real _
    | number v => exact ensures_pure (hK.real _)
  · exact ensures_pure (hK.real _)

/-- Differentiating the expressions of a list makes no fraction over zero. -/
theorem ensures_derivatives (name : String) (es : List (Expr α))
    (hes : ∀ e ∈ es, e.Everywhere BuiltNode) :
    (Logged.derivatives name es).Ensures NotOverZero fun ps =>
      ∀ p ∈ ps, p.expr.Everywhere BuiltNode ∧ p.slope.Everywhere BuiltNode := by
  cases es with
  | nil => exact ensures_pure (List.forall_mem_nil _)
  | cons e es =>
    rw [List.forall_mem_cons] at hes
    exact (ensures_derivative name e hes.1).bind fun slope hslope =>
      (ensures_derivatives name es hes.2).bind fun ps hps =>
        ensures_pure (List.forall_mem_cons.mpr ⟨⟨hes.1, hslope⟩, hps⟩)

end

end Derivative

open SymbolicAlgebra.Expr SymbolicAlgebra.Reduction SymbolicAlgebra.Coefficient

/-- No coefficient in the expression has the denominator zero. -/
def Expr.NeverOverZero (e : Expr Float) : Prop :=
  ∀ c n d, product c n d ∈ e.postOrder → Scalar.eq c.denom Scalar.zero = false

/-- An expression whose coefficients are made over other denominators than zero has none over
zero. -/
theorem Expr.neverOverZero_of_built {e : Expr Float} (h : e.Everywhere BuiltNode) :
    e.NeverOverZero :=
  fun c n d hmem => (h (product c n d) hmem : c.Built).denom_ne_zero

/-- The rewriting with a log is the other one if the log is left away; whatever it makes has the
property, and it never makes a fraction over zero on the way. -/
def Logged.Accounts {β : Type} (x : Logged Float β) (y : Reducing β) (p : β → Prop) : Prop :=
  x.erase = y ∧ x.Ensures Logged.NotOverZero p

/-- Rewriting never divides by a zero coefficient. Wherever a coefficient is made out of two
numbers, by a literal or by the arithmetic of coefficients, the logs take a note of the two. The
rules for powers and products, the cancellation, taking in factors on either side, finishing a
product, combining like terms and like factors, the passes that apply these rules and
differentiation are what they are with their logs, under all bounds and whatever literals and
coefficients they are given, zeros included; and if no coefficient is made over zero to begin with,
no log has a fraction over zero, and the results have no coefficient over zero. The passes do come
to a result with its log. -/
theorem rewriting_never_divides_by_zero :
    (∀ v : Float, (Logged.ofScalar v).Accounts (pure (.ofScalar v)) Built) ∧
    (∀ (c : Coefficient Float) n d, c.Built → (∀ e ∈ n, e.Everywhere BuiltNode) →
      (∀ e ∈ d, e.Everywhere BuiltNode) → ∀ fuel,
        (Logged.productRule fuel c n d).Accounts (productRule fuel c n d) (Everywhere BuiltNode)) ∧
    (∀ f : Fraction Float, BuiltFraction f →
      (∀ side e, e.Everywhere BuiltNode →
        (Logged.absorb side f e).Accounts (liftM (Fraction.absorb side f e)) BuiltFraction) ∧
      (∀ fuel, (Logged.cancel fuel f).Accounts (cancel fuel f) BuiltFraction) ∧
      (Logged.finish f).Accounts (liftM f.finish) (Everywhere BuiltNode)) ∧
    (∀ es : List (Expr Float), (∀ e ∈ es, e.Everywhere BuiltNode) →
      (Logged.mergeAddends es).Accounts (liftM (mergeAddends es))
        (fun es => ∀ e ∈ es, e.Everywhere BuiltNode) ∧
      ∀ fuel, (Logged.mergeFactors fuel es).Accounts (mergeFactors fuel es)
        (fun es => ∀ e ∈ es, e.Everywhere BuiltNode)) ∧
    ∀ e : Expr Float, e.Everywhere BuiltNode → e.NeverOverZero ∧
      (∀ exponent : Expr Float, exponent.Everywhere BuiltNode → ∀ fuel,
        (Logged.powerRule fuel e exponent).Accounts (powerRule fuel e exponent)
          (Everywhere BuiltNode)) ∧
      (∀ fuel, (Logged.simplify fuel e).Accounts (simplify fuel e) (Everywhere BuiltNode)) ∧
      (∀ fuel, (Logged.merge fuel e).Accounts (merge fuel e) (Everywhere BuiltNode)) ∧
      (∀ name, (Logged.derivative name e).Accounts (pure (e.derivative name))
        (Everywhere BuiltNode)) ∧
      (∃ s made, (Logged.simplify (nestingBound e.size) e).Returns s made) ∧
        ∃ s made, (Logged.merge (nestingBound e.size) e).Returns s made := by
  refine ⟨fun v => ⟨rfl, Logged.ensures_ofScalar v⟩, fun c n d hc hn hd fuel => ?_,
    fun f hf => ⟨?_, ?_, ?_⟩, fun es hes => ⟨?_, ?_⟩,
    fun e he => ⟨neverOverZero_of_built he, ?_, ?_, ?_, ?_, ?_, ?_⟩⟩
  · exact ⟨(Logged.erase_rules fuel).2.2.1 c n d, (ensures_rules fuel).2.2.1 c n d hc hn hd⟩
  · exact fun side e he => ⟨Logged.erase_absorb side f e, ensures_absorb side hf e he⟩
  · exact fun fuel => ⟨(Logged.erase_rules fuel).2.1 f, (ensures_rules fuel).2.1 f hf⟩
  · exact ⟨Logged.erase_finish f, ensures_finish hf⟩
  · exact ⟨Logged.erase_mergeAddends es, ensures_mergeAddends hes⟩
  · exact fun fuel => ⟨Logged.erase_mergeFactors fuel es, ensures_mergeFactors hes⟩
  · exact fun exponent hexponent fuel =>
      ⟨(Logged.erase_rules fuel).1 e exponent, (ensures_rules fuel).1 e exponent he hexponent⟩
  · exact fun fuel => ⟨(Logged.erase_rules fuel).2.2.2 e, (ensures_rules fuel).2.2.2 e he⟩
  · exact fun fuel => ⟨Logged.erase_merge fuel e, ensures_merge fuel e he⟩
  · exact fun name => ⟨Logged.erase_derivative name e, Derivative.ensures_derivative name e he⟩
  · obtain ⟨s, hs⟩ := simplified_halts e
    exact ⟨s, Logged.returns_erase.mp ((Logged.erase_rules _).2.2.2 e ▸ hs)⟩
  · obtain ⟨s, hs⟩ := merged_halts e
    exact ⟨s, Logged.returns_erase.mp (Logged.erase_merge _ e ▸ hs)⟩

/-- Simplifying, combining and differentiating `x/((0*y)*0)` makes no fraction over zero, and
neither does differentiating `0/x`, where a fraction is made. -/
theorem rewriting_never_divides_by_zero_quotient :
    ∃ e slope : Expr Float,
      e = .product .one [.var "x"] [.product (.ofScalar Scalar.zero) [.var "y"] [], .zero] ∧
      slope = .product (.ofScalar Scalar.zero) [] [.var "x"] ∧
      e.Everywhere BuiltNode ∧ slope.Everywhere BuiltNode ∧
      (∀ fuel, (Logged.simplify fuel e).Accounts (simplify fuel e) (Everywhere BuiltNode)) ∧
      (∀ fuel, (Logged.merge fuel e).Accounts (merge fuel e) (Everywhere BuiltNode)) ∧
      (∀ name, (Logged.derivative name e).Accounts (pure (e.derivative name))
        (Everywhere BuiltNode)) ∧
      ∃ made, (Logged.derivative "x" slope).Returns .zero made ∧ made ≠ [] ∧
        ∀ parts ∈ made, Logged.NotOverZero parts := by
  have hvar (name : String) : (Expr.var name : Expr Float).Everywhere BuiltNode :=
    everywhere_of_leaf rfl trivial
  have hzero : (Expr.zero : Expr Float).Everywhere BuiltNode := hereditary_built.real _
  have hcoefficient : (Coefficient.ofScalar Scalar.zero : Coefficient Float).Built :=
    arithmetic_built.ofScalar Scalar.zero
  have hquotient :
      (Expr.product .one [.var "x"] [.product (.ofScalar Scalar.zero) [.var "y"] [], .zero] :
        Expr Float).Everywhere BuiltNode := by
    simp only [built_product, List.forall_mem_cons]
    exact ⟨.one, ⟨hvar "x", nofun⟩, ⟨hcoefficient, ⟨hvar "y", nofun⟩, nofun⟩, hzero, nofun⟩
  have hreciprocal :
      (Expr.product (.ofScalar Scalar.zero) [] [.var "x"] : Expr Float).Everywhere BuiltNode :=
    built_product.mpr ⟨hcoefficient, nofun, List.forall_mem_singleton.mpr (hvar "x")⟩
  obtain ⟨-, -, -, -, hpasses⟩ := rewriting_never_divides_by_zero
  obtain ⟨-, -, hsimplify, hmerge, hslope, -⟩ := hpasses _ hquotient
  obtain ⟨-, -, -, -, hreciprocalSlope, -⟩ := hpasses _ hreciprocal
  have hvanishes : (Coefficient.ofScalar Scalar.zero : Coefficient Float).isZero = true := by
    rw [Coefficient.ofScalar_eq]
    exact isZero_zero (α := Float)
  have hreturns := Logged.returns_derivative_of_vanishing hvanishes "x"
  exact ⟨_, _, rfl, rfl, hquotient, hreciprocal, hsimplify, hmerge, hslope, _, hreturns,
    List.cons_ne_nil _ _, ((hreciprocalSlope "x").2 _ _ hreturns).2⟩

end SymbolicAlgebra
