import SymbolicAlgebra.Proofs.Reduction.Formed
import SymbolicAlgebra.Proofs.Reduction.Logged

/-!
# Denominators of coefficients

A coefficient is made as the fraction of two numbers, of which the second must not be zero. Four
operations make coefficients out of others, and the denominator that each of them gives is a product
or a power of numbers that are at least one, or of one of them and the divisor. The rules divide
only by what is not zero: a zero that gets below the line, by whatever way, is remembered and not
divided by. So as long as coefficients are made over denominators other than zero, the rules make no
other ones: none that they log is over zero.
-/

namespace SymbolicAlgebra

variable {α : Type} [Scalar α]

namespace Coefficient

/-- The coefficient is made as a fraction with a denominator other than zero, or it is one, minus
one or the opposite of one so made. -/
inductive Built : Coefficient α → Prop
  | fraction (numer : α) {denom : α} : Scalar.eq denom Scalar.zero = false →
    Built (ofFraction numer denom)
  | one : Built one
  | minusOne : Built minusOne
  | neg {c : Coefficient α} : Built c → Built (-c)

variable [Scalar.Whole α]

/-- A coefficient that is so made is in lowest terms. -/
theorem Built.lowestTerms {c : Coefficient α} (h : c.Built) : c.LowestTerms := by
  induction h with
  | fraction numer hdenom => exact lowestTerms_ofFraction numer hdenom
  | one => exact .inr rfl
  | minusOne => exact .inr rfl
  | neg _ ih => exact ih.neg

/-- The denominator of a coefficient that is so made is not zero. -/
theorem Built.denom_ne_zero {c : Coefficient α} (h : c.Built) :
    Scalar.eq c.denom Scalar.zero = false :=
  h.lowestTerms.denom_ne_zero

end Coefficient

namespace Logged

open SymbolicAlgebra.Reduction

/-- The fraction is not over zero. -/
abbrev NotOverZero (parts : α × α) : Prop := Scalar.eq parts.2 Scalar.zero = false

/-- A fraction that is not made over zero is one that may be made. -/
theorem ensures_built (numer : α) {denom : α} (h : Scalar.eq denom Scalar.zero = false) :
    (fraction numer denom).Ensures NotOverZero Coefficient.Built :=
  (ensures_fraction h).of_erase fun _ hc => Reducing.returns_pure.mp hc ▸ .fraction numer h

section Arithmetic

variable [Scalar.Whole α] {a b c : Coefficient α}

/-- A literal is put over one. -/
theorem ensures_ofScalar (v : α) : (ofScalar v).Ensures NotOverZero Coefficient.Built :=
  ensures_built v Scalar.Unital.eq_one_zero

/-- Adding makes no fraction over zero. -/
theorem ensures_add (ha : a.Built) (hb : b.Built) :
    (add a b).Ensures NotOverZero Coefficient.Built :=
  ensures_built _ (ha.lowestTerms.eq_denoms_zero hb.lowestTerms)

/-- Multiplying makes no fraction over zero. -/
theorem ensures_mul (ha : a.Built) (hb : b.Built) :
    (mul a b).Ensures NotOverZero Coefficient.Built :=
  ensures_built _ (ha.lowestTerms.eq_denoms_zero hb.lowestTerms)

/-- Dividing by what is not zero makes no fraction over zero: the product with a denominator, which
is at least one, is not too small for a number. -/
theorem ensures_div (ha : a.Built) (hb : b.isZero = false) :
    (div a b).Ensures NotOverZero Coefficient.Built :=
  ensures_built _ (Scalar.Whole.eq_mul_zero _ _ ha.lowestTerms.one_le_denom hb)

/-- Raising to a power that is not negative makes no fraction over zero. -/
theorem ensures_zpow (hc : c.Built) {exponent : Expr α} {k : Int}
    (hneg : exponent.isNegative = false) (h : wholeExponent? exponent = some k) :
    (zpow c k).Ensures NotOverZero Coefficient.Built := by
  -- a negative power would put the numerator below the line, which may be zero
  obtain ⟨n, rfl⟩ := Int.eq_ofNat_of_zero_le (wholeExponent?_nonneg hneg h)
  have hpower := Scalar.one_le_npow hc.lowestTerms.one_le_denom n
  exact ensures_built _ (Scalar.Signed.eq_zero_of_pos _ (Scalar.Whole.pos_of_one_le _ hpower))

end Arithmetic

end Logged

namespace Reduction

open SymbolicAlgebra.Expr SymbolicAlgebra.Coefficient

/-- The coefficient at this node is made over a denominator other than zero. -/
def BuiltNode : Expr α → Prop
  | .product c _ _ => c.Built
  | _ => True

/-- All coefficients of a product are made over other denominators than zero if its own one and
those in its factors are. -/
theorem built_product {c : Coefficient α} {n d : List (Expr α)} :
    (product c n d).Everywhere BuiltNode ↔
      c.Built ∧ (∀ x ∈ n, x.Everywhere BuiltNode) ∧ ∀ x ∈ d, x.Everywhere BuiltNode := by
  rw [everywhere_iff, children, List.forall_mem_append]
  rfl

section Rules

variable [Scalar.Whole α]

open Logged

/-- The arithmetic of coefficients makes none over zero. -/
theorem arithmetic_built : Arithmetic (Built : Coefficient α → Prop) where
  one := .one
  minusOne := .minusOne
  ofScalar v := (ensures_ofScalar v).value (Reducing.returns_pure.mpr rfl)
  neg := .neg
  add ha hb := (ensures_add ha hb).value (Reducing.returns_pure.mpr rfl)
  mul ha hb := (ensures_mul ha hb).value (Reducing.returns_pure.mpr rfl)
  div ha _ hzero := (ensures_div ha hzero).value (Reducing.returns_pure.mpr rfl)
  divScalar ha hv :=
    (ensures_div ha (Divisor.isZero (.inr ⟨_, hv, rfl⟩))).value (Reducing.returns_pure.mpr rfl)
  zpow hc hneg hwhole :=
    (ensures_zpow hc hneg hwhole).value (by rw [erase_zpow, Reducing.returns_pure])

/-- That coefficients are made over denominators other than zero is hereditary. -/
theorem hereditary_built : Hereditary Built (Everywhere BuiltNode : Expr α → Prop) where
  arithmetic := arithmetic_built
  real _ := everywhere_of_leaf rfl trivial
  sum := everywhere_sum trivial
  coefficient h := (built_product.mp h).1
  factors h := (built_product.mp h).2
  product hc hn hd := built_product.mpr ⟨hc, fun x hx => (hn x hx).1, fun x hx => (hd x hx).1⟩
  rescale hc h := built_product.mpr ⟨hc, (built_product.mp h).2⟩
  power := everywhere_power trivial
  log := everywhere_log trivial
  trig := everywhere_trig trivial

/-- The coefficient of a product in the making, and all in its factors, are made over other
denominators than zero. -/
abbrev BuiltFraction (f : Fraction α) : Prop := Heritable.Made Built (Everywhere BuiltNode) f

/-- Taking an expression apart makes no fraction over zero. -/
theorem ensures_scaleParts {e : Expr α} (he : e.Everywhere BuiltNode) :
    (Logged.scaleParts e).Ensures NotOverZero fun parts =>
      parts.1.Built ∧ parts.2.Everywhere BuiltNode := by
  fun_cases Logged.scaleParts e with
  | case1 v =>
    exact (ensures_ofScalar v).bind fun c hc => ensures_pure ⟨hc, hereditary_built.real _⟩
  | case2 => exact ensures_pure (hereditary_built.scaleParts he)

/-- Scaling a product in the making makes no fraction over zero, whichever side a number gets to. -/
theorem ensures_scale {f : Fraction α} (hf : BuiltFraction f) (side : Side) {c : Coefficient α}
    (hc : c.Built) (hdivisor : side = .below → c.isZero = false) :
    (Logged.scale side c f).Ensures NotOverZero BuiltFraction := by
  cases side with
  | above =>
    exact (ensures_mul hf.coefficient hc).bind fun c hc => ensures_pure ⟨hc, hf.zero, hf.factors⟩
  | below =>
    exact (ensures_div hf.coefficient (hdivisor rfl)).bind fun c hc =>
      ensures_pure ⟨hc, hf.zero, hf.factors⟩

mutual

/-- Taking a factor into a product makes no fraction over zero, however its numbers get below the
line: where a zero gets there nothing is divided. -/
theorem ensures_absorb (side : Side) {f : Fraction α} (hf : BuiltFraction f) (e : Expr α)
    (he : e.Everywhere BuiltNode) : (Logged.absorb side f e).Ensures NotOverZero BuiltFraction := by
  have remembered : BuiltFraction { f with zeroDivisor := true } :=
    ⟨hf.coefficient, fun _ => hereditary_built.real _, hf.factors⟩
  cases e with
  | number v =>
    cases v with
    | real v =>
      rw [Logged.absorb]
      split
      · exact ensures_pure remembered
      · rename_i hzero
        have hdivisor : side = .below → (Coefficient.ofScalar v).isZero = false := by
          rintro rfl
          exact Divisor.isZero (.inr ⟨v, by simpa using hzero, rfl⟩)
        have hliteral := (ensures_ofScalar v).of_erase fun c h => Reducing.returns_pure.mp h
        refine .after (hliteral.bind ?_)
        rintro c rfl
        exact ensures_scale hf side (arithmetic_built.ofScalar v) hdivisor
    | constant c => exact ensures_pure (hf.place ⟨he, rfl, rfl⟩)
  | product c n d =>
    obtain ⟨hc, above, below⟩ := built_product.mp he
    rw [Logged.absorb]
    -- a product below the line that is zero is remembered as a zero, whatever its factors are
    split
    · exact ensures_pure remembered
    · rename_i hzero
      have hdivisor : side = .below → c.isZero = false := by
        rintro rfl
        simpa using hzero
      refine .after ?_
      refine (ensures_scale hf side hc hdivisor).bind fun f hf => ?_
      exact (ensures_absorbAll side hf n above).bind fun f hf =>
        ensures_absorbAll side.flip hf d below
  | _ => exact ensures_pure (hf.place ⟨he, rfl, rfl⟩)

/-- Taking factors into a product makes no fraction over zero. -/
theorem ensures_absorbAll (side : Side) {f : Fraction α} (hf : BuiltFraction f) (es : List (Expr α))
    (hes : ∀ e ∈ es, e.Everywhere BuiltNode) :
    (Logged.absorbAll side f es).Ensures NotOverZero BuiltFraction := by
  cases es with
  | nil => exact ensures_pure hf
  | cons e es =>
    rw [List.forall_mem_cons] at hes
    exact (ensures_absorb side hf e hes.1).bind fun f hf => ensures_absorbAll side hf es hes.2

end

/-- Multiplying a coefficient into a sum makes no fraction over zero. -/
theorem ensures_distribute {c : Coefficient α} (hc : c.Built) {addends : List (Expr α)}
    (h : ∀ e ∈ addends, e.Everywhere BuiltNode) :
    (Logged.distribute c addends).Ensures NotOverZero
      fun es => ∀ e ∈ es, e.Everywhere BuiltNode := by
  refine ensures_mapList fun e he => (ensures_scaleParts (h e he)).bind fun parts hparts => ?_
  exact (ensures_mul hc hparts.1).bind fun c hc =>
    ensures_pure (hereditary_built.ofScaleParts hc hparts.2)

/-- Finishing a product makes no fraction over zero. -/
theorem ensures_finish {f : Fraction α} (hf : BuiltFraction f) :
    (Logged.finish f).Ensures NotOverZero (Everywhere BuiltNode) := by
  refine Ensures.of_erase (p := fun _ => True) ?_ fun e he => ?_
  · rw [Logged.finish]
    split
    · exact .after (ensures_pure trivial)
    · dsimp only
      split
      · rename_i addends hsort _
        have hmem : sum addends ∈ f.numerator :=
          (sort_perm _).mem_iff.mp (hsort ▸ List.mem_singleton_self _)
        have haddends := hereditary_built.sum.mp (hf.factors.1 _ hmem).1
        split
        · exact ensures_pure trivial
        · exact .after ((ensures_distribute hf.coefficient haddends).bind fun _ _ =>
            ensures_liftM trivial)
      · exact ensures_pure trivial
  · rw [erase_finish] at he
    exact Reducing.returns_liftM.mp he ▸ hereditary_built.finish hf

/-- The rules for powers and products and the pass that applies all rules make no fraction over
zero: one more nested call adds none, whichever rule makes it. -/
theorem ensures_rules (fuel : Nat) :
    (∀ base exponent : Expr α, base.Everywhere BuiltNode → exponent.Everywhere BuiltNode →
      (Logged.powerRule fuel base exponent).Ensures NotOverZero (Everywhere BuiltNode)) ∧
    (∀ f : Fraction α, BuiltFraction f → (Logged.cancel fuel f).Ensures NotOverZero BuiltFraction) ∧
    (∀ (c : Coefficient α) n d, c.Built → (∀ e ∈ n, e.Everywhere BuiltNode) →
      (∀ e ∈ d, e.Everywhere BuiltNode) →
        (Logged.productRule fuel c n d).Ensures NotOverZero (Everywhere BuiltNode)) ∧
    ∀ e : Expr α, e.Everywhere BuiltNode →
      (Logged.simplify fuel e).Ensures NotOverZero (Everywhere BuiltNode) := by
  have hK := hereditary_built (α := α)
  induction fuel with
  | zero =>
    exact ⟨fun _ _ _ _ => ensures_exhausted, fun _ _ => ensures_exhausted,
      fun _ _ _ _ _ _ => ensures_exhausted, fun _ _ => ensures_exhausted⟩
  | succ fuel ih =>
    obtain ⟨hpower, hcancel, hproduct, hsimplify⟩ := ih
    refine ⟨fun base exponent hbase hexponent => ?_, fun f hf => ?_, fun c n d hc hn hd => ?_,
      fun e he => ?_⟩
    · unfold Logged.powerRule
      cases hplain : plainPower? base exponent with
      | some found =>
        exact ensures_silent fun e he =>
          Reducing.returns_lift.mp he ▸ hK.plainPower hplain hbase hexponent
      | none =>
        dsimp only
        split
        · refine .after ((hsimplify _ (hK.neg _ hexponent)).bind fun positive hpositive => ?_)
          refine (hpower base positive hbase hpositive).bind fun moved hmoved => ?_
          exact hproduct _ _ _ .one (List.forall_mem_nil _) (List.forall_mem_singleton.mpr hmoved)
        · rename_i hnegative
          split
          · obtain ⟨hinner, hinside⟩ := hK.power.mp hbase
            have hfactors :=
              List.forall_mem_cons.mpr ⟨hinside, List.forall_mem_singleton.mpr hexponent⟩
            exact .after ((hproduct _ _ _ .one hfactors (List.forall_mem_nil _)).bind fun e he =>
              hpower _ _ hinner he)
          · -- the coefficient is raised to see whether its power is finite, and to multiply by it
            rename_i k c n d hwhole
            obtain ⟨hc, above, below⟩ := built_product.mp hbase
            have hraise := ensures_zpow hc (Bool.eq_false_iff.mpr hnegative) hwhole
            refine hraise.bind fun _ _ => ?_
            split
            · refine .after ((ensures_mapList fun e he =>
                hpower e _ (above e he) (hK.real _)).bind ?_)
              intro n hn
              refine (ensures_mapList fun e he =>
                hpower e _ (below e he) (hK.real _)).bind fun d hd => ?_
              exact hraise.bind fun c hc => hproduct c n d hc hn hd
            · exact ensures_pure (hK.power.mpr ⟨hbase, hexponent⟩)
          · exact ensures_pure (hK.power.mpr ⟨hbase, hexponent⟩)
    · rw [Logged.cancel]
      cases hcommon : Fraction.common? f.denominator f.numerator with
      | none => exact ensures_pure hf
      | some common =>
        obtain ⟨hrest, hbase, hupper, hlower⟩ := hK.heritable.without hf hcommon
        have restored (side : Side) {exponent : Expr α} (h : exponent.Everywhere BuiltNode) :
            (Logged.powerRule fuel common.base exponent >>= fun factor =>
              Logged.absorb side (f.without common) factor >>=
                Logged.cancel fuel).Ensures NotOverZero BuiltFraction :=
          (hpower _ _ hbase h).bind fun factor hfactor =>
            (ensures_absorb side hrest factor hfactor).bind fun f hf => hcancel f hf
        dsimp only
        refine .after ?_
        split
        · split
          · exact restored .above (hK.real _)
          · split
            · exact restored .below (hK.real _)
            · exact hcancel _ hrest
        · exact .after (restored .above (hK.difference (hupper trivial) (hlower trivial)))
    · rw [Logged.productRule]
      have hstart : BuiltFraction { coefficient := c } :=
        ⟨hc, fun h => absurd h Bool.false_ne_true, List.forall_mem_nil _, List.forall_mem_nil _⟩
      refine (ensures_absorbAll .above hstart n hn).bind fun f hf => ?_
      refine (ensures_absorbAll .below hf d hd).bind fun f hf => ?_
      exact (hcancel f hf).bind fun f hf => ensures_finish hf
    · have all {es : List (Expr α)} (hes : ∀ e ∈ es, e.Everywhere BuiltNode) :
          (Logged.mapList (Logged.simplify fuel) es).Ensures NotOverZero
            fun es => ∀ e ∈ es, e.Everywhere BuiltNode :=
        ensures_mapList fun e he => hsimplify e (hes e he)
      cases e with
      | sum as => exact (all (hK.sum.mp he)).bind fun es hes => ensures_liftM (hK.sumRule hes)
      | product c n d =>
        obtain ⟨hc, above, below⟩ := built_product.mp he
        exact (all above).bind fun n hn => (all below).bind fun d hd => hproduct c n d hc hn hd
      | power base exponent =>
        obtain ⟨hbase, hexponent⟩ := hK.power.mp he
        exact (hsimplify base hbase).bind fun base hbase =>
          (hsimplify exponent hexponent).bind fun exponent hexponent =>
            hpower base exponent hbase hexponent
      | log base body =>
        obtain ⟨hbase, hbody⟩ := hK.log.mp he
        exact (hsimplify base hbase).bind fun base hbase =>
          (hsimplify body hbody).bind fun body hbody => ensures_liftM (hK.logRule hbase hbody)
      | trig f body =>
        exact (hsimplify body (hK.trig.mp he)).bind fun body hbody =>
          ensures_liftM (hK.trigRule hbody)
      | var name => exact ensures_pure he
      | number v => exact ensures_pure he

/-! ## Like terms and like factors -/

/-- The coefficients of terms and what they scale are made without fractions over zero. -/
abbrev BuiltTerms (terms : List (Coefficient α × Expr α)) : Prop :=
  ∀ term ∈ terms, term.1.Built ∧ term.2.Everywhere BuiltNode

/-- Adding a term to those before it makes no fraction over zero. -/
theorem ensures_addTerm {c : Coefficient α} {key : Expr α} (hc : c.Built)
    (hkey : key.Everywhere BuiltNode) {terms : List (Coefficient α × Expr α)}
    (hterms : BuiltTerms terms) :
    (Logged.addTerm c key terms).Ensures NotOverZero BuiltTerms := by
  induction terms with
  | nil => exact ensures_pure (List.forall_mem_singleton.mpr ⟨hc, hkey⟩)
  | cons term terms ih =>
    obtain ⟨⟨hc₀, hkey₀⟩, hrest⟩ := List.forall_mem_cons.mp hterms
    rw [Logged.addTerm]
    split
    · exact (ensures_add hc₀ hc).bind fun total htotal =>
        ensures_pure (List.forall_mem_cons.mpr ⟨⟨htotal, hkey₀⟩, hrest⟩)
    · exact (ih hrest).bind fun rest hrest =>
        ensures_pure (List.forall_mem_cons.mpr ⟨⟨hc₀, hkey₀⟩, hrest⟩)

/-- Combining like terms makes no fraction over zero. -/
theorem ensures_mergeAddends {addends : List (Expr α)} (h : ∀ e ∈ addends, e.Everywhere BuiltNode) :
    (Logged.mergeAddends addends).Ensures NotOverZero
      fun es => ∀ e ∈ es, e.Everywhere BuiltNode := by
  have hterms : (Logged.likeTerms addends).Ensures NotOverZero BuiltTerms :=
    ensures_foldList (List.forall_mem_nil _) fun e he terms hterms =>
      (ensures_scaleParts (h e he)).bind fun parts hparts =>
        ensures_addTerm hparts.1 hparts.2 hterms
  refine hterms.bind fun terms hterms => .after (ensures_pure ?_)
  exact List.forall_mem_map.mpr fun term hterm =>
    hereditary_built.ofScaleParts (hterms term hterm).1 (hterms term hterm).2

/-- Raising a base to the sum of its exponents makes no fraction over zero. -/
theorem ensures_gatherPower {fuel : Nat} {base : Expr α} (hbase : base.Everywhere BuiltNode)
    {exponents : List (Expr α)} (h : ∀ e ∈ exponents, e.Everywhere BuiltNode) :
    (Logged.gatherPower fuel base exponents).Ensures NotOverZero (Everywhere BuiltNode) := by
  fun_cases Logged.gatherPower fuel base exponents with
  | case1 exponent =>
    refine ensures_pure ?_
    split
    · exact hbase
    · exact hereditary_built.power.mpr ⟨hbase, List.forall_mem_singleton.mp h⟩
  | case2 exponents _ =>
    exact .after ((ensures_rules fuel).1 _ _ hbase (hereditary_built.sumRule h))

/-- Combining like factors makes no fraction over zero. -/
theorem ensures_mergeFactors {fuel : Nat} {factors : List (Expr α)}
    (h : ∀ e ∈ factors, e.Everywhere BuiltNode) :
    (Logged.mergeFactors fuel factors).Ensures NotOverZero
      fun es => ∀ e ∈ es, e.Everywhere BuiltNode := by
  refine .after (ensures_mapList fun group hgroup => ?_)
  obtain ⟨-, hbase, hexponents⟩ := forall_likeFactors
    (fun e he => hereditary_built.powerParts e (h e he)) group hgroup
  exact ensures_gatherPower hbase hexponents

mutual

/-- Combining like terms and like factors at every node makes no fraction over zero. -/
theorem ensures_merge (fuel : Nat) (e : Expr α) (he : e.Everywhere BuiltNode) :
    (Logged.merge fuel e).Ensures NotOverZero (Everywhere BuiltNode) := by
  have hK := hereditary_built (α := α)
  cases e with
  | sum as =>
    refine (ensures_mergeList fuel as (hK.sum.mp he)).bind fun es hes => ?_
    exact (ensures_mergeAddends hes).bind fun es hes => ensures_pure (hK.sum.mpr hes)
  | product c n d =>
    obtain ⟨hc, above, below⟩ := built_product.mp he
    refine (ensures_mergeList fuel n above).bind fun n hn => ?_
    refine (ensures_mergeList fuel d below).bind fun d hd => ?_
    refine (ensures_mergeFactors hn).bind fun n hn => ?_
    exact (ensures_mergeFactors hd).bind fun d hd => ensures_pure (built_product.mpr ⟨hc, hn, hd⟩)
  | power base exponent =>
    obtain ⟨hbase, hexponent⟩ := hK.power.mp he
    exact (ensures_merge fuel base hbase).bind fun base hbase =>
      (ensures_merge fuel exponent hexponent).bind fun exponent hexponent =>
        ensures_pure (hK.power.mpr ⟨hbase, hexponent⟩)
  | log base body =>
    obtain ⟨hbase, hbody⟩ := hK.log.mp he
    exact (ensures_merge fuel base hbase).bind fun base hbase =>
      (ensures_merge fuel body hbody).bind fun body hbody =>
        ensures_pure (hK.log.mpr ⟨hbase, hbody⟩)
  | trig f body =>
    exact (ensures_merge fuel body (hK.trig.mp he)).bind fun body hbody =>
      ensures_pure (hK.trig.mpr hbody)
  | var name => exact ensures_pure he
  | number v => exact ensures_pure he

/-- Combining like terms and like factors at every node of some expressions makes no fraction over
zero. -/
theorem ensures_mergeList (fuel : Nat) (es : List (Expr α))
    (hes : ∀ e ∈ es, e.Everywhere BuiltNode) :
    (Logged.mergeList fuel es).Ensures NotOverZero fun es => ∀ e ∈ es, e.Everywhere BuiltNode := by
  cases es with
  | nil => exact ensures_pure (List.forall_mem_nil _)
  | cons e es =>
    rw [List.forall_mem_cons] at hes
    exact (ensures_merge fuel e hes.1).bind fun e he =>
      (ensures_mergeList fuel es hes.2).bind fun es hes =>
        ensures_pure (List.forall_mem_cons.mpr ⟨he, hes⟩)

end

end Rules

end Reduction

end SymbolicAlgebra
