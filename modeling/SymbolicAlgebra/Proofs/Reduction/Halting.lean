import SymbolicAlgebra.Proofs.Reduction.Fixpoint
import SymbolicAlgebra.Proofs.Reduction.Height
import SymbolicAlgebra.Proofs.Scalar.Signed

/-!
# Bounds that suffice

Simplification never reaches its bound on nested calls. Every call of a rule by another is on something
lighter or, where the weight stays the same, on a base with fewer levels or on an exponent closer to one
that is not negative any more. Since height and weight of everything on the way are bounded by those at
the start, so is the number of levels, and a unit of weight is worth a fixed number of calls.
-/

namespace SymbolicAlgebra.Reduction

open SymbolicAlgebra.Expr

variable {α : Type} [Scalar α]

section Signed

variable [Scalar.Signed α]

/-- Without its minus sign a number is not negative any more. -/
theorem lt_unsignZero_neg {v : α} (h : Scalar.lt v Scalar.zero = true) :
    Scalar.lt (Scalar.unsignZero (-v)) Scalar.zero = false := by
  have hzero : Scalar.eq (-v) Scalar.zero = false :=
    (Scalar.Lawful.eq_neg_zero v).trans (Scalar.Signed.eq_zero_of_neg v h)
  rw [Scalar.unsignZero_of_ne hzero]
  exact Scalar.Signed.lt_neg v h

/-- The opposite of a stable negative expression is simplified to one that is not negative. -/
theorem Stable.simplify_neg_returns {e : Expr α} (h : Stable e) (hneg : e.isNegative = true)
    {fuel : Nat} (hfuel : e.depth + 2 ≤ fuel) :
    ∃ e', (simplify fuel e.neg).Returns e' ∧ e'.isNegative = false := by
  obtain ⟨fuel, rfl⟩ := Nat.exists_eq_add_of_le' (Nat.le_of_add_left_le hfuel : 2 ≤ fuel)
  cases e with
  | number v =>
    cases v with
    | real v => exact ⟨real (-v), by simp [simplify, neg, real], lt_unsignZero_neg hneg⟩
    | constant c => cases hneg
  | product c n d =>
    have hdepth : 1 ≤ fuel := by
      rw [depth] at hfuel
      omega
    obtain ⟨fuel, rfl⟩ := Nat.exists_eq_add_of_le' hdepth
    have all {es : List (Expr α)} (hes : ∀ a ∈ es, a ∈ (Expr.product c n d).children) :
        List.Forall₂ (fun a b => (simplify (fuel + 2) a).Returns b) es es :=
      List.forall₂_same.mpr fun a ha => by
        have hstable : Stable a := h.child (hes a ha)
        have := depth_lt_of_mem_children (hes a ha)
        exact hstable.simplify_returns (by omega)
    obtain ⟨shape, -⟩ := stable_product.mp h
    have hc : (-c).isZero = false := by
      rw [Coefficient.isZero_neg]
      exact shape.coefficient
    have hnormal : NormalProduct (-c) n d := { shape.toNormalProduct with coefficient := hc }
    refine ⟨(Fraction.assemble (-c) n d).value, ?_, ?_⟩
    · simp only [neg, simplify, Reducing.returns_bind, Reducing.returns_mapList]
      exact ⟨n, all fun a ha => List.mem_append_left d ha, d,
        all fun a ha => List.mem_append_right n ha, productRule_returns hnormal fuel⟩
    · have outcome := Fraction.assembly (-c) n d
      generalize (Fraction.assemble (-c) n d).value = e' at outcome
      cases outcome with
      | sum _ => exact (shape.notSum _ ⟨rfl, rfl⟩).elim
      | distributed => exact (shape.notSum _ ⟨rfl, rfl⟩).elim
      | number => exact (shape.nonempty ⟨rfl, rfl⟩).elim
      | factor _ =>
        obtain ⟨hproduct, hliteral⟩ := shape.factors e' List.mem_cons_self
        cases e' with
        | product c n d => cases hproduct
        | number v =>
          cases v with
          | real v => cases hliteral
          | constant c => rfl
        | _ => rfl
      | product _ => exact lt_unsignZero_neg hneg
  | _ => cases hneg

end Signed

/-- The rule for powers stays within its bound if the calls that it makes do. -/
theorem halts_powerRule {fuel : Nat} {base exponent : Expr α}
    (relocate : exponent.isNegative = true → (simplify fuel exponent.neg).Halts ∧
      ∀ positive, (simplify fuel exponent.neg).Returns positive →
        (powerRule fuel base positive).Halts ∧
          ∀ moved, (powerRule fuel base positive).Returns moved →
            (productRule fuel .one [] [moved]).Halts)
    (nest : ∀ inner inside, base = .power inner inside →
      (productRule fuel .one [inside, exponent] []).Halts ∧
        ∀ folded, (productRule fuel .one [inside, exponent] []).Returns folded →
          (powerRule fuel inner folded).Halts)
    (spread : ∀ c n d (v : α), base = .product c n d →
      (∀ a ∈ n ++ d, (powerRule fuel a (.real v)).Halts) ∧
        ∀ c' n' d', List.Forall₂ (fun a b => (powerRule fuel a (.real v)).Returns b) n n' →
          List.Forall₂ (fun a b => (powerRule fuel a (.real v)).Returns b) d d' →
          (productRule fuel c' n' d').Halts) :
    (powerRule (fuel + 1) base exponent).Halts := by
  unfold powerRule
  cases plainPower? base exponent with
  | some found => exact Reducing.halts_lift
  | none =>
    cases hneg : exponent.isNegative with
    | true =>
      obtain ⟨hsimplify, hpower⟩ := relocate hneg
      exact Reducing.halts_liftM.bind fun _ _ => hsimplify.bind fun positive hpositive =>
        (hpower positive hpositive).1.bind fun moved hmoved =>
          (hpower positive hpositive).2 moved hmoved
    | false =>
      simp only [Bool.false_eq_true, if_false]
      split
      · obtain ⟨hproduct, hpower⟩ := nest _ _ rfl
        exact Reducing.halts_liftM.bind fun _ _ => hproduct.bind hpower
      · rename_i k c n d _
        split
        · obtain ⟨hpower, hproduct⟩ := spread c n d (Scalar.ofInt k) rfl
          rw [List.forall_mem_append] at hpower
          exact Reducing.halts_liftM.bind fun _ _ =>
            (Reducing.halts_mapList hpower.1).bind fun n' hn =>
              (Reducing.halts_mapList hpower.2).bind fun d' hd =>
                hproduct _ n' d' (Reducing.returns_mapList.mp hn) (Reducing.returns_mapList.mp hd)
        · exact Reducing.halts_pure
      · exact Reducing.halts_pure

/-- The cancellation stays within its bound if the calls that it makes do. -/
theorem halts_cancel {fuel : Nat} {f : Fraction α}
    (step : ∀ common side exponent,
      Fraction.common? f.denominator f.numerator = some common →
      exponent.weight ≤ common.upper.weight + common.lower.weight →
      exponent.height ≤ max common.upper.height common.lower.height + 1 →
      (powerRule fuel common.base exponent).Halts ∧
        ∀ factor, (powerRule fuel common.base exponent).Returns factor →
          (Reduction.cancel fuel (Fraction.absorb side (f.without common) factor).value).Halts)
    (both : ∀ common, Fraction.common? f.denominator f.numerator = some common →
      (Reduction.cancel fuel (f.without common)).Halts) :
    (Reduction.cancel (fuel + 1) f).Halts := by
  unfold Reduction.cancel
  cases hcommon : Fraction.common? f.denominator f.numerator with
  | none => exact Reducing.halts_pure
  | some common =>
    have restore (side : Side) (exponent : Expr α)
        (hweight : exponent.weight ≤ common.upper.weight + common.lower.weight)
        (hheight : exponent.height ≤ max common.upper.height common.lower.height + 1) :
        (powerRule fuel common.base exponent >>= fun factor =>
          liftM (Fraction.absorb side (f.without common) factor) >>= Reduction.cancel fuel).Halts := by
      obtain ⟨hpower, hcancel⟩ := step common side exponent hcommon hweight hheight
      refine hpower.bind fun factor hfactor => Reducing.halts_liftM.bind fun g hg => ?_
      rw [← Reducing.returns_liftM.mp hg]
      exact hcancel factor hfactor
    refine Reducing.halts_liftM.bind fun _ _ => ?_
    split
    · split
      · exact restore .above _ (Nat.zero_le _) (Nat.zero_le _)
      · split
        · exact restore .below _ (Nat.zero_le _) (Nat.zero_le _)
        · exact both common hcommon
    · refine Reducing.halts_liftM.bind fun exponent hexponent => ?_
      rw [← Reducing.returns_liftM.mp hexponent]
      exact restore .above _ (weight_difference_le _ _) (height_difference_le _ _)

/-- The rule for products stays within its bound if the cancellation does. -/
theorem halts_productRule {fuel : Nat} {c : Coefficient α} {n d : List (Expr α)}
    (h : (Reduction.cancel fuel (Fraction.absorbAll .below
      (Fraction.absorbAll .above ({ coefficient := c } : Fraction α) n).value d).value).Halts) :
    (productRule (fuel + 1) c n d).Halts := by
  rw [productRule]
  refine Reducing.halts_liftM.bind fun f hf => Reducing.halts_liftM.bind fun g hg => ?_
  obtain rfl := Reducing.returns_liftM.mp hf
  obtain rfl := Reducing.returns_liftM.mp hg
  exact h.bind fun _ _ => Reducing.halts_liftM

/-- Simplification stays within its bound if it does for the children and the rules for powers and
products do. -/
theorem halts_simplify {fuel : Nat} {e : Expr α}
    (below : ∀ child ∈ e.children, (simplify fuel child).Halts)
    (fraction : ∀ c n d n' d', e = .product c n d →
      List.Forall₂ (fun a b => (simplify fuel a).Returns b) n n' →
      List.Forall₂ (fun a b => (simplify fuel a).Returns b) d d' → (productRule fuel c n' d').Halts)
    (raise : ∀ base exponent base' exponent', e = .power base exponent →
      (simplify fuel base).Returns base' → (simplify fuel exponent).Returns exponent' →
      (powerRule fuel base' exponent').Halts) :
    (simplify (fuel + 1) e).Halts := by
  cases e with
  | sum as =>
    exact (Reducing.halts_mapList below).bind fun _ _ => Reducing.halts_liftM
  | product c n d =>
    rw [children, List.forall_mem_append] at below
    exact (Reducing.halts_mapList below.1).bind fun n' hn =>
      (Reducing.halts_mapList below.2).bind fun d' hd =>
        fraction c n d n' d' rfl (Reducing.returns_mapList.mp hn) (Reducing.returns_mapList.mp hd)
  | power base exponent =>
    rw [children, List.forall_mem_cons, List.forall_mem_singleton] at below
    exact below.1.bind fun base' hbase => below.2.bind fun exponent' hexponent =>
      raise base exponent base' exponent' rfl hbase hexponent
  | log base body =>
    rw [children, List.forall_mem_cons, List.forall_mem_singleton] at below
    exact below.1.bind fun _ _ => below.2.bind fun _ _ => Reducing.halts_liftM
  | trig f body =>
    rw [children, List.forall_mem_singleton] at below
    exact below.bind fun _ _ => Reducing.halts_liftM
  | var x => exact Reducing.halts_pure
  | number v => exact Reducing.halts_pure

/-- At most so many minus signs of an exponent are moved across the fraction line before it gets
lighter. -/
inductive Relocates : ℕ → Expr α → Prop
  | never {exponent : Expr α} : exponent.isNegative = false → Relocates 0 exponent
  | once {exponent : Expr α} : Stable exponent → Relocates 1 exponent
  | twice {exponent : Expr α} : Relocates 2 exponent

/-- The nested calls that a unit of weight is worth where heights are bounded. -/
def price (H : ℕ) : ℕ := 8 * H + 16

/-- A unit of weight less saves the calls that it is worth. -/
theorem price_mul_succ_le {H w w' : ℕ} (h : w' < w) : price H * w' + price H ≤ price H * w :=
  Nat.mul_le_mul_left (price H) h

/-- The bound on nested calls suffices for everything within the bound on heights that has too little
weight and too few levels to reach it. -/
structure Suffices (H fuel : ℕ) : Prop where
  power {base exponent : Expr α} {n : ℕ} : Relocates n exponent →
    max base.height exponent.height + 1 + 3 * (base.heft + exponent.weight) ≤ H →
    price H * (base.heft + exponent.weight) + 3 * base.depth + n + 2 ≤ fuel →
    (powerRule fuel base exponent).Halts
  cancel {f : Fraction α} : f.height + 3 * f.load ≤ H → price H * f.load + 1 ≤ fuel →
    (Reduction.cancel fuel f).Halts
  product {c : Coefficient α} {n d : List (Expr α)} :
    max (highest height n) (highest height d) + 3 * ((n.map weight).sum + (d.map heft).sum) ≤ H →
    price H * ((n.map weight).sum + (d.map heft).sum) + 2 ≤ fuel → (productRule fuel c n d).Halts
  simplify {e : Expr α} : e.height + 3 * e.weight ≤ H →
    price H * e.weight + e.depth + 6 * H + 10 ≤ fuel → (Reduction.simplify fuel e).Halts

omit [Scalar α] in
/-- An expression has at most two levels for each unit of its height, and two more. -/
theorem depth_le_of_height_le {e : Expr α} {H : ℕ} (h : e.height ≤ H) : e.depth ≤ 2 * H + 2 := by
  have hdepth := e.depth_le_height
  have := e.isProduct.toNat_le
  omega

variable [Scalar.Signed α]

/-- What a relocated exponent is simplified to weighs less, or has fewer minus signs to move. -/
theorem Relocates.step {exponent positive : Expr α} {n fuel : ℕ} (h : Relocates n exponent)
    (hneg : exponent.isNegative = true) (hfuel : exponent.depth + 2 ≤ fuel)
    (hpositive : (simplify fuel exponent.neg).Returns positive) :
    positive.weight < exponent.weight ∨ ∃ m < n, Relocates m positive := by
  cases h with
  | never hnever =>
    rw [hneg] at hnever
    cases hnever
  | once hstable =>
    obtain ⟨e, he, hnever⟩ := hstable.simplify_neg_returns hneg hfuel
    obtain rfl := he.unique hpositive
    exact .inr ⟨0, Nat.one_pos, .never hnever⟩
  | twice =>
    obtain ⟨hle, hstable⟩ := stable_closed.simplify_returns hpositive
    rw [weight_neg] at hle hstable
    obtain hlt | heq := hle.lt_or_eq
    · exact .inl hlt
    · exact .inr ⟨1, Nat.lt_succ_self 1, .once (hstable heq)⟩

namespace Suffices

variable {H fuel : ℕ}

/-- The calls of the power rule where it moves a power with a negative exponent below the fraction
line. -/
theorem power_relocated (ih : Suffices (α := α) H fuel) {base exponent : Expr α} {n : ℕ}
    (hn : Relocates n exponent) (hneg : exponent.isNegative = true)
    (hheight : max base.height exponent.height + 1 + 3 * (base.heft + exponent.weight) ≤ H)
    (hfuel : price H * (base.heft + exponent.weight) + 3 * base.depth + n + 1 ≤ fuel) :
    (Reduction.simplify fuel exponent.neg).Halts ∧
      ∀ positive, (Reduction.simplify fuel exponent.neg).Returns positive →
        (powerRule fuel base positive).Halts ∧
          ∀ moved, (powerRule fuel base positive).Returns moved →
            (productRule fuel .one [] [moved]).Halts := by
  have hone := one_le_heft base
  have hlevels := one_le_depth base
  have hprice : price H = 8 * H + 16 := rfl
  have hdepth := depth_le_of_height_le (by omega : exponent.height ≤ H)
  have hnegDepth : exponent.neg.depth ≤ 2 * H + 2 :=
    depth_le_of_height_le (by rw [height_neg]; omega)
  have hlighter := price_mul_succ_le (H := H)
    (by omega : exponent.weight < base.heft + exponent.weight)
  refine ⟨ih.simplify ?_ ?_, fun positive hpositive => ?_⟩
  · rw [height_neg, weight_neg]
    omega
  · rw [weight_neg]
    omega
  obtain ⟨hweight, hhigh⟩ := height_closed.simplify_returns hpositive
  rw [weight_neg] at hweight
  rw [weight_neg, height_neg] at hhigh
  refine ⟨?_, fun moved hmoved => ?_⟩
  · obtain hlt | ⟨m, hm, hrelocates⟩ := hn.step hneg (by omega) hpositive
    · have := price_mul_succ_le (H := H)
        (by omega : base.heft + positive.weight < base.heft + exponent.weight)
      exact ih.power .twice (by omega) (by omega)
    · have := Nat.mul_le_mul_left (price H)
        (by omega : base.heft + positive.weight ≤ base.heft + exponent.weight)
      exact ih.power hrelocates (by omega) (by omega)
  · obtain ⟨hmovedWeight, hmovedHigh⟩ := (height_closed.power_returns hmoved).heft
    have := Nat.mul_le_mul_left (price H)
      (by omega : moved.heft ≤ base.heft + exponent.weight)
    refine ih.product ?_ ?_
    · simp only [List.map_nil, List.sum_nil, List.map_singleton, List.sum_singleton, highest_nil,
        highest_singleton]
      omega
    · simp only [List.map_nil, List.sum_nil, List.map_singleton, List.sum_singleton, Nat.zero_add]
      omega

/-- The calls of the power rule where it multiplies the exponents of a power of a power. -/
theorem power_nested (ih : Suffices (α := α) H fuel) {inner inside exponent : Expr α}
    (hheight : max (Expr.power inner inside).height exponent.height + 1 +
      3 * ((Expr.power inner inside).heft + exponent.weight) ≤ H)
    (hfuel : price H * ((Expr.power inner inside).heft + exponent.weight) +
      3 * (Expr.power inner inside).depth + 1 ≤ fuel) :
    (productRule fuel .one [inside, exponent] []).Halts ∧
      ∀ folded, (productRule fuel .one [inside, exponent] []).Returns folded →
        (powerRule fuel inner folded).Halts := by
  have hone := one_le_heft inner
  have hlevels := one_le_depth inner
  have hpower := weight_le_heft (.power inner inside)
  have hdepth : inner.depth < (Expr.power inner inside).depth :=
    depth_lt_of_mem_children (by simp [children])
  rw [Expr.height] at hheight
  rw [weight_power] at hpower
  refine ⟨ih.product ?_ ?_, fun folded hfolded => ?_⟩
  · simp only [List.map_cons, List.map_nil, List.sum_cons, List.sum_nil, highest_nil, highest_cons]
    omega
  · simp only [List.map_cons, List.map_nil, List.sum_cons, List.sum_nil]
    have := Nat.mul_le_mul_left (price H) (by omega : inside.weight + (exponent.weight + 0) + 0 ≤
      (Expr.power inner inside).heft + exponent.weight)
    omega
  · obtain ⟨hweight, hhigh⟩ := height_closed.product_returns hfolded
    simp only [List.map_cons, List.map_nil, List.sum_cons, List.sum_nil, highest_nil, highest_cons]
      at hweight hhigh
    have := Nat.mul_le_mul_left (price H) (by omega : inner.heft + folded.weight ≤
      (Expr.power inner inside).heft + exponent.weight)
    exact ih.power .twice (by omega) (by omega)

/-- The calls of the power rule where it takes the powers of all factors of a product. -/
theorem power_spread (ih : Suffices (α := α) H fuel) {c : Coefficient α}
    {n d : List (Expr α)} {exponent : Expr α} (v : α)
    (hheight : max (Expr.product c n d).height exponent.height + 1 +
      3 * ((Expr.product c n d).heft + exponent.weight) ≤ H)
    (hfuel : price H * ((Expr.product c n d).heft + exponent.weight) +
      3 * (Expr.product c n d).depth + 1 ≤ fuel) :
    (∀ a ∈ n ++ d, (powerRule fuel a (.real v)).Halts) ∧
      ∀ c' n' d', List.Forall₂ (fun a b => (powerRule fuel a (.real v)).Returns b) n n' →
        List.Forall₂ (fun a b => (powerRule fuel a (.real v)).Returns b) d d' →
        (productRule fuel c' n' d').Halts := by
  have hlevels := one_le_depth (.product c n d)
  have hfactors := weight_le_heft (.product c n d)
  refine ⟨fun a ha => ?_, fun c' n' d' hn hd => ?_⟩
  · have hdepth : a.depth < (Expr.product c n d).depth := depth_lt_of_mem_children ha
    have hhigh : a.height ≤ (Expr.product c n d).height := height_le_of_mem_children ha
    have hheft : a.heft ≤ (Expr.product c n d).heft :=
      max_le_max_left 1 (weight_le_of_mem_children ha)
    have hflat : (real v).height = 0 := rfl
    have hlight := weight_real v
    have := Nat.mul_le_mul_left (price H) (by omega : a.heft + (real v).weight ≤
      (Expr.product c n d).heft + exponent.weight)
    exact ih.power .twice (by omega) (by omega)
  · rw [weight_product] at hfactors
    rw [height_product] at hheight
    obtain ⟨hweight, hhigh⟩ := confined_factors
      (confined_raised (hn.imp fun _ _ => height_closed.power_returns))
      (confined_raised (hd.imp fun _ _ => height_closed.power_returns))
    have := Nat.mul_le_mul_left (price H) (by omega : (n'.map weight).sum + (d'.map heft).sum ≤
      (Expr.product c n d).heft + exponent.weight)
    exact ih.product (by omega) (by omega)

/-- One more nested call of the power rule. -/
theorem power_succ (ih : Suffices (α := α) H fuel) {base exponent : Expr α} {n : ℕ}
    (hn : Relocates n exponent)
    (hheight : max base.height exponent.height + 1 + 3 * (base.heft + exponent.weight) ≤ H)
    (hfuel : price H * (base.heft + exponent.weight) + 3 * base.depth + n + 2 ≤ fuel + 1) :
    (powerRule (fuel + 1) base exponent).Halts := by
  refine halts_powerRule (fun hneg => ih.power_relocated hn hneg hheight (by omega)) ?_ ?_
  · rintro inner inside rfl
    exact ih.power_nested hheight (by omega)
  · rintro c n d v rfl
    exact ih.power_spread v hheight (by omega)

/-- One more nested call of the cancellation. -/
theorem cancel_succ (ih : Suffices (α := α) H fuel) {f : Fraction α}
    (hheight : f.height + 3 * f.load ≤ H) (hfuel : price H * f.load + 1 ≤ fuel + 1) :
    (Reduction.cancel (fuel + 1) f).Halts := by
  have hprice : price H = 8 * H + 16 := rfl
  refine halts_cancel (fun common side exponent hcommon hweight hexponent => ?_) fun common hcommon => ?_
  · have hwithout := Fraction.load_without hcommon
    have hbase := one_le_heft common.base
    obtain ⟨hrest, hbaseHigh, hupper, hlower⟩ := Fraction.height_without_le hcommon
    have hdepth := depth_le_of_height_le (by omega : common.base.height ≤ H)
    have := price_mul_succ_le (H := H) (by omega : common.base.heft + exponent.weight < f.load)
    refine ⟨ih.power .twice (by omega) (by omega), fun factor hfactor => ?_⟩
    have hconfined := height_closed.power_returns hfactor
    have hhigh := height_restored_le hcommon side hweight hexponent hconfined
    have hload := load_restored_lt hcommon side (hconfined.1.trans (by omega))
    have := price_mul_succ_le (H := H) hload
    exact ih.cancel (by omega) (by omega)
  · have hwithout := Fraction.load_without hcommon
    have hbase := one_le_heft common.base
    have hhigh := (Fraction.height_without_le hcommon).1
    have := price_mul_succ_le (H := H) (by omega : (f.without common).load < f.load)
    exact ih.cancel (by omega) (by omega)

omit [Scalar.Signed α] in
/-- One more nested call of the rule for products. -/
theorem product_succ (ih : Suffices (α := α) H fuel) {c : Coefficient α} {n d : List (Expr α)}
    (hheight : max (highest height n) (highest height d) +
      3 * ((n.map weight).sum + (d.map heft).sum) ≤ H)
    (hfuel : price H * ((n.map weight).sum + (d.map heft).sum) + 2 ≤ fuel + 1) :
    (productRule (fuel + 1) c n d).Halts := by
  have hload := Fraction.load_absorbed c n d
  have hhigh := Fraction.height_absorbed c n d
  have := Nat.mul_le_mul_left (price H) hload
  exact halts_productRule (ih.cancel (by omega) (by omega))

/-- One more nested call of the pass that applies all rules. -/
theorem simplify_succ (ih : Suffices (α := α) H fuel) {e : Expr α}
    (hheight : e.height + 3 * e.weight ≤ H)
    (hfuel : price H * e.weight + e.depth + 6 * H + 10 ≤ fuel + 1) :
    (Reduction.simplify (fuel + 1) e).Halts := by
  refine halts_simplify (fun child hchild => ?_) ?_ ?_
  · have hdepth := depth_lt_of_mem_children hchild
    have hweight := weight_le_of_mem_children hchild
    have hhigh := height_le_of_mem_children hchild
    have := Nat.mul_le_mul_left (price H) hweight
    exact ih.simplify (by omega) (by omega)
  · rintro c n d n' d' rfl hn hd
    obtain ⟨hweight, hhigh⟩ := confined_factors
      (confined_asFactor (hn.imp fun _ _ => height_closed.simplify_returns))
      (confined_asFactor (hd.imp fun _ _ => height_closed.simplify_returns))
    rw [height_product, weight_product] at hheight
    rw [weight_product] at hfuel
    have := Nat.mul_le_mul_left (price H) (by omega : (n'.map weight).sum + (d'.map heft).sum ≤
      max 1 ((n.map heft).sum + (d.map heft).sum))
    exact ih.product (by omega) (by omega)
  · rintro base exponent base' exponent' rfl hbase hexponent
    obtain ⟨hbaseWeight, hbaseHigh⟩ := (height_closed.simplify_returns hbase).heft
    obtain ⟨hexponentWeight, hexponentHigh⟩ := height_closed.simplify_returns hexponent
    rw [← Expr.heft] at hbaseWeight hbaseHigh
    rw [Expr.height, weight_power] at hheight
    rw [weight_power] at hfuel
    have hdepth := depth_le_of_height_le (by omega : base'.height ≤ H)
    have := Nat.mul_le_mul_left (price H)
      (by omega : base'.heft + exponent'.weight ≤ base.heft + exponent.weight)
    have hlevels := one_le_depth (.power base exponent)
    exact ih.power .twice (by omega) (by omega)

end Suffices

/-- The bound always suffices for what cannot reach it. -/
theorem suffices_all (H fuel : ℕ) : Suffices (α := α) H fuel := by
  induction fuel with
  | zero =>
    exact {
      power := fun _ _ h => by omega
      cancel := fun _ h => by omega
      product := fun _ h => by omega
      simplify := fun _ h => by omega }
  | succ fuel ih =>
    exact {
      power := ih.power_succ
      cancel := ih.cancel_succ
      product := ih.product_succ
      simplify := ih.simplify_succ }

omit [Scalar α] [Scalar.Signed α] in
/-- Height and weight of an expression are bounded by the number of its nodes. -/
theorem height_add_weight_le_size (e : Expr α) : e.height + 3 * e.weight ≤ 4 * e.size := by
  have hheight := (e.height_le_rise.trans e.rise_le_depth).trans e.depth_le_size
  have hweight := e.weight_le_heft.trans e.heft_le_size
  omega

omit [Scalar α] [Scalar.Signed α] in
/-- The bound for the number of nodes is more than an expression can reach. -/
theorem le_nestingBound (e : Expr α) :
    price (4 * e.size) * e.weight + e.depth + 6 * (4 * e.size) + 10 ≤ nestingBound e.size := by
  have hdepth := e.depth_le_size
  have hweight := Nat.mul_le_mul_left (price (4 * e.size)) (e.weight_le_heft.trans e.heft_le_size)
  rw [nestingBound, Nat.pow_eq]
  rw [price] at *
  nlinarith [Nat.zero_le (e.size ^ 3), Nat.zero_le (e.size ^ 2)]

/-- Simplification stays within the bound for the number of nodes. -/
theorem simplified_halts (e : Expr α) : (simplified e).Halts :=
  (suffices_all (4 * e.size) _).simplify (height_add_weight_le_size e) (le_nestingBound e)

end SymbolicAlgebra.Reduction
