import SymbolicAlgebra.Proofs.Expr.Reread
import SymbolicAlgebra.Proofs.Reduction.Cancelling
import SymbolicAlgebra.Proofs.Reduction.Fixpoint
import SymbolicAlgebra.Proofs.Scalar.LowestTerms

/-!
# Restoring what was written

Simplification makes a stable expression again of what its text is read as. The factors and divisors
that the parts of a coefficient and its sign have become are multiplied into the coefficient, a product
of divisors is taken apart, and everything else is stable already.
-/

namespace SymbolicAlgebra.Reduction

open SymbolicAlgebra.Expr Fraction

variable {α : Type} [Scalar α]

/-- Simplification makes the second expression of the first, under every bound that has room for the
first. -/
def Restores (r e : Expr α) : Prop := ∀ fuel, r.size + 2 ≤ fuel → (simplify fuel r).Returns e

/-- What an expression is restored to is what it is simplified to under the bound for its size. -/
theorem Restores.simplified {r e : Expr α} (h : Restores r e) : (simplified r).Returns e :=
  h _ (add_two_le_nestingBound r.size)

/-- What children are restored to is what simplification returns under a bound with room for their
parent. -/
theorem Restores.children (e : Expr α) {rs as : List (Expr α)} (h : List.Forall₂ Restores rs as)
    (hrs : rs ⊆ e.children) {fuel : Nat} (hfuel : e.size + 2 ≤ fuel + 1) :
    List.Forall₂ (fun r a => (simplify fuel r).Returns a) rs as := by
  refine ((List.forall₂_and_left _ _).mpr ⟨fun r hr => hrs hr, h⟩).imp
    fun r a hr => hr.2 fuel ?_
  have := size_lt_of_mem_children hr.1
  omega

/-- A sum is restored to what the rule for sums makes of its restored addends. -/
theorem restores_sum {rs as : List (Expr α)} (h : List.Forall₂ Restores rs as) :
    Restores (.sum rs) (sumRule as).value := by
  intro fuel hfuel
  obtain ⟨fuel, rfl⟩ := Nat.exists_eq_add_of_le' (Nat.le_of_add_left_le hfuel : 2 ≤ fuel)
  simp only [simplify, Reducing.returns_bind, Reducing.returns_mapList, Reducing.returns_liftM]
  exact ⟨as, Restores.children (.sum rs) h (List.Subset.refl _) hfuel, rfl⟩

/-- A product is restored to what the rule for products makes of its restored factors. -/
theorem restores_product {c : Coefficient α} {n d n' d' : List (Expr α)} {e : Expr α}
    (hn : List.Forall₂ Restores n n') (hd : List.Forall₂ Restores d d')
    (hrule : ∀ fuel, (productRule (fuel + 2) c n' d').Returns e) : Restores (.product c n d) e := by
  intro fuel hfuel
  have hroom : 3 ≤ fuel := by
    rw [size] at hfuel
    omega
  obtain ⟨fuel, rfl⟩ := Nat.exists_eq_add_of_le' hroom
  simp only [simplify, Reducing.returns_bind, Reducing.returns_mapList]
  exact ⟨n', Restores.children (.product c n d) hn (List.subset_append_left n d) hfuel, d',
    Restores.children (.product c n d) hd (List.subset_append_right n d) hfuel, hrule fuel⟩

/-- A power is restored if no rule applies to its restored parts. -/
theorem restores_power {a b a' b' : Expr α} (ha : Restores a a') (hb : Restores b b')
    (hnode : StableNode (.power a' b')) : Restores (.power a b) (.power a' b') := by
  intro fuel hfuel
  rw [size] at hfuel
  obtain ⟨fuel, rfl⟩ := Nat.exists_eq_add_of_le' (by omega : 2 ≤ fuel)
  rw [simplify]
  simp only [Reducing.returns_bind]
  exact ⟨a', ha _ (by omega), b', hb _ (by omega), powerRule_returns hnode fuel⟩

/-- A logarithm is restored to what its rule makes of its restored parts. -/
theorem restores_log {a b a' b' : Expr α} (ha : Restores a a') (hb : Restores b b') :
    Restores (.log a b) (logRule a' b').value := by
  intro fuel hfuel
  rw [size] at hfuel
  obtain ⟨fuel, rfl⟩ := Nat.exists_eq_add_of_le' (by omega : 1 ≤ fuel)
  rw [simplify]
  simp only [Reducing.returns_bind, Reducing.returns_liftM]
  exact ⟨a', ha _ (by omega), b', hb _ (by omega), rfl⟩

/-- A function is restored to what its rule makes of its restored body. -/
theorem restores_trig {f : Trig} {a a' : Expr α} (ha : Restores a a') :
    Restores (.trig f a) (trigRule f a').value := by
  intro fuel hfuel
  rw [size] at hfuel
  obtain ⟨fuel, rfl⟩ := Nat.exists_eq_add_of_le' (by omega : 1 ≤ fuel)
  rw [simplify]
  simp only [Reducing.returns_bind, Reducing.returns_liftM]
  exact ⟨a', ha _ (by omega), rfl⟩

/-- Numbers are restored to themselves. -/
theorem restores_number (v : Number α) : Restores (.number v) (.number v) := by
  intro fuel hfuel
  obtain ⟨fuel, rfl⟩ := Nat.exists_eq_add_of_le' (Nat.le_of_add_left_le hfuel : 2 ≤ fuel)
  simp [simplify]

/-- Variables are restored to themselves. -/
theorem restores_var (name : String) : Restores (.var name : Expr α) (.var name) := by
  intro fuel hfuel
  obtain ⟨fuel, rfl⟩ := Nat.exists_eq_add_of_le' (Nat.le_of_add_left_le hfuel : 2 ≤ fuel)
  simp [simplify]

section Lawful

variable [Scalar.Lawful α]

/-- Stable expressions are restored to themselves. -/
theorem Stable.restores {e : Expr α} (h : Stable e) : Restores e e :=
  fun _ hfuel => h.simplify_returns ((Nat.add_le_add_right e.depth_le_size 2).trans hfuel)

omit [Scalar.Lawful α] in
/-- The rule for products makes a stable product of whatever gathers to its coefficient and its
factors. -/
theorem StableProduct.returns_of_gather {c c' : Coefficient α} {n d n' d' : List (Expr α)}
    (h : StableProduct c n d) (hcoefficient : (gather c' n' d').coefficient = c)
    (hnumerator : (gather c' n' d').numerator = n) (hdivisors : (gather c' n' d').divisors = d)
    (hdenominator : (gather c' n' d').denominator ⊆ d) (fuel : Nat) :
    (productRule (fuel + 2) c' n' d').Returns (.product c n d) := by
  simp only [productRule, Reducing.returns_bind, Reducing.returns_liftM]
  refine ⟨_, rfl, _, rfl, gather c' n' d', ?_, ?_⟩
  · have hcommon : common? (gather c' n' d').denominator (gather c' n' d').numerator = none := by
      rw [hnumerator]
      exact common?_eq_none fun a ha b hb => h.apart a ha b (hdenominator hb)
    change (Reduction.cancel (fuel + 1) (gather c' n' d')).Returns _
    rw [Reduction.cancel, hcommon, Reducing.returns_pure]
  · rw [Fraction.finish_eq (hcoefficient ▸ h.coefficient), hcoefficient, hnumerator, hdivisors,
      sort_of_sorted h.sortedAbove, sort_of_sorted h.sortedBelow, h.assemble]

end Lawful

/-- Operands that are not a single one above the line are joined to a product. -/
theorem chain_eq_product {above below : List (Expr α)} (h : ∀ e, above = [e] → below ≠ []) :
    chain above below = .product .one above below := by
  rcases above with _ | ⟨a, _ | ⟨b, above⟩⟩
  · rfl
  · cases below with
    | nil => exact (h a rfl rfl).elim
    | cons b below => rfl
  · rfl

/-- There are no divisors only if the denominator is one and there were none before. -/
theorem of_rereadDivisors_eq_nil {c : Coefficient α} {d : List (Expr α)}
    (h : rereadDivisors c d = []) : Scalar.eq c.denom Scalar.one = true ∧ d = [] := by
  rw [rereadDivisors, List.append_eq_nil_iff] at h
  obtain ⟨hdenom, hgroup⟩ := h
  refine ⟨by simpa using hdenom, ?_⟩
  rcases d with _ | ⟨a, _ | ⟨b, d⟩⟩
  · rfl
  · cases hgroup
  · cases hgroup

/-- The expression is a factor that stands without parentheses: no sum, product or literal. -/
def Bare (e : Expr α) : Prop := e.isSum = false ∧ e.isProduct = false ∧ e.real? = none

/-- The opposite of a bare factor is the factor times minus one. -/
theorem Bare.neg {e : Expr α} (h : Bare e) : e.neg = scaled .minusOne e := by
  obtain ⟨hsum, hproduct, hliteral⟩ := h
  cases e with
  | sum as => cases hsum
  | product c n d => cases hproduct
  | number v =>
    cases v with
    | real v => cases hliteral
    | constant k => rfl
  | _ => rfl

/-- A bare factor is read as one. -/
theorem Bare.reread {e : Expr α} (h : Bare e) : Bare e.reread := by
  obtain ⟨hsum, hproduct, hliteral⟩ := h
  cases e with
  | sum as => cases hsum
  | product c n d => cases hproduct
  | number v => exact ⟨hsum, hproduct, hliteral⟩
  | power a b => rw [Expr.reread]; exact ⟨rfl, rfl, rfl⟩
  | log a b => rw [Expr.reread]; exact ⟨rfl, rfl, rfl⟩
  | trig f a => rw [Expr.reread]; exact ⟨rfl, rfl, rfl⟩
  | var name => exact ⟨rfl, rfl, rfl⟩

/-- Factors are taken in one after the other. -/
theorem absorbAll_cons (side : Side) (f : Fraction α) (e : Expr α) (es : List (Expr α)) :
    (absorbAll side f (e :: es)).value = (absorbAll side (absorb side f e).value es).value := rfl

section Signed

variable [Scalar.Signed α]

/-- A literal other than zero is multiplied or divided into the coefficient. -/
theorem absorb_real (side : Side) (f : Fraction α) {v : α} (hv : Scalar.eq v Scalar.zero = false) :
    (absorb side f (.real v)).value = f.scale side (.ofScalar v) := by
  rw [Expr.real, Number.literal, Scalar.unsignZero_of_ne hv, absorb, hv, Bool.and_false]
  rfl

/-- Minus one times a factor is multiplied into a coefficient and placed. -/
theorem absorb_scaled_minusOne {e : Expr α} (hproduct : e.isProduct = false)
    (hliteral : e.real? = none) :
    (absorb .above { coefficient := .one } (scaled .minusOne e)).value =
      { coefficient := .minusOne, numerator := [e] } := by
  have hfactors : ∀ x ∈ [e], x.isProduct = false ∧ x.real? = none := by simp [hproduct, hliteral]
  have hplace := absorbAll_factors .above ({ coefficient := .one * .minusOne } : Fraction α) hfactors
  rw [Coefficient.one_mul_minusOne] at hplace
  change (absorbAll .above ({ coefficient := .one * .minusOne } : Fraction α) [e]).value = _
  rw [Coefficient.one_mul_minusOne, hplace]
  rfl

/-- What a coefficient's numerator has become is multiplied into another coefficient, and the factors
are placed after it. -/
theorem absorbAll_rereadNumerator {c c₀ : Coefficient α} {v : α} {n : List (Expr α)}
    (hn : ∀ e ∈ n, e.isProduct = false ∧ e.real? = none) (hzero : c.isZero = false)
    (hminus : Scalar.eq c.numer (Scalar.ofInt (-1)) = true → n = [])
    (hscaled : c₀ * .ofScalar c.numer = ⟨v, Scalar.one⟩)
    (hone : c.numer = Scalar.one → c₀ = ⟨v, Scalar.one⟩) :
    (absorbAll .above ({ coefficient := c₀ } : Fraction α) (rereadNumerator c n)).value =
      { coefficient := ⟨v, Scalar.one⟩, numerator := n } := by
  have hnumber (es : List (Expr α)) (hes : ∀ e ∈ es, e.isProduct = false ∧ e.real? = none) :
      (absorbAll .above ({ coefficient := c₀ } : Fraction α) (real c.numer :: es)).value =
        { coefficient := ⟨v, Scalar.one⟩, numerator := es } := by
    rw [absorbAll_cons, absorb_real _ _ hzero, absorbAll_factors _ _ hes, Fraction.scale, hscaled]
    rfl
  cases n with
  | nil => exact hnumber [] hn
  | cons e es =>
    cases hsign : Scalar.eq c.numer (Scalar.ofInt (-1)) with
    | true => cases hminus hsign
    | false =>
      rw [rereadNumerator, hsign, if_neg Bool.false_ne_true]
      split
      · rename_i hnumer
        rw [absorbAll_factors _ _ hn, hone (Scalar.Signed.eq_of_eq_one _ hnumer)]
        rfl
      · exact hnumber (e :: es) hn

/-- Several divisors that make one product are taken apart again. -/
theorem absorbAll_groupDivisors {f : Fraction α} {d : List (Expr α)}
    (hd : ∀ e ∈ d, e.isProduct = false ∧ e.real? = none)
    (hone : f.coefficient / .one = f.coefficient) :
    (absorbAll .below f (groupDivisors d)).value = { f with denominator := f.denominator ++ d } := by
  match d, hd with
  | [], hd => exact absorbAll_factors .below f hd
  | [e], hd => exact absorbAll_factors .below f hd
  | a :: b :: d, hd =>
    have hzero : (Coefficient.one : Coefficient α).isZero = false := Scalar.Unital.eq_one_zero
    change (absorb .below f (.product .one (a :: b :: d) [])).value = _
    rw [absorb, hzero, Bool.and_false]
    change (absorbAll .below (f.scale .below .one) (a :: b :: d)).value = _
    rw [Fraction.scale, hone, absorbAll_factors .below _ hd]

/-- The divisors that the denominator of a coefficient and divisors have become are gathered to the
coefficient and the divisors. -/
theorem StableProduct.gather_rereadDivisors {c c₀ : Coefficient α} {n d above : List (Expr α)}
    (h : StableProduct c n d) (hlowest : c.LowestTerms)
    (habove : (absorbAll .above ({ coefficient := c₀ } : Fraction α) above).value =
      { coefficient := ⟨c.numer, Scalar.one⟩, numerator := n }) :
    (gather c₀ above (rereadDivisors c d)).coefficient = c ∧
      (gather c₀ above (rereadDivisors c d)).numerator = n ∧
      (gather c₀ above (rereadDivisors c d)).divisors = d ∧
      (gather c₀ above (rereadDivisors c d)).denominator ⊆ d := by
  have hdenom : gather c₀ above (rereadDivisors c d) =
      (absorbAll .below { coefficient := c, numerator := n } (groupDivisors d)).value := by
    rw [gather, habove, rereadDivisors]
    split
    · rename_i hone
      rw [List.nil_append, ← Scalar.Signed.eq_of_eq_one _ hone]
    · rw [List.singleton_append, absorbAll_cons, absorb_real _ _ hlowest.denom_ne_zero, Fraction.scale,
        hlowest.div_denom h.coefficient]
  rw [hdenom]
  obtain hd | rfl := h.divisors
  · rw [absorbAll_groupDivisors hd (hlowest.div_one h.coefficient)]
    exact ⟨rfl, rfl, rfl, List.Subset.refl d⟩
  · -- the zero below the line is remembered and put back
    have hzero : Scalar.eq (Scalar.unsignZero (Scalar.zero : α)) Scalar.zero = true :=
      Scalar.Lawful.eq_zero_of_order _ Std.ReflCmp.compare_self
    rw [groupDivisors, absorbAll_cons, Expr.zero, Expr.real, Number.literal, absorb, hzero]
    exact ⟨rfl, rfl, rfl, List.nil_subset _⟩

/-- Several divisors make a stable product. -/
theorem StableProduct.group {c : Coefficient α} {n d : List (Expr α)} {a b : Expr α}
    (h : StableProduct c n (a :: b :: d)) :
    StableProduct .one (a :: b :: d) [] where
  coefficient := Scalar.Unital.eq_one_zero
  sortedAbove := h.sortedBelow
  sortedBelow := .nil
  factors := h.divisors.resolve_right (by simp)
  divisors := .inl (by simp)
  notSum := by simp
  apart := by simp
  nonempty := by simp
  scaled := by simp

/-- Minus one times a bare factor is a stable product. -/
theorem Bare.stableProduct {e : Expr α} (h : Bare e) : StableProduct .minusOne [e] [] where
  coefficient := Scalar.Lawful.eq_minusOne_zero
  sortedAbove := List.pairwise_singleton _ _
  sortedBelow := .nil
  factors := by simpa using h.2
  divisors := .inl (by simp)
  notSum := by
    rintro as ⟨hsum, -⟩
    obtain rfl := List.singleton_inj.mp hsum
    cases h.1
  apart := by simp
  nonempty := by simp
  scaled := fun _ _ _ => Coefficient.isOne_minusOne

end Signed

end SymbolicAlgebra.Reduction
