import SymbolicAlgebra.Proofs.Exact.Settling
import SymbolicAlgebra.Proofs.Exclusion.Tidy

/-!
# Clauses over exact numbers

A clause that holds where its operand is defined holds there once it is tidied, as long as tidying
drops no coefficient of its operand and takes the value from it by no power of zero. The clauses that
a node contributes hold where the node breaks the condition that they record.
-/

namespace SymbolicAlgebra

open Exact Projective

variable {b : Bindings Exact} {limits : Limits}

namespace Expr

/-- A literal has its value everywhere. -/
theorem value_of_real? {e : Expr Exact} {x : Exact} (h : e.real? = some x) :
    e.value b = .ok x := by
  cases e with
  | number v =>
    cases v with
    | real y =>
      cases h
      rfl
    | constant c => cases h
  | _ => cases h

/-- A defined expression has a number as its value, and means it. -/
theorem Defined.exists_value {e : Expr Exact} (h : e.Defined b) :
    ∃ r : ℝ, e.value b = .ok (.number r) ∧ e.meaning b = finite r := by
  obtain ⟨r, hr⟩ := h.root
  exact ⟨r, hr, meaning_of_defined e h hr⟩

/-- A sum of defined expressions is defined. -/
theorem defined_sum {as : List (Expr Exact)} (h : ∀ a ∈ as, a.Defined b) :
    (sum as).Defined b := by
  refine everywhere_iff.mpr ⟨?_, h⟩
  obtain ⟨rs, hrs⟩ := values_of_valued fun a ha => (h a ha).root
  refine ⟨rs.sum, ?_⟩
  rw [value, hrs]
  refine congrArg Except.ok (ofExact_injective ?_)
  rw [ofExact_sumValue, sum_numbers, ofExact_number]

/-- The addends of a defined expression are defined. -/
theorem Defined.addends {e : Expr Exact} (h : e.Defined b) : ∀ a ∈ e.addends, a.Defined b := by
  cases e with
  | sum as => exact fun a ha => h.child ha
  | _ => exact List.forall_mem_singleton.mpr h

/-- Expressions that are built alike are defined at the same points, with the same values. -/
theorem defined_congruence :
    Congruence fun x y : Expr Exact => x.value b = y.value b ∧ (x.Defined b ↔ y.Defined b) := by
  have hnode {x y : Expr Exact} (hvalue : x.value b = y.value b)
      (h : (∀ z ∈ x.children, z.Defined b) ↔ ∀ z ∈ y.children, z.Defined b) :
      x.value b = y.value b ∧ (x.Defined b ↔ y.Defined b) := by
    refine ⟨hvalue, ?_⟩
    rw [Defined, everywhere_iff, Defined, everywhere_iff, Valued, Valued, hvalue]
    exact and_congr_right fun _ => h
  have hlist {es es' : List (Expr Exact)} (h : List.Forall₂ (fun x y : Expr Exact =>
      x.value b = y.value b ∧ (x.Defined b ↔ y.Defined b)) es es') :
      List.Forall₂ (fun x y : Expr Exact => x.value b = y.value b) es es' ∧
        ((∀ z ∈ es, z.Defined b) ↔ ∀ z ∈ es', z.Defined b) := by
    induction h with
    | nil => exact ⟨.nil, Iff.rfl⟩
    | cons h _ ih =>
      rw [List.forall_mem_cons, List.forall_mem_cons]
      exact ⟨.cons h.1 ih.1, and_congr h.2 ih.2⟩
  exact {
    sum h := hnode (value_congruence.sum (hlist h).1) (hlist h).2
    product hc hn hd := by
      refine hnode (value_congruence.product hc (hlist hn).1 (hlist hd).1) ?_
      rw [children, children, List.forall_mem_append, List.forall_mem_append]
      exact and_congr (hlist hn).2 (hlist hd).2
    power ha he := hnode (value_congruence.power ha.1 he.1) (by simp [children, ha.2, he.2])
    log ha he := hnode (value_congruence.log ha.1 he.1) (by simp [children, ha.2, he.2])
    trig ha := hnode (value_congruence.trig ha.1) (by simp [children, ha.2])
    var x := ⟨rfl, Iff.rfl⟩
    number h := hnode (value_congruence.number h) Iff.rfl }

end Expr

namespace Clause

open SymbolicAlgebra.Expr Reduction

/-- Clauses that count as equal hold at the same points, and their operands are defined at the same
points. -/
theorem holds_congr {c c' : Clause Exact} (h : (c == c') = true) :
    c.holds b = c'.holds b ∧ (c.operand.Defined b ↔ c'.operand.Defined b) := by
  obtain ⟨operand, modulus, comparator, threshold⟩ := c
  obtain ⟨operand', modulus', comparator', threshold'⟩ := c'
  obtain ⟨hoperand, hmodulus, hcomparator, hthreshold⟩ := parts_of_order_eq (beq_iff.mp h)
  obtain ⟨hvalue, hdefined⟩ := defined_congruence.of_order_eq operand operand' hoperand
  refine ⟨?_, hdefined⟩
  have htest (v : Exact) : test ⟨operand, modulus, comparator, threshold⟩ v =
      test ⟨operand', modulus', comparator', threshold'⟩ v := by
    cases hcomparator
    cases modulus with
    | none =>
      cases modulus' with
      | none => simp only [test, Number.value_eq_of_order_eq hthreshold]
      | some _ => cases hmodulus
    | some m =>
      cases modulus' with
      | none => cases hmodulus
      | some m' =>
        have hm : m.value = m'.value := Number.value_eq_of_order_eq hmodulus
        simp only [test, Number.value_eq_of_order_eq hthreshold, hm]
  simp only [holds, hvalue, htest]

/-- A power to a positive exponent is zero where its base is. -/
theorem base_of_power {x : Exact} {r e : ℝ} (he : 0 < e)
    (h : powerValue x (.number e) = .number r) : ∃ s : ℝ, x = .number s ∧ (r = 0 ↔ s = 0) := by
  cases x with
  | missing => simp [powerValue, Scalar.pow, Exact.power, he.ne'] at h
  | number a =>
    refine ⟨a, rfl, ?_⟩
    have hpower := congrArg ofExact h
    rw [ofExact_powerValue, ofExact_number, finitePart_eq_finite] at hpower
    obtain ha | rfl | ha := lt_trichotomy a 0
    · by_cases hwhole : Whole e
      · obtain ⟨n, rfl⟩ := hwhole
        rw [realPower_intCast ha.ne, finite.injEq] at hpower
        rw [← hpower]
        exact iff_of_false (zpow_ne_zero n ha.ne) ha.ne
      · rw [realPower_of_not_whole ha hwhole] at hpower
        cases hpower
    · rw [realPower_zero_of_pos he, finite.injEq] at hpower
      exact iff_of_true hpower.symm rfl
    · rw [realPower_of_pos ha, finite.injEq] at hpower
      rw [← hpower]
      exact iff_of_false (Real.rpow_pos_of_pos ha e).ne' ha.ne'

/-- A product of one factor and a coefficient other than zero is zero where its factor is. -/
theorem factor_of_product {c : Coefficient Exact} {x : Exact} {r : ℝ} (hc : c.isZero = false)
    (h : productValue c [x] [] = .number r) : ∃ s : ℝ, x = .number s ∧ (r = 0 ↔ s = 0) := by
  have hproduct := congrArg ofExact h
  rw [ofExact_productValue, ofExact_number, finitePart_eq_finite, List.map_singleton,
    List.prod_singleton, List.map_nil, List.prod_nil, inv_one, mul_one] at hproduct
  cases x with
  | missing =>
    rw [ofExact_missing, mul_absent] at hproduct
    cases hproduct
  | number s =>
    refine ⟨s, rfl, ?_⟩
    obtain ⟨n, d⟩ := c
    change ofExact (n / d) * _ = _ at hproduct
    obtain ⟨n, d, rfl, rfl, hd⟩ | rfl | rfl | rfl := Coefficient.fraction_cases n d
    · have hn : n ≠ 0 := by
        rintro rfl
        simp [Coefficient.isZero] at hc
      rw [number_div hd, ofExact_number, ofExact_number, finite_mul_finite, finite.injEq] at hproduct
      rw [← hproduct, mul_eq_zero_iff_left (div_ne_zero hn hd)]
    · simp at hproduct
    · simp at hproduct
    · simp at hproduct

/-- In normal form, what decides whether an expression is zero is zero where the expression is. -/
theorem Core.value_eq_zero_iff {e core : Expr Exact} (h : Core e core) (hnormal : e.Normal) {r : ℝ}
    (hr : e.value b = .ok (.number r)) :
    ∃ s : ℝ, core.value b = .ok (.number s) ∧ (r = 0 ↔ s = 0) := by
  induction h generalizing r with
  | refl => exact ⟨r, hr, Iff.rfl⟩
  | @power base exponent core hpositive _ ih =>
    rw [isPositive] at hpositive
    split at hpositive
    · rename_i v hv
      obtain ⟨z, x, hz, rfl, hx⟩ := lt_iff.mp hpositive
      rw [Exact.zero_eq] at hz
      cases hz
      rw [value] at hr
      obtain ⟨w, hw, hr⟩ := ok_of_bind hr
      rw [value_of_real? hv] at hr
      obtain ⟨s, rfl, hs⟩ := base_of_power hx (Except.ok.inj hr)
      obtain ⟨t, ht, hst⟩ := ih (normal_power.mp hnormal).2.1 hw
      exact ⟨t, ht, hs.trans hst⟩
    · cases hpositive
  | @product c e core _ ih =>
    obtain ⟨hnode, habove, -⟩ := normal_product.mp hnormal
    rw [value, values, values, values] at hr
    obtain ⟨vs, hvs, hr⟩ := ok_of_bind hr
    obtain ⟨w, hw, hvs⟩ := ok_of_bind hvs
    cases hvs
    obtain ⟨s, rfl, hs⟩ := factor_of_product hnode.coefficient (Except.ok.inj hr)
    obtain ⟨t, ht, hst⟩ := ih (habove e List.mem_cons_self) hw
    exact ⟨t, ht, hs.trans hst⟩

/-- A clause that asks whether its operand is zero does not tell apart what is zero alike. -/
theorem test_congr_of_testsZero {c : Clause Exact} (h : c.testsZero = true) {r s : ℝ}
    (hrs : r = 0 ↔ s = 0) : c.test (.number r) = c.test (.number s) := by
  obtain ⟨operand, modulus, comparator, threshold⟩ := c
  rw [testsZero, Bool.and_eq_true, Bool.and_eq_true, Option.isNone_iff_eq_none, beq_iff_eq] at h
  obtain ⟨⟨hmodulus, hthreshold⟩, hcomparator⟩ := h
  have hzero : threshold.value = .number 0 := by
    rw [Number.value_eq_of_order_eq hthreshold]
    simp [Number.literal, Number.value]
  simp only at hmodulus
  cases comparator <;> simp_all [test, Scalar.isNaN]

/-- Tidying the clause drops no coefficient and rounds no logarithm, and where it raises zero to a negative
power it leaves the operand a value all the same. -/
structure Kept (limits : Limits) (b : Bindings Exact) (c : Clause Exact) : Prop where
  lossless : LosslessRun limits c.operand
  powers : ∀ e, canonicalForm limits c.operand = .ok e → (∃ x ∈ e.postOrder, x.ZeroPower b) →
    e.Valued b

/-- Tidying leaves a defined operand its value, if it keeps the clause. -/
theorem Kept.value_eq {c : Clause Exact} (h : c.Kept limits b) (hdefined : c.operand.Defined b)
    {r : ℝ} (hr : c.operand.value b = .ok (.number r)) {e : Expr Exact}
    (he : canonicalForm limits c.operand = .ok e) : e.value b = .ok (.number r) := by
  obtain hsame | ⟨hmissing, hpower⟩ := value_canonicalForm he h.lossless hdefined hr
  · exact hsame
  · obtain ⟨s, hs⟩ := h.powers e he hpower
    rw [hmissing] at hs
    cases hs

/-- A clause holds when it is tidied where it holds before, if tidying keeps it. -/
theorem Kept.holds_tidy {c c' : Clause Exact} (h : c.Kept limits b) (hdefined : c.operand.Defined b)
    (hholds : c.holds b = .ok true) (htidy : c.tidy limits = .ok c') : c'.holds b = .ok true := by
  obtain ⟨r, hr⟩ := hdefined.root
  rw [holds, hr] at hholds
  have htest : c.test (.number r) = true := Except.ok.inj hholds
  obtain ⟨e, he, rfl⟩ := of_tidy htidy
  have hsame : e.value b = .ok (.number r) := h.value_eq hdefined hr he
  by_cases hzero : c.testsZero = true
  · obtain ⟨stages, hrun⟩ := settling_of_canonicalForm he
    obtain ⟨second, hlast⟩ := hrun.simplified
    obtain ⟨s, hs, hrs⟩ := (core_zeroCore e).value_eq_zero_iff (simplify_normal hlast) hsame
    rw [holds, if_pos hzero, hs]
    rw [test_congr_of_testsZero hzero hrs] at htest
    exact congrArg Except.ok htest
  · rw [holds, if_neg hzero, hsame]
    exact congrArg Except.ok htest

end Clause

end SymbolicAlgebra
