import SymbolicAlgebra.Proofs.Exact.Meaning
import SymbolicAlgebra.Proofs.Reduction.Outcomes

/-!
# Rules for sums and functions keep what they mean

Adding up literals and dropping zeros does not change what a sum means, wherever that has a meaning,
and neither does what is known about logarithms and trigonometric functions.
-/

namespace SymbolicAlgebra.Reduction

open Exact Projective SymbolicAlgebra.Expr

variable {b : Bindings Exact}

/-- Adding up exact numbers adds up what they mean. -/
theorem ofExact_foldl_add (values : List Exact) (x : Exact) :
    ofExact (values.foldl (· + ·) x) = ofExact x + (values.map ofExact).sum := by
  induction values generalizing x with
  | nil => simp
  | cons v values ih => rw [List.foldl_cons, ih, ofExact_add, List.map_cons, List.sum_cons, add_assoc]

/-- The sum of literals means the sum of what they mean. -/
theorem ofExact_total (values : List Exact) : ofExact (total values) = (values.map ofExact).sum := by
  have hperm := List.mergeSort_perm values fun x y => Scalar.order x y != .gt
  rw [total, ofExact_foldl_add, (hperm.map ofExact).sum_eq, Exact.zero_eq, ofExact_number, ← Projective.zero_eq,
    zero_add]

/-- A sum means the sum of its literals and of its other addends. -/
theorem sum_literals_add_others (flat : List (Expr Exact)) :
    (flat.map (meaning b)).sum = ((flat.filterMap real?).map ofExact).sum +
      ((flat.filter fun e => e.real?.isNone).map (meaning b)).sum := by
  induction flat with
  | nil => simp
  | cons e flat ih =>
    cases hv : e.real? with
    | some v =>
      rw [List.filterMap_cons_some hv, List.filter_cons_of_neg (by simp [hv]), List.map_cons,
        List.sum_cons, ih, List.map_cons, List.sum_cons, meaning_of_real? hv, add_assoc]
    | none =>
      rw [List.filterMap_cons_none hv, List.filter_cons_of_pos (by simp [hv]), List.map_cons,
        List.sum_cons, ih, List.map_cons, List.sum_cons, add_left_comm]

/-- Addends that count as zero can be dropped. -/
theorem sum_le_sum_filter (es : List (Expr Exact)) :
    (es.map (meaning b)).sum ≤ ((es.filter fun e => !e.isZero).map (meaning b)).sum := by
  induction es with
  | nil => exact le_rfl
  | cons e es ih =>
    rw [List.map_cons, List.sum_cons]
    cases hzero : e.isZero with
    | true =>
      rw [List.filter_cons_of_neg (by simp [hzero])]
      refine (add_le_add (meaning_le_of_isZero hzero) ih).trans ?_
      rw [← Projective.zero_eq, zero_add]
    | false =>
      rw [List.filter_cons_of_pos (by simp [hzero]), List.map_cons, List.sum_cons]
      exact add_le_add_right ih _

/-- What is added up in the end means what the addends mean. -/
theorem sum_le_sumTerms (flat : List (Expr Exact)) :
    (flat.map (meaning b)).sum ≤ ((sumTerms flat).map (meaning b)).sum := by
  rw [sum_literals_add_others, ← ofExact_total, sumTerms]
  have hkept := sum_le_sum_filter (b := b) (flat.filter fun e => e.real?.isNone)
  split
  · rename_i hzero
    rw [Exact.zero_eq] at hzero
    rw [ofExact_of_eq hzero, ← Projective.zero_eq, zero_add]
    exact hkept
  · rw [List.map_append, List.sum_append, List.map_singleton, List.sum_singleton, meaning_real,
      add_comm]
    exact add_le_add_left hkept _

/-- The rule for sums keeps what they mean. -/
theorem meaning_sumRule (addends : List (Expr Exact)) :
    (addends.map (meaning b)).sum ≤ (sumRule addends).value.meaning b := by
  have hflat : (addends.map (meaning b)).sum =
      ((addends.flatMap Expr.addends).map (meaning b)).sum := by
    induction addends with
    | nil => rfl
    | cons e es ih =>
      rw [List.map_cons, List.sum_cons, List.flatMap_cons, List.map_append, List.sum_append,
        sum_addends, ih]
  have hcollapse (es : List (Expr Exact)) :
      (collapseSum es).meaning b = (es.map (meaning b)).sum := by
    fun_cases collapseSum es with
    | case1 => exact meaning_zero
    | case2 e => rw [List.map_singleton, List.sum_singleton]
    | case3 => exact meaning_sum es
  rw [sumRule_value, hcollapse, ((sort_perm _).map _).sum_eq, hflat]
  exact sum_le_sumTerms _

end SymbolicAlgebra.Reduction
