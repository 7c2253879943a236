import SymbolicAlgebra.Proofs.Expr.Value
import SymbolicAlgebra.Proofs.Scalar.Symmetric

/-!
# Values under another sign

The expression with the opposite sign has the opposite value wherever the expression has one, and is
undefined where the expression is. Sums pass the sign on to their addends, however deep these are nested,
products to their coefficient, and all else is scaled by minus one.
-/

namespace SymbolicAlgebra

open Scalar (Opposite Symmetric)

variable {α : Type} [Scalar α] [Symmetric α]

/-- Zero is its own opposite. -/
theorem Scalar.opposite_zero : Opposite (zero : α) zero := by
  have hunsigned : eq (unsignZero zero : α) zero = true :=
    Lawful.eq_zero_of_order _ Std.ReflCmp.compare_self
  have hzero : eq (zero : α) zero = true := (Lawful.eq_unsignZero zero).symm.trans hunsigned
  have hopposite := Symmetric.opposite_unsignZero (Symmetric.opposite_neg (zero : α))
  rwa [unsignZero, Unital.add_zero_of_zero _ ((Lawful.eq_neg_zero zero).trans hzero)] at hopposite

/-- Sums of opposites are opposite, from opposite numbers on. -/
theorem Scalar.opposite_foldl_add {vs ws : List α} (h : List.Forall₂ Opposite vs ws) {a b : α}
    (hab : Opposite a b) : Opposite (vs.foldl (· + ·) a) (ws.foldl (· + ·) b) := by
  induction h generalizing a b with
  | nil => exact hab
  | cons hv _ ih => exact ih (Symmetric.opposite_add hab hv)

/-- Products of opposite numbers with the same factors are opposite. -/
theorem Scalar.opposite_foldl_mul (vs : List α) {a b : α} (hab : Opposite a b) :
    Opposite (vs.foldl (· * ·) a) (vs.foldl (· * ·) b) := by
  induction vs generalizing a b with
  | nil => exact hab
  | cons v vs ih => exact ih (Symmetric.opposite_mul v hab)

namespace Expr

/-- A product with the opposite coefficient has the opposite value. -/
theorem opposite_productValue (c : Coefficient α) (above below : List α) :
    Opposite (productValue c above below) (productValue (-c) above below) := by
  have hnumer : Opposite c.numer (-c).numer :=
    Symmetric.opposite_unsignZero (Symmetric.opposite_neg c.numer)
  have habove := Scalar.opposite_foldl_mul above hnumer
  rw [productValue, productValue, show (-c).denom = c.denom from rfl]
  split
  · exact .inr ⟨Scalar.Propagating.isNaN_nan, Scalar.Propagating.isNaN_nan⟩
  · exact Symmetric.opposite_div _ habove

/-- Scaling a number by minus one gives the opposite number. -/
theorem productValue_minusOne (v : α) : productValue .minusOne [v] [] = -v := by
  rw [productValue]
  change (if Scalar.eq (Scalar.one : α) Scalar.zero then Scalar.nan
    else Scalar.ofInt (-1) * v / Scalar.one) = -v
  rw [Scalar.Unital.eq_one_zero, if_neg Bool.false_ne_true, Scalar.Signed.minusOne_mul,
    Scalar.Unital.div_one]

variable {b : Bindings α}

/-- Scaled by minus one an expression has the opposite value. -/
theorem opposite_value_scaled {e : Expr α} {v : α} (h : e.value b = .ok v) :
    ∃ w, (scaled .minusOne e).value b = .ok w ∧ Opposite v w := by
  have hvalues : values b [e] = .ok [v] := values_eq_ok.mpr (.cons h .nil)
  refine ⟨-v, ?_, Symmetric.opposite_neg v⟩
  rw [scaled, value, hvalues, ← productValue_minusOne]
  rfl

omit [Symmetric α] in
/-- If each expression of a list has the opposite value under the opposite sign, so have all of them. -/
theorem opposite_values_negList {es : List (Expr α)} {vs : List α} (h : values b es = .ok vs)
    (hes : ∀ e ∈ es, ∀ v, e.value b = .ok v → ∃ w, e.neg.value b = .ok w ∧ Opposite v w) :
    ∃ ws, values b (negList es) = .ok ws ∧ List.Forall₂ Opposite vs ws := by
  have hvalues := values_eq_ok.mp h
  clear h
  induction hvalues with
  | nil => exact ⟨[], rfl, .nil⟩
  | cons hv _ ih =>
    rw [List.forall_mem_cons] at hes
    obtain ⟨w, hw, hopposite⟩ := hes.1 _ hv
    obtain ⟨ws, hws, hall⟩ := ih hes.2
    exact ⟨w :: ws, by rw [negList, values, hw, hws]; rfl, .cons hopposite hall⟩

/-- The expression with the opposite sign has the opposite value. -/
theorem opposite_value_neg (e : Expr α) {v : α} (h : e.value b = .ok v) :
    ∃ w, e.neg.value b = .ok w ∧ Opposite v w := by
  have ih (child : Expr α) (hchild : child ∈ e.children) (v : α) (h : child.value b = .ok v) :
      ∃ w, child.neg.value b = .ok w ∧ Opposite v w := opposite_value_neg child h
  cases e with
  | sum as =>
    -- both sums start from zero, which is its own opposite
    rw [value] at h
    obtain ⟨vs, hvs, h⟩ := Reduction.ok_of_bind h
    cases h
    obtain ⟨ws, hws, hopposite⟩ := opposite_values_negList hvs ih
    exact ⟨_, by rw [neg, value, hws]; rfl, Scalar.opposite_foldl_add hopposite Scalar.opposite_zero⟩
  | product c n d =>
    rw [value] at h
    obtain ⟨vs, hvs, h⟩ := Reduction.ok_of_bind h
    obtain ⟨ws, hws, h⟩ := Reduction.ok_of_bind h
    cases h
    exact ⟨_, by rw [neg, value, hvs, hws]; rfl, opposite_productValue c vs ws⟩
  | number n =>
    cases n with
    | real r =>
      cases h
      exact ⟨_, rfl, Symmetric.opposite_unsignZero (Symmetric.opposite_neg r)⟩
    | constant c => exact opposite_value_scaled h
  | _ => exact opposite_value_scaled h
termination_by e.size
decreasing_by exact size_lt_of_mem_children hchild

/-- Where all variables have values, an expression and the one with the opposite sign have opposite values:
equal but for the sign, or both missing. -/
theorem value_neg_opposite (e : Expr α) (hbound : e.VariablesIn fun name => (b.get? name).isSome) :
    ∃ v w, e.value b = .ok v ∧ e.neg.value b = .ok w ∧ Opposite v w := by
  obtain ⟨v, hv⟩ := exists_value e hbound
  obtain ⟨w, hw, hopposite⟩ := opposite_value_neg e hv
  exact ⟨v, w, hv, hw, hopposite⟩

/-- A difference inside a sum, a quotient and a logarithm change their signs at a point where the quotient
is undefined. -/
theorem value_neg_opposite_nested :
    let e : Expr Float := sum [sum [var "x", real (Scalar.ofInt (-1))],
      product (.ofFraction (Scalar.ofInt 2) (Scalar.ofInt 3)) [var "y"] [var "x"], log (var "y") (var "x")]
    let b : Bindings Float := ⟨[("x", Scalar.zero), ("y", Scalar.ofInt 5)]⟩
    (e.VariablesIn fun name => (b.get? name).isSome) ∧
      ∃ v w, e.value b = .ok v ∧ e.neg.value b = .ok w ∧ Opposite v w := by
  intro e b
  have hbound : e.VariablesIn fun name => (b.get? name).isSome := by
    have hx : (var "x" : Expr Float).VariablesIn fun name => (b.get? name).isSome :=
      everywhere_of_leaf rfl rfl
    have hy : (var "y" : Expr Float).VariablesIn fun name => (b.get? name).isSome :=
      everywhere_of_leaf rfl rfl
    refine (everywhere_sum trivial).mpr (List.forall_mem_cons.mpr ⟨?_, List.forall_mem_cons.mpr ⟨?_,
      List.forall_mem_singleton.mpr ((everywhere_log trivial).mpr ⟨hy, hx⟩)⟩⟩)
    · exact (everywhere_sum trivial).mpr (List.forall_mem_cons.mpr
        ⟨hx, List.forall_mem_singleton.mpr (everywhere_of_leaf rfl trivial)⟩)
    · exact variablesIn_product.mpr
        ⟨List.forall_mem_singleton.mpr hy, List.forall_mem_singleton.mpr hx⟩
  exact ⟨hbound, value_neg_opposite e hbound⟩

end Expr

end SymbolicAlgebra
