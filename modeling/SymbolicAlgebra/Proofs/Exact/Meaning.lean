import SymbolicAlgebra.Expr.Value
import SymbolicAlgebra.Proofs.Exact.Coefficient
import SymbolicAlgebra.Proofs.Reduction.Hereditary

/-!
# What expressions mean

The projective number that an expression over exact numbers stands for. Unlike the value of an
expression, what it means survives a factor that is infinite, so that it can be followed through
steps that move factors across a fraction line. What a variable without a value means is absent.
-/

namespace SymbolicAlgebra

open Exact Projective

/-- The value of a function of a real number; of anything else there is none. -/
noncomputable def Projective.apply (f : ℝ → Exact) : Projective → Projective
  | finite r => ofExact (f r)
  | _ => absent

/-- The logarithm of a real number to a real base; there is no other. -/
noncomputable def Projective.log (p q : Projective) : Projective :=
  p.apply fun a =>
    match q with
    | finite r => Expr.logValue (number a) (number r)
    | _ => missing

/-- Numbers that count as equal have the same value. -/
theorem Number.value_eq_of_order_eq {v w : Number Exact} (h : v.order w = .eq) :
    v.value = w.value := by
  cases v with
  | real x =>
    cases w with
    | real y => exact order_eq_iff.mp h
    | constant d => cases h
  | constant c =>
    cases w with
    | real y => cases h
    | constant d =>
      have h : compare c.rank d.rank = .eq := h
      have hranks := Std.LawfulEqCmp.eq_of_compare h
      cases c <;> cases d <;> first | rfl | cases hranks

namespace Expr

mutual

/-- What an expression means where its variables have values. -/
noncomputable def meaning (b : Bindings Exact) : Expr Exact → Projective
  | sum as => (meanings b as).sum
  | product c n d => c.meaning * (meanings b n).prod * (meanings b d).prod⁻¹
  | power a e => (meaning b a).power (meaning b e)
  | log a e => (meaning b a).log (meaning b e)
  | trig f a => (meaning b a).apply fun r => f.value (Exact.number r)
  | var x => ofExact ((b.get? x).getD missing)
  | number n => ofExact n.value

/-- What the expressions of a list mean. -/
noncomputable def meanings (b : Bindings Exact) : List (Expr Exact) → List Projective
  | [] => []
  | e :: es => meaning b e :: meanings b es

end

section Rules

variable {b : Bindings Exact}

/-- The meanings of a list are those of its members. -/
theorem meanings_eq_map (es : List (Expr Exact)) : meanings b es = es.map (meaning b) := by
  induction es with
  | nil => rfl
  | cons e es ih => rw [meanings, ih, List.map_cons]

/-- A sum means the sum of what its addends mean. -/
theorem meaning_sum (as : List (Expr Exact)) :
    (sum as).meaning b = (as.map (meaning b)).sum := by rw [meaning, meanings_eq_map]

/-- A product means its coefficient times its factors and the reciprocal of its divisors. -/
theorem meaning_product (c : Coefficient Exact) (n d : List (Expr Exact)) :
    (product c n d).meaning b =
      c.meaning * (n.map (meaning b)).prod * (d.map (meaning b)).prod⁻¹ := by
  rw [meaning, meanings_eq_map, meanings_eq_map]

/-- A literal means its number. -/
@[simp] theorem meaning_real (x : Exact) : (real x).meaning b = ofExact x := by
  rw [real, meaning, Number.literal, Number.value, unsignZero_eq]

/-- The literal one means one. -/
@[simp] theorem meaning_one : (one : Expr Exact).meaning b = 1 := by
  rw [one, meaning_real, Exact.one_eq]
  rfl

/-- The literal zero means zero. -/
@[simp] theorem meaning_zero : (zero : Expr Exact).meaning b = finite 0 := by
  rw [zero, meaning_real, Exact.zero_eq]
  rfl

/-- A scaled expression means a multiple. -/
@[simp] theorem meaning_scaled (c : Coefficient Exact) (e : Expr Exact) :
    (product c [e] []).meaning b = c.meaning * e.meaning b := by
  rw [meaning_product, List.map_singleton, List.prod_singleton, List.map_nil, List.prod_nil,
    inv_one, mul_one]

/-- A product means its coefficient times what it is without one. -/
theorem meaning_product_one (c : Coefficient Exact) (n d : List (Expr Exact)) :
    (product c n d).meaning b = c.meaning * (product .one n d).meaning b := by
  rw [meaning_product, meaning_product, Coefficient.meaning_one, one_mul, mul_assoc]

/-- A literal means its value. -/
theorem meaning_of_real? {e : Expr Exact} {x : Exact} (h : e.real? = some x) :
    e.meaning b = ofExact x := by
  cases e with
  | number v =>
    cases v with
    | real v => cases h; rfl
    | constant c => cases h
  | _ => cases h

/-- A literal that is equal to a number means this number. -/
theorem meaning_of_isReal {e : Expr Exact} {r : ℝ} (h : e.isReal (.number r) = true) :
    e.meaning b = finite r := by
  rw [isReal] at h
  split at h
  · rename_i v hv
    rw [meaning_of_real? hv]
    exact ofExact_of_eq h
  · cases h

/-- What counts as zero means zero, if anything. -/
theorem meaning_le_of_isZero {e : Expr Exact} (h : e.isZero = true) : e.meaning b ≤ finite 0 := by
  cases e with
  | product c n d =>
    rw [meaning_product, mul_assoc]
    exact (mul_le_mul_left (Coefficient.meaning_le_of_isZero h) _).trans (zero_mul_le _)
  | number v =>
    have h : (number v).isReal Scalar.zero = true := h
    rw [Exact.zero_eq] at h
    exact (meaning_of_isReal h).le
  | _ => cases h

/-- An expression means the sum of its addends. -/
theorem sum_addends (e : Expr Exact) : (e.addends.map (meaning b)).sum = e.meaning b := by
  cases e with
  | sum as => rw [addends, meaning_sum]
  | _ => exact List.sum_singleton

/-- An expression means the power that it is taken for. -/
theorem power_powerParts (e : Expr Exact) :
    (e.powerParts.1.meaning b).power (e.powerParts.2.meaning b) = e.meaning b := by
  have hone (e : Expr Exact) : (e.meaning b).power ((one : Expr Exact).meaning b) = e.meaning b := by
    rw [meaning_one, Projective.one_eq, power_one]
  cases e with
  | power a x => rw [powerParts, meaning]
  | _ => exact hone _

/-- Expressions that are built alike mean the same. -/
theorem meaning_congruence : Congruence fun x y : Expr Exact => x.meaning b = y.meaning b := by
  have hmap {es es' : List (Expr Exact)}
      (h : List.Forall₂ (fun x y : Expr Exact => x.meaning b = y.meaning b) es es') :
      es.map (meaning b) = es'.map (meaning b) :=
    List.forall₂_eq_eq_eq ▸ List.forall₂_map_left_iff.mpr (List.forall₂_map_right_iff.mpr h)
  exact {
    sum h := by rw [meaning_sum, meaning_sum, hmap h]
    product hc hn hd := by
      rw [meaning_product, meaning_product, hmap hn, hmap hd, Coefficient.meaning,
        Coefficient.value_eq_of_order_eq hc, Coefficient.meaning]
    power ha he := by rw [meaning, meaning, ha, he]
    log ha he := by rw [meaning, meaning, ha, he]
    trig ha := by rw [meaning, meaning, ha]
    var x := rfl
    number h := by rw [meaning, meaning, Number.value_eq_of_order_eq h] }

/-- Expressions that count as equal mean the same. -/
theorem meaning_eq_of_beq {x y : Expr Exact} (h : (x == y) = true) : x.meaning b = y.meaning b :=
  meaning_congruence.of_order_eq x y (beq_iff.mp h)

mutual

/-- The opposite of an expression means minus one times as much. -/
theorem meaning_neg (e : Expr Exact) : e.neg.meaning b = finite (-1) * e.meaning b := by
  have opposite (e : Expr Exact) : (scaled .minusOne e).meaning b = finite (-1) * e.meaning b := by
    rw [scaled, meaning_scaled, Coefficient.meaning_minusOne]
  cases e with
  | sum as =>
    rw [neg, meaning_sum, meaning_sum, finite_mul_sum, negList_eq_map, List.map_map, List.map_map]
    exact congrArg List.sum (List.map_congr_left (meaning_neg_of_mem as))
  | product c n d =>
    rw [neg, meaning_product, meaning_product, Coefficient.meaning_neg, mul_assoc, mul_assoc,
      mul_assoc]
  | number v =>
    cases v with
    | real v =>
      rw [neg, meaning_real, ofExact_neg]
      rfl
    | constant c => exact opposite _
  | _ => exact opposite _

/-- The opposites of a list's members mean minus one times as much. -/
theorem meaning_neg_of_mem (es : List (Expr Exact)) :
    ∀ e ∈ es, e.neg.meaning b = finite (-1) * e.meaning b := by
  cases es with
  | nil => simp
  | cons e es =>
    rw [List.forall_mem_cons]
    exact ⟨meaning_neg e, meaning_neg_of_mem es⟩

end

/-- An expression means its coefficient times what that scales. -/
theorem meaning_scaleParts (e : Expr Exact) :
    e.scaleParts.1.meaning * e.scaleParts.2.meaning b = e.meaning b := by
  fun_cases scaleParts e with
  | case1 v =>
    rw [Coefficient.meaning_ofScalar, meaning_one, mul_one]
    rfl
  | case2 c e => rw [meaning_scaled]
  | case3 c n d => rw [← meaning_product_one]
  | case4 => rw [Coefficient.meaning_one, one_mul]

/-- Putting a coefficient before something without one multiplies by it. -/
theorem meaning_ofScaleParts (c : Coefficient Exact) {key : Expr Exact} (h : key.Unscaled) :
    c.meaning * key.meaning b ≤ (ofScaleParts c key).meaning b := by
  fun_cases ofScaleParts c key with
  | case1 _ hc =>
    rw [meaning_zero]
    exact (mul_le_mul_left (Coefficient.meaning_le_of_isZero hc) _).trans (zero_mul_le _)
  | case2 _ hc hone =>
    rw [Exact.one_eq] at hone
    rw [meaning_real, meaning_of_isReal hone, ← Projective.one_eq, mul_one]
    exact le_rfl
  | case3 hc k n d hone =>
    rw [meaning_product_one k, Coefficient.meaning_of_isOne (h k n d rfl), one_mul,
      ← meaning_product_one]
  | case4 hc hone hproduct hcone => rw [Coefficient.meaning_of_isOne hcone, one_mul]
  | case5 hc hone hproduct hcone => rw [scaled, meaning_scaled]

end Rules

end Expr

end SymbolicAlgebra
