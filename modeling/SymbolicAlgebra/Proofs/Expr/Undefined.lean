import SymbolicAlgebra.Proofs.Exact.Laws
import SymbolicAlgebra.Proofs.Expr.Value

/-!
# Undefined points

An expression is undefined where one of its nodes is: every kind of node passes on what is missing,
step by step up to the root. Only a power can lose it, as a power with the exponent zero or the base one
is one whatever the other operand is.
-/

namespace SymbolicAlgebra

open Scalar (isNaN Propagating Elementary)

variable {α : Type} [Scalar α]

/-- Once something is missing, folding in more does not bring it back. -/
theorem Scalar.isNaN_foldl {f : α → α → α}
    (hf : ∀ a b, isNaN a = true ∨ isNaN b = true → isNaN (f a b) = true) {vs : List α} {a : α}
    (h : isNaN a = true ∨ ∃ v ∈ vs, isNaN v = true) : isNaN (vs.foldl f a) = true := by
  induction vs generalizing a with
  | nil => exact h.elim id fun ⟨_, hv, _⟩ => by cases hv
  | cons v vs ih =>
    rw [List.exists_mem_cons_iff, ← or_assoc] at h
    exact ih (h.imp_left (hf a v))

namespace Expr

variable {b : Bindings α}

/-- The expression has a value, but it is missing. -/
def Undefined (b : Bindings α) (e : Expr α) : Prop :=
  ∃ v, e.value b = .ok v ∧ isNaN v = true

/-- A power that is one although one of its operands is missing. -/
def Masks (b : Bindings α) : Expr α → Prop
  | power a e => ∃ v w, a.value b = .ok v ∧ e.value b = .ok w ∧
      (isNaN v = true ∧ Scalar.eq w Scalar.zero = true ∨
        isNaN w = true ∧ Scalar.eq v Scalar.one = true)
  | _ => False

/-- If one of the expressions is undefined, one of their values is missing. -/
theorem exists_isNaN_of_values {es : List (Expr α)} {vs : List α} (hvs : values b es = .ok vs)
    {x : Expr α} (hx : x ∈ es) (h : x.Undefined b) : ∃ v ∈ vs, isNaN v = true := by
  have hvalues := values_eq_ok.mp hvs
  clear hvs
  induction hvalues with
  | nil => cases hx
  | cons hv _ ih =>
    rw [List.exists_mem_cons_iff]
    obtain rfl | hx := List.mem_cons.mp hx
    · obtain ⟨w, hw, hmissing⟩ := h
      cases hv.symm.trans hw
      exact .inl hmissing
    · exact .inr (ih hx)

section Values

variable [Propagating α]

/-- A product is missing if one of its factors is. -/
theorem isNaN_productValue {c : Coefficient α} {above below : List α}
    (h : (∃ v ∈ above, isNaN v = true) ∨ ∃ v ∈ below, isNaN v = true) :
    isNaN (productValue c above below) = true := by
  rw [productValue]
  split
  · exact Propagating.isNaN_nan
  · exact Propagating.isNaN_div _ _ (h.imp (Scalar.isNaN_foldl Propagating.isNaN_mul <| .inr ·)
      (Scalar.isNaN_foldl Propagating.isNaN_mul <| .inr ·))

end Values

variable [Elementary α]

/-- A power is missing if its base is and its exponent is not zero. -/
theorem isNaN_powerValue_base {v w : α} (hv : isNaN v = true)
    (hw : Scalar.eq w Scalar.zero = false) : isNaN (powerValue v w) = true := by
  rw [powerValue, Propagating.lt_of_isNaN v Scalar.zero (.inl hv),
    Propagating.eq_of_isNaN v Scalar.zero hv]
  exact Elementary.isNaN_pow_left v w hv hw

/-- A power is missing if its exponent is and its base is not one. -/
theorem isNaN_powerValue_exponent {v w : α} (hw : isNaN w = true)
    (hv : Scalar.eq v Scalar.one = false) : isNaN (powerValue v w) = true := by
  rw [powerValue, Propagating.lt_of_isNaN w Scalar.zero (.inl hw), Bool.and_false]
  split
  · exact Propagating.isNaN_nan
  · exact Elementary.isNaN_pow_right v w hw hv

/-- A logarithm is missing if its base or its body is. -/
theorem isNaN_logValue {v w : α} (h : isNaN v = true ∨ isNaN w = true) :
    isNaN (logValue v w) = true := by
  rw [logValue]
  split
  · exact Propagating.isNaN_nan
  · exact Propagating.isNaN_div _ _ (h.symm.imp (Elementary.isNaN_log w) (Elementary.isNaN_log v))

/-- A function of a missing number is missing. -/
theorem isNaN_trig (f : Trig) {v : α} (h : isNaN v = true) : isNaN (f.value v) = true := by
  cases f with
  | sin => exact Elementary.isNaN_sin v h
  | cos => exact Elementary.isNaN_cos v h
  | tan =>
    rw [Trig.value]
    split
    · exact Propagating.isNaN_nan
    · exact Elementary.isNaN_tan v h

/-- A node is undefined where one of its children is, unless it is a power that masks this. -/
theorem undefined_of_child {e child : Expr α} (h : ∃ v, e.value b = .ok v)
    (hchild : child ∈ e.children) (hmissing : child.Undefined b) (hmask : ¬ e.Masks b) :
    e.Undefined b := by
  obtain ⟨v, hv⟩ := h
  refine ⟨v, hv, ?_⟩
  cases e with
  | sum as =>
    rw [value] at hv
    obtain ⟨vs, hvs, hv⟩ := Reduction.ok_of_bind hv
    cases hv
    exact Scalar.isNaN_foldl Propagating.isNaN_add (.inr (exists_isNaN_of_values hvs hchild hmissing))
  | product c n d =>
    rw [value] at hv
    obtain ⟨vs, hvs, hv⟩ := Reduction.ok_of_bind hv
    obtain ⟨ws, hws, hv⟩ := Reduction.ok_of_bind hv
    cases hv
    exact isNaN_productValue ((List.mem_append.mp hchild).imp
      (exists_isNaN_of_values hvs · hmissing) (exists_isNaN_of_values hws · hmissing))
  | power a x =>
    rw [value] at hv
    obtain ⟨base, hbase, hv⟩ := Reduction.ok_of_bind hv
    obtain ⟨exponent, hexponent, hv⟩ := Reduction.ok_of_bind hv
    cases hv
    obtain ⟨w, hw, hnan⟩ := hmissing
    obtain rfl | rfl : child = a ∨ child = x := by simpa [children] using hchild
    · cases hbase.symm.trans hw
      refine isNaN_powerValue_base hnan (Bool.eq_false_iff.mpr fun hzero => hmask ?_)
      exact ⟨_, _, hbase, hexponent, .inl ⟨hnan, hzero⟩⟩
    · cases hexponent.symm.trans hw
      refine isNaN_powerValue_exponent hnan (Bool.eq_false_iff.mpr fun hone => hmask ?_)
      exact ⟨_, _, hbase, hexponent, .inr ⟨hnan, hone⟩⟩
  | log a x =>
    rw [value] at hv
    obtain ⟨base, hbase, hv⟩ := Reduction.ok_of_bind hv
    obtain ⟨body, hbody, hv⟩ := Reduction.ok_of_bind hv
    cases hv
    obtain ⟨w, hw, hnan⟩ := hmissing
    refine isNaN_logValue ?_
    obtain rfl | rfl : child = a ∨ child = x := by simpa [children] using hchild
    · cases hbase.symm.trans hw
      exact .inl hnan
    · cases hbody.symm.trans hw
      exact .inr hnan
  | trig f a =>
    rw [value] at hv
    obtain ⟨body, hbody, hv⟩ := Reduction.ok_of_bind hv
    cases hv
    obtain ⟨w, hw, hnan⟩ := hmissing
    obtain rfl : child = a := by simpa [children] using hchild
    cases hbody.symm.trans hw
    exact isNaN_trig f hnan
  | var x => cases hchild
  | number n => cases hchild

/-- Where all variables have values, an expression is undefined if one of its nodes is, as long as no
power on the way from the root to this node masks that. -/
theorem undefined_of_node {e x : Expr α} (hbound : e.VariablesIn fun name => (b.get? name).isSome)
    (hx : x ∈ e.postOrder) (hmissing : x.Undefined b)
    (hmask : ∀ y ∈ e.postOrder, x ∈ y.postOrder → ¬ y.Masks b) : e.Undefined b := by
  obtain rfl | ⟨child, hchild, hxchild⟩ := mem_postOrder.mp hx
  · exact hmissing
  · have hbelow : child.Undefined b :=
      undefined_of_node (hbound.child hchild) hxchild hmissing fun y hy =>
        hmask y (mem_postOrder.mpr (.inr ⟨child, hchild, hy⟩))
    exact undefined_of_child (exists_value e hbound) hchild hbelow
      (hmask e (mem_postOrder.mpr (.inl rfl)) hx)
termination_by e.size
decreasing_by exact size_lt_of_mem_children hchild

/-- A power that masks what is missing is one. -/
theorem value_of_masks {e : Expr α} (h : e.Masks b) : e.value b = .ok Scalar.one := by
  cases e with
  | power a x =>
    obtain ⟨v, w, hv, hw, hmasks⟩ := h
    rw [value, hv, hw]
    change Except.ok (powerValue v w) = _
    obtain ⟨hmissing, hzero⟩ | ⟨hmissing, hone⟩ := hmasks
    · rw [powerValue, Propagating.lt_of_isNaN v Scalar.zero (.inl hmissing),
        Propagating.eq_of_isNaN v Scalar.zero hmissing]
      exact congrArg _ (Elementary.pow_zero v w hzero)
    · rw [powerValue, Elementary.lt_of_eq_one v hone,
        Propagating.lt_of_isNaN w Scalar.zero (.inl hmissing), Bool.and_false]
      exact congrArg _ (Elementary.one_pow v w hone)
  | _ => exact h.elim

end Expr

namespace Expr

/-- The reciprocal of a variable. -/
noncomputable def reciprocal (x : String) : Expr Exact := product .one [] [var x]

/-- A variable that is zero. -/
def zeroAt (x : String) : Bindings Exact := ⟨[(x, .number 0)]⟩

/-- Zero has no reciprocal. -/
theorem value_reciprocal : (reciprocal "x").value (zeroAt "x") = .ok .missing := by
  change Except.ok (productValue .one [] [Exact.number 0]) = _
  simp [productValue, Coefficient.one]

/-- Two to the power of the reciprocal of zero is undefined. -/
theorem undefined_of_node_exponent :
    (power (.number (.real (.number 2))) (reciprocal "x")).Undefined (zeroAt "x") := by
  have hnodes (y : Expr Exact)
      (hy : y ∈ (power (.number (.real (.number 2))) (reciprocal "x")).postOrder) :
      y = number (.real (.number 2)) ∨ y = var "x" ∨ y = reciprocal "x" ∨
        y = power (.number (.real (.number 2))) (reciprocal "x") := by
    change y ∈ [_, _, reciprocal "x", _] at hy
    simpa using hy
  refine undefined_of_node (x := reciprocal "x") (fun y hy => ?_) ?_ ⟨_, value_reciprocal, rfl⟩
    fun y hy _ => ?_
  · obtain rfl | rfl | rfl | rfl := hnodes y hy <;> trivial
  · exact mem_postOrder.mpr (.inr ⟨_, List.mem_cons_of_mem _ List.mem_cons_self,
      mem_postOrder.mpr (.inl rfl)⟩)
  · obtain rfl | rfl | rfl | rfl := hnodes y hy
    · exact id
    · exact id
    · exact id
    · rintro ⟨v, w, hv, -, ⟨hmissing, -⟩ | ⟨-, hone⟩⟩
      · cases hv
        cases hmissing
      · cases hv
        simp [Number.value] at hone

/-- The reciprocal of zero to the power of zero is one, although the reciprocal is undefined. -/
theorem defined_of_masked_node :
    (reciprocal "x").Undefined (zeroAt "x") ∧
      ¬ (power (reciprocal "x") (.number (.real (.number 0)))).Undefined (zeroAt "x") := by
  have hmasks : (power (reciprocal "x") (.number (.real (.number 0)))).Masks (zeroAt "x") :=
    ⟨_, _, value_reciprocal, rfl, .inl ⟨rfl, by simp [Number.value]⟩⟩
  refine ⟨⟨_, value_reciprocal, rfl⟩, ?_⟩
  rintro ⟨v, hv, hmissing⟩
  cases (value_of_masks hmasks).symm.trans hv
  rw [Exact.one_eq] at hmissing
  cases hmissing

end Expr

end SymbolicAlgebra
