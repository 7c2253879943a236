import SymbolicAlgebra.Derivative.Basic
import SymbolicAlgebra.Proofs.Derivative.Line

/-!
# Products and sums in the making

What derivatives are put together from has the value of the product or the sum that it stands for, although
literals go into the coefficient and factors of one, addends of zero and whole products with a factor of zero
are dropped. Nothing that is kept can be recognized as zero.
-/

namespace SymbolicAlgebra.Derivative

open Exact Line

variable {ℓ : Line} {y : ℝ}

namespace Term

/-- The product that a product in the making stands for. -/
def expr (t : Term Exact) : Expr Exact := .product t.coefficient t.numerator t.denominator

/-- Neither the coefficient nor a factor above the line can be recognized as zero. -/
def Proper (t : Term Exact) : Prop :=
  t.coefficient.isZero = false ∧ ∀ e ∈ t.numerator, e.isZero = false

/-- A product in the making has been multiplied by a number at each point where it is still defined, and some
condition holds there. -/
structure Multiplied (ℓ : Line) (factor : ℝ → ℝ) (defined : ℝ → Prop) (t t' : Term Exact) : Prop where
  proper : t.Proper → t'.Proper
  value : ∀ y ∈ ℓ.domain t'.expr,
    y ∈ ℓ.domain t.expr ∧ defined y ∧ ℓ.fn t'.expr y = ℓ.fn t.expr y * factor y

/-- Multiplying twice is multiplying by both numbers. -/
theorem Multiplied.trans {f g : ℝ → ℝ} {p q : ℝ → Prop} {t t' t'' : Term Exact}
    (h : Multiplied ℓ f p t t') (h' : Multiplied ℓ g q t' t'') :
    Multiplied ℓ (fun y => f y * g y) (fun y => p y ∧ q y) t t'' where
  proper ht := h'.proper (h.proper ht)
  value y hy := by
    obtain ⟨hy', hq, hg⟩ := h'.value y hy
    obtain ⟨hy'', hp, hf⟩ := h.value y hy'
    exact ⟨hy'', ⟨hp, hq⟩, by rw [hg, hf, mul_assoc]⟩

/-- The coefficient one is the number one. -/
theorem real_one : (Coefficient.one : Coefficient Exact).IsNumber ∧
    (Coefficient.one : Coefficient Exact).real = 1 := by
  apply Coefficient.isNumber_of_value
  rw [Coefficient.one, Coefficient.value, Exact.one_eq, number_div one_ne_zero, div_one]

/-- The coefficient minus one is the number minus one. -/
theorem real_minusOne : (Coefficient.minusOne : Coefficient Exact).IsNumber ∧
    (Coefficient.minusOne : Coefficient Exact).real = -1 := by
  apply Coefficient.isNumber_of_value
  rw [Coefficient.minusOne, Coefficient.value, Exact.one_eq, ofInt_eq, number_div one_ne_zero, div_one,
    Int.cast_neg, Int.cast_one]

/-- The coefficient minus one is not zero. -/
theorem isZero_minusOne : (Coefficient.minusOne : Coefficient Exact).isZero = false := by
  simp [Coefficient.minusOne, Coefficient.isZero]

/-- The product without factors is one. -/
theorem fn_unit (y : ℝ) : y ∈ ℓ.domain (unit : Term Exact).expr ∧ ℓ.fn (unit : Term Exact).expr y = 1 := by
  obtain ⟨hnumber, hreal⟩ := real_one
  have hmem : y ∈ ℓ.domain (unit : Term Exact).expr :=
    mem_domain_product.mpr ⟨hnumber, List.forall_mem_nil _, List.forall_mem_nil _, by simp [unit]⟩
  refine ⟨hmem, ?_⟩
  rw [expr, fn_product hmem]
  simp [unit, hreal]

/-- The product without factors is proper. -/
theorem proper_unit : (unit : Term Exact).Proper :=
  ⟨by simp [unit, Coefficient.one, Coefficient.isZero], List.forall_mem_nil _⟩

/-- A product in the making only vanishes with a factor that is zero. -/
theorem times_eq_none {e : Expr Exact} {t : Term Exact} : t.times e = none ↔ e.isZero = true := by
  unfold times
  split
  · rename_i hzero
    exact iff_of_true rfl hzero
  · rename_i hzero
    refine iff_of_false ?_ hzero
    split <;> nofun

/-- Multiplying by a factor multiplies by its value. -/
theorem multiplied_times {e : Expr Exact} {t t' : Term Exact} (h : t.times e = some t') :
    e.isZero = false ∧ Multiplied ℓ (ℓ.fn e) (· ∈ ℓ.domain e) t t' := by
  have hzero : e.isZero = false := by
    rw [← Bool.not_eq_true, ← times_eq_none (t := t), h]
    nofun
  refine ⟨hzero, ?_⟩
  unfold times at h
  rw [if_neg (by simp [hzero])] at h
  split at h
  · -- a literal becomes a part of the coefficient
    rename_i v
    cases h
    have hscalar : Scalar.eq v Scalar.zero = false := hzero
    refine ⟨fun ⟨hc, hn⟩ => ⟨?_, hn⟩, fun y hy => ?_⟩
    · rw [← Bool.not_eq_true]
      intro hproduct
      obtain hc' | hv := Coefficient.isZero_mul hproduct
      · rw [hc] at hc'
        cases hc'
      · rw [Coefficient.isZero_ofScalar hscalar] at hv
        cases hv
    · obtain ⟨hc, hn, hd, hne⟩ := mem_domain_product.mp hy
      obtain ⟨hc, hv, hreal⟩ := Coefficient.isNumber_mul hc
      have hvalue : (Expr.number (.real v)).value (ℓ.point y) =
          .ok (number (Coefficient.ofScalar v).real) := by
        rw [← Coefficient.isNumber_ofScalar hv]
        rfl
      have hmem : y ∈ ℓ.domain t.expr := mem_domain_product.mpr ⟨hc, hn, hd, hne⟩
      refine ⟨hmem, mem_domain_of_value hvalue, ?_⟩
      rw [fn_eq_of_value hvalue, expr, expr, fn_product hy, fn_product hmem, hreal]
      ring
  · cases h
    refine ⟨fun ⟨hc, hn⟩ => ⟨hc, ?_⟩, fun y hy => ?_⟩
    · rw [List.forall_mem_append, List.forall_mem_singleton]
      exact ⟨hn, hzero⟩
    · obtain ⟨hc, hn, hd, hne⟩ := mem_domain_product.mp hy
      rw [List.forall_mem_append, List.forall_mem_singleton] at hn
      have hmem : y ∈ ℓ.domain t.expr := mem_domain_product.mpr ⟨hc, hn.1, hd, hne⟩
      refine ⟨hmem, hn.2, ?_⟩
      rw [expr, expr, fn_product hy, fn_product hmem, List.map_append, List.prod_append,
        List.map_singleton, List.prod_singleton]
      ring

/-- A product in the making only vanishes with one of the factors. -/
theorem timesAll_eq_none {es : List (Expr Exact)} {t : Term Exact} :
    t.timesAll es = none ↔ ∃ e ∈ es, e.isZero = true := by
  induction es generalizing t with
  | nil => simp [timesAll]
  | cons e es ih =>
    have hcons : t.timesAll (e :: es) = (t.times e).bind (·.timesAll es) := rfl
    rw [hcons, List.exists_mem_cons_iff, ← times_eq_none (t := t)]
    cases htimes : t.times e with
    | none => simp
    | some t' => simp [ih]

/-- Multiplying by all factors of a list multiplies by the product of their values. -/
theorem multiplied_timesAll {es : List (Expr Exact)} {t t' : Term Exact}
    (h : t.timesAll es = some t') :
    Multiplied ℓ (fun y => (es.map (ℓ.fn · y)).prod) (fun y => ∀ e ∈ es, y ∈ ℓ.domain e) t t' := by
  induction es generalizing t with
  | nil =>
    cases h
    exact ⟨id, fun y hy => ⟨hy, List.forall_mem_nil _, by simp⟩⟩
  | cons e es ih =>
    have hcons : (t.times e).bind (·.timesAll es) = some t' := h
    obtain ⟨t'', htimes, hrest⟩ := Option.bind_eq_some_iff.mp hcons
    simp only [List.map_cons, List.prod_cons, List.forall_mem_cons]
    exact (multiplied_times htimes).2.trans (ih hrest)

/-- Dividing by an expression multiplies by the reciprocal of its value. -/
theorem multiplied_divide (e : Expr Exact) (t : Term Exact) :
    Multiplied ℓ (fun y => (ℓ.fn e y)⁻¹) (fun y => y ∈ ℓ.domain e ∧ ℓ.fn e y ≠ 0) t
      (t.divide e) := by
  rw [divide]
  split
  · rename_i hone
    have hliteral : e = .number (.real (number 1)) := by
      cases e with
      | number v =>
        cases v with
        | real v =>
          have hv : Scalar.eq v Scalar.one = true := hone
          rw [Exact.one_eq, eq_iff] at hv
          obtain ⟨r, rfl, hr⟩ := hv
          rw [hr]
        | constant k => cases hone
      | _ => cases hone
    have hvalue (y : ℝ) : e.value (ℓ.point y) = .ok (number 1) := by
      rw [hliteral]
      rfl
    refine ⟨id, fun y hy => ⟨hy, ⟨mem_domain_of_value (hvalue y), ?_⟩, ?_⟩⟩
    · rw [fn_eq_of_value (hvalue y)]
      exact one_ne_zero
    · rw [fn_eq_of_value (hvalue y), inv_one, mul_one]
  · refine ⟨id, fun y hy => ?_⟩
    obtain ⟨hc, hn, hd, hne⟩ := mem_domain_product.mp hy
    rw [List.forall_mem_append, List.forall_mem_singleton] at hd
    rw [List.map_append, List.prod_append, List.map_singleton, List.prod_singleton] at hne
    obtain ⟨hne, hlast⟩ := mul_ne_zero_iff.mp hne
    have hmem : y ∈ ℓ.domain t.expr := mem_domain_product.mpr ⟨hc, hn, hd.1, hne⟩
    refine ⟨hmem, ⟨hd.2, hlast⟩, ?_⟩
    rw [expr, expr, fn_product hy, fn_product hmem, List.map_append, List.prod_append,
      List.map_singleton, List.prod_singleton, ← div_eq_mul_inv, div_div]

/-- Dividing by all expressions of a list multiplies by the reciprocal of the product of their values. -/
theorem multiplied_divideAll (es : List (Expr Exact)) (t : Term Exact) :
    Multiplied ℓ (fun y => (es.map (ℓ.fn · y)).prod⁻¹)
      (fun y => ∀ e ∈ es, y ∈ ℓ.domain e ∧ ℓ.fn e y ≠ 0) t (t.divideAll es) := by
  induction es generalizing t with
  | nil => exact ⟨id, fun y hy => ⟨hy, List.forall_mem_nil _, by simp [divideAll]⟩⟩
  | cons e es ih =>
    simp only [List.map_cons, List.prod_cons, List.forall_mem_cons, mul_inv]
    exact (multiplied_divide e t).trans (ih (t.divide e))

/-- A product in the making only vanishes with a coefficient that is zero. -/
theorem scale_eq_none {c : Coefficient Exact} {t : Term Exact} :
    t.scale c = none ↔ c.isZero = true := by
  rw [scale]
  split
  · rename_i hzero
    exact iff_of_true rfl hzero
  · rename_i hzero
    exact iff_of_false nofun hzero

/-- Multiplying by a coefficient multiplies by the number that it is. -/
theorem multiplied_scale {c : Coefficient Exact} {t t' : Term Exact} (h : t.scale c = some t') :
    Multiplied ℓ (fun _ => c.real) (fun _ => c.IsNumber) t t' := by
  have hzero : c.isZero = false := by
    rw [← Bool.not_eq_true, ← scale_eq_none (t := t), h]
    nofun
  rw [scale, if_neg (by simp [hzero])] at h
  cases h
  refine ⟨fun ⟨hc, hn⟩ => ⟨?_, hn⟩, fun y hy => ?_⟩
  · rw [← Bool.not_eq_true]
    intro hproduct
    obtain hc' | hc' := Coefficient.isZero_mul hproduct
    · rw [hc] at hc'
      cases hc'
    · rw [hzero] at hc'
      cases hc'
  · obtain ⟨hc, hn, hd, hne⟩ := mem_domain_product.mp hy
    obtain ⟨hc, hc', hreal⟩ := Coefficient.isNumber_mul hc
    have hmem : y ∈ ℓ.domain t.expr := mem_domain_product.mpr ⟨hc, hn, hd, hne⟩
    refine ⟨hmem, hc', ?_⟩
    rw [expr, expr, fn_product hy, fn_product hmem, hreal]
    ring

/-- What vanishes is the literal zero. -/
theorem isZero_toExpr_none : (toExpr (none : Option (Term Exact))).isZero = true := by
  simp [toExpr, Expr.zero, Expr.isZero, Expr.isReal, Expr.real, Expr.real?, Number.literal, Number.real?]

/-- A proper product in the making is not recognized as zero. -/
theorem isZero_toExpr_some {t : Term Exact} (h : t.Proper) : (toExpr (some t)).isZero = false := by
  obtain ⟨hc, hn⟩ := h
  unfold toExpr
  split
  · rename_i hnone
    cases hnone
  · rename_i c hsome
    cases hsome
    rw [← Bool.not_eq_true]
    intro hzero
    have hvalue : Scalar.eq c.value Scalar.zero = true := by
      rw [← unsignZero_eq (x := c.value)]
      exact hzero
    rw [Exact.zero_eq, eq_iff] at hvalue
    obtain ⟨r, hvalue, hr⟩ := hvalue
    cases hr
    obtain ⟨a, b, ha, -, hb, hab⟩ := div_eq_number hvalue
    rw [eq_comm, div_eq_zero_iff, or_iff_left hb] at hab
    rw [Coefficient.isZero, ha, hab] at hc
    simp at hc
  · rename_i c e hsome
    cases hsome
    split
    · exact hn e (List.mem_singleton.mpr rfl)
    · exact hc
  · rename_i hsome
    cases hsome
    exact hc

/-- The expression that a product in the making stands for has the value of the product. -/
theorem mem_domain_toExpr {t : Term Exact} (h : y ∈ ℓ.domain (toExpr (some t))) :
    y ∈ ℓ.domain t.expr ∧ ℓ.fn (toExpr (some t)) y = ℓ.fn t.expr y := by
  unfold toExpr at h ⊢
  split at h
  · rename_i hnone
    cases hnone
  · rename_i c hsome
    cases hsome
    have hliteral : Scalar.unsignZero c.value = number (ℓ.fn (.real c.value) y) := mem_domain_real h
    have hvalue : c.value = number (ℓ.fn (.real c.value) y) := by rwa [unsignZero_eq] at hliteral
    obtain ⟨hnumber, hreal⟩ := Coefficient.isNumber_of_value hvalue
    have hmem : y ∈ ℓ.domain (Expr.product c [] []) :=
      mem_domain_product.mpr ⟨hnumber, List.forall_mem_nil _, List.forall_mem_nil _, by simp⟩
    refine ⟨hmem, ?_⟩
    change _ = ℓ.fn (Expr.product c [] []) y
    rw [fn_product hmem, ← hreal]
    simp
  · rename_i c e hsome
    cases hsome
    split at h
    · rename_i hone
      rw [if_pos hone]
      rw [Coefficient.isOne, Bool.and_eq_true, Exact.one_eq, eq_iff, eq_iff] at hone
      obtain ⟨⟨r, hnumer, hr⟩, s, hdenom, hs⟩ := hone
      cases hr
      cases hs
      have hvalue : c.value = number 1 := by
        rw [Coefficient.value, hnumer, hdenom, number_div one_ne_zero, div_one]
      obtain ⟨hnumber, hreal⟩ := Coefficient.isNumber_of_value hvalue
      have hmem : y ∈ ℓ.domain (Expr.product c [e] []) :=
        mem_domain_product.mpr
          ⟨hnumber, List.forall_mem_singleton.mpr h, List.forall_mem_nil _, by simp⟩
      refine ⟨hmem, ?_⟩
      change _ = ℓ.fn (Expr.product c [e] []) y
      rw [fn_product hmem, hreal]
      simp
    · rw [if_neg ‹_›]
      exact ⟨h, rfl⟩
  · rename_i hsome
    cases hsome
    exact ⟨h, rfl⟩

/-- Where the expression of a product in the making counts, the product vanishes, or what it was multiplied from
is defined and gives its value. -/
theorem counts_toExpr {t : Term Exact} {o : Option (Term Exact)} {factor : ℝ → ℝ} {defined : ℝ → Prop}
    (h : ℓ.Counts (toExpr o) y) (ht : t.Proper)
    (hmultiplied : ∀ t', o = some t' → Multiplied ℓ factor defined t t') :
    (o = none ∧ ℓ.fn (toExpr o) y = 0) ∨ (o ≠ none ∧ y ∈ ℓ.domain t.expr ∧ defined y ∧
      ℓ.fn (toExpr o) y = ℓ.fn t.expr y * factor y) := by
  cases o with
  | none => exact .inl ⟨rfl, fn_of_isZero isZero_toExpr_none⟩
  | some t' =>
    have hfrom := hmultiplied t' rfl
    obtain hzero | hmem := h
    · rw [isZero_toExpr_some (hfrom.proper ht)] at hzero
      cases hzero
    · obtain ⟨hmem, hvalue⟩ := mem_domain_toExpr hmem
      rw [hvalue]
      exact .inr ⟨nofun, hfrom.value y hmem⟩

/-- The expression of a proper product in the making is recognized as zero if the product vanishes. -/
theorem isZero_toExpr {t : Term Exact} {o : Option (Term Exact)} {factor : ℝ → ℝ}
    {defined : ℝ → Prop} (ht : t.Proper)
    (hmultiplied : ∀ t', o = some t' → Multiplied ℓ factor defined t t') :
    (toExpr o).isZero = true ↔ o = none := by
  cases o with
  | none => exact iff_of_true isZero_toExpr_none rfl
  | some t' => simp [isZero_toExpr_some ((hmultiplied t' rfl).proper ht)]

end Term

section Sum

variable {es : List (Expr Exact)}

/-- Addends that are recognized as zero do not matter to a sum. -/
theorem sum_filter_isZero (es : List (Expr Exact)) (y : ℝ) :
    ((es.filter fun e => !e.isZero).map (ℓ.fn · y)).sum = (es.map (ℓ.fn · y)).sum := by
  induction es with
  | nil => rfl
  | cons e es ih =>
    rw [List.filter_cons]
    split
    · rw [List.map_cons, List.map_cons, List.sum_cons, List.sum_cons, ih]
    · rename_i hzero
      rw [List.map_cons, List.sum_cons, ih, fn_of_isZero (by simpa using hzero), zero_add]

/-- A sum of addends is recognized as zero if all of them are. -/
theorem isZero_sumOf : (sumOf es).isZero = true ↔ ∀ e ∈ es, e.isZero = true := by
  have hfilter : (es.filter fun e => !e.isZero) = [] ↔ ∀ e ∈ es, e.isZero = true := by
    rw [List.filter_eq_nil_iff]
    simp
  rw [← hfilter]
  unfold sumOf
  split
  · rename_i hnone
    exact iff_of_true (Term.isZero_toExpr_none) hnone
  · rename_i e hone
    have he : e ∈ es.filter fun e => !e.isZero := by rw [hone]; exact List.mem_singleton.mpr rfl
    have hzero : e.isZero = false := by simpa using (List.mem_filter.mp he).2
    rw [hone, hzero]
    exact iff_of_false nofun nofun
  · rename_i hnone _
    exact iff_of_false nofun hnone

/-- Where a sum of addends is defined all of them count, and it adds them up. -/
theorem mem_domain_sumOf (h : y ∈ ℓ.domain (sumOf es)) :
    (∀ e ∈ es, ℓ.Counts e y) ∧ ℓ.fn (sumOf es) y = (es.map (ℓ.fn · y)).sum := by
  have hsum : (∀ e ∈ es.filter fun e => !e.isZero, y ∈ ℓ.domain e) ∧
      ℓ.fn (sumOf es) y = ((es.filter fun e => !e.isZero).map (ℓ.fn · y)).sum := by
    unfold sumOf at h ⊢
    split at h
    · rename_i hnone
      rw [hnone]
      exact ⟨List.forall_mem_nil _, fn_of_isZero Term.isZero_toExpr_none⟩
    · rename_i e hone
      rw [hone]
      exact ⟨List.forall_mem_singleton.mpr h, by simp⟩
    · exact ⟨mem_domain_sum.mp h, fn_sum h⟩
  rw [sum_filter_isZero] at hsum
  refine ⟨fun e he => ?_, hsum.2⟩
  cases hzero : e.isZero with
  | true => exact .inl hzero
  | false => exact .inr (hsum.1 e (List.mem_filter.mpr ⟨he, by simp [hzero]⟩))

end Sum

end SymbolicAlgebra.Derivative
