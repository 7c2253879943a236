import SymbolicAlgebra.Proofs.Exact.Function
import SymbolicAlgebra.Proofs.Exact.Sum
import SymbolicAlgebra.Proofs.Expr.Value

/-!
# Values and what expressions mean

The value of an expression over exact numbers is what it means, as far as that is finite. The two
never disagree: where both exist they are the same. Where every part of an expression has a value,
what it means is its value.
-/

namespace SymbolicAlgebra

open Exact Projective

namespace Projective

/-- The number without infinity. -/
def finitePart : Projective → Projective
  | infinite => absent
  | p => p

/-- Two numbers are the same, or one of them is absent. -/
def Compatible (p q : Projective) : Prop := p = absent ∨ q = absent ∨ p = q

variable {p p' q q' : Projective}

@[simp] theorem absent_compatible : Compatible absent q := .inl rfl

@[simp] theorem compatible_absent : Compatible p absent := .inr (.inl rfl)

/-- What is below is compatible. -/
theorem compatible_of_le (h : p ≤ q) : Compatible p q := by
  obtain rfl | rfl := h
  · exact .inl rfl
  · exact .inr (.inr rfl)

/-- What is compatible with a number is below it. -/
theorem Compatible.le_finite {r : ℝ} (h : Compatible p (finite r)) : p ≤ finite r := by
  obtain rfl | h | rfl := h
  · exact absent_le
  · cases h
  · exact le_rfl

/-- A function that keeps what is absent keeps compatibility. -/
theorem Compatible.map {f : Projective → Projective} (hf : f absent = absent)
    (h : Compatible p q) : Compatible (f p) (f q) := by
  obtain rfl | rfl | rfl := h
  · exact .inl hf
  · exact .inr (.inl hf)
  · exact .inr (.inr rfl)

/-- A function of two numbers that keeps what is absent keeps compatibility. -/
theorem Compatible.map₂ {f : Projective → Projective → Projective}
    (hleft : ∀ r, f absent r = absent) (hright : ∀ r, f r absent = absent) (h : Compatible p q)
    (h' : Compatible p' q') : Compatible (f p p') (f q q') := by
  obtain rfl | rfl | rfl := h
  · exact .inl (hleft _)
  · exact .inr (.inl (hleft _))
  · exact h'.map (hright p)

/-- Sums of what is compatible are compatible. -/
theorem Compatible.add (h : Compatible p q) (h' : Compatible p' q') :
    Compatible (p + p') (q + q') := .map₂ (fun _ => absent_add) (fun _ => add_absent) h h'

/-- Products of what is compatible are compatible. -/
theorem Compatible.mul (h : Compatible p q) (h' : Compatible p' q') :
    Compatible (p * p') (q * q') := .map₂ (fun _ => absent_mul) (fun _ => mul_absent) h h'

/-- Reciprocals of what is compatible are compatible. -/
theorem Compatible.inv (h : Compatible p q) : Compatible p⁻¹ q⁻¹ := h.map inv_absent

/-- The number without infinity is compatible with what the number is. -/
theorem Compatible.finitePart (h : Compatible p q) : Compatible p q.finitePart := by
  cases q with
  | infinite => exact compatible_absent
  | _ => exact h

@[simp] theorem finitePart_finite (r : ℝ) : (finite r).finitePart = finite r := rfl

@[simp] theorem finitePart_absent : absent.finitePart = absent := rfl

@[simp] theorem finitePart_infinite : infinite.finitePart = absent := rfl

@[simp] theorem finitePart_eq_finite {r : ℝ} : p.finitePart = finite r ↔ p = finite r := by
  cases p <;> simp

/-- Only what is missing is absent. -/
@[simp] theorem ofExact_eq_absent {x : Exact} : ofExact x = absent ↔ x = missing := by
  cases x <;> simp [ofExact]

/-- Only a number is finite. -/
@[simp] theorem ofExact_eq_finite {x : Exact} {r : ℝ} : ofExact x = finite r ↔ x = number r := by
  cases x <;> simp [ofExact]

/-- An exact number has no infinite part. -/
@[simp] theorem finitePart_ofExact (x : Exact) : (ofExact x).finitePart = ofExact x := by
  cases x <;> rfl

/-- Exact numbers that mean the same are the same. -/
theorem ofExact_injective : Function.Injective ofExact := by
  intro x y h
  cases x <;> cases y <;> simp_all [ofExact]

/-- Infinity times anything is infinite or has no meaning. -/
@[simp] theorem finitePart_mul_infinite (p : Projective) : (p * infinite).finitePart = absent := by
  cases p with
  | finite r => by_cases hr : r = 0 <;> simp [hr, finite_mul_infinite]
  | _ => simp

end Projective

namespace Expr

/-- Multiplying exact numbers multiplies what they mean. -/
theorem ofExact_foldl_mul (values : List Exact) (x : Exact) :
    ofExact (values.foldl (· * ·) x) = ofExact x * (values.map ofExact).prod := by
  induction values generalizing x with
  | nil => simp
  | cons v values ih => rw [List.foldl_cons, ih, ofExact_mul, List.map_cons, List.prod_cons, mul_assoc]

/-- A product of exact numbers is one of them. -/
theorem exists_ofExact_prod (values : List Exact) : ∃ x, ofExact x = (values.map ofExact).prod :=
  ⟨values.foldl (· * ·) (.number 1), by rw [ofExact_foldl_mul, ofExact_number, ← Projective.one_eq,
    one_mul]⟩

/-- The value of a product is the finite part of what its coefficient and its factors mean. -/
theorem ofExact_productValue (c : Coefficient Exact) (ns ds : List Exact) :
    ofExact (productValue c ns ds) =
      (c.meaning * (ns.map ofExact).prod * (ds.map ofExact).prod⁻¹).finitePart := by
  obtain ⟨n, d⟩ := c
  obtain ⟨x, hx⟩ := exists_ofExact_prod ns
  obtain ⟨y, hy⟩ := exists_ofExact_prod ds
  have habove : ns.foldl (· * ·) n = n * x :=
    ofExact_injective (by rw [ofExact_foldl_mul, ofExact_mul, hx])
  have hbelow : ds.foldl (· * ·) d = d * y :=
    ofExact_injective (by rw [ofExact_foldl_mul, ofExact_mul, hy])
  rw [productValue, habove, hbelow, ← hx, ← hy]
  change ofExact (if Scalar.eq (d * y) Scalar.zero then Scalar.nan else n * x / (d * y)) =
    (ofExact (n / d) * ofExact x * (ofExact y)⁻¹).finitePart
  obtain ⟨n, d, rfl, rfl, hd⟩ | rfl | rfl | rfl := Coefficient.fraction_cases n d
  · cases y with
    | missing => simp
    | number y =>
      obtain rfl | hy := eq_or_ne y 0
      · simp
      · have hne : ¬ Scalar.eq (Exact.number d * Exact.number y) Scalar.zero = true := by
          simp [hd, hy]
        rw [if_neg hne, number_div hd, ofExact_number, ofExact_number, inv_finite hy]
        cases x with
        | missing => simp
        | number x =>
          rw [number_mul, number_mul, number_div (mul_ne_zero hd hy), ofExact_number, ofExact_number,
            finite_mul_finite, finite_mul_finite, finitePart_finite, ← div_eq_mul_inv,
            div_mul_eq_mul_div, div_div]
  · simp
  · simp
  · cases y <;> simp

/-- The value of a power of numbers is the finite part of their power. -/
theorem ofExact_powerValue (a e : ℝ) :
    ofExact (powerValue (.number a) (.number e)) = (realPower a e).finitePart := by
  have hwhole : Scalar.isWhole (Exact.number e) = true ↔ Whole e := by
    simp [Scalar.isWhole]
  rw [powerValue, realPower]
  by_cases hneg : a < 0 ∧ ¬ Whole e
  · rw [if_pos hneg, if_pos (by simpa [hwhole, ← Bool.not_eq_true] using hneg)]
    rfl
  · rw [if_neg hneg, if_neg (by simpa [hwhole, ← Bool.not_eq_true] using hneg)]
    by_cases hzero : a = 0 ∧ e < 0
    · rw [if_pos hzero, if_pos (by simpa using hzero)]
      rfl
    · rw [if_neg hzero, if_neg (by simpa using hzero)]
      have hpower : HasPower a e := by
        refine ⟨fun ha => by_contra fun he => hneg ⟨ha, he⟩, fun ha => ?_⟩
        exact le_of_not_gt fun he => hzero ⟨ha, he⟩
      change ofExact (Exact.power (.number a) (.number e)) = _
      rw [Exact.power, if_pos hpower]
      rfl

/-- The value of a power does not disagree with what it means. -/
theorem compatible_powerValue {p q : Projective} {x y : Exact} (hp : Compatible p (ofExact x))
    (hq : Compatible q (ofExact y)) : Compatible (p.power q) (ofExact (powerValue x y)) := by
  cases x with
  | missing =>
    cases y with
    | missing => simp [powerValue, Scalar.pow, Exact.power]
    | number e =>
      by_cases he : e = 0
      · -- whatever the base is, its power to zero is one
        have hvalue : ofExact (powerValue missing (.number e)) = 1 := by
          simp [powerValue, Scalar.pow, Exact.power, he, Projective.one_eq]
        rw [hvalue]
        have hle := hq.le_finite
        rw [he] at hle
        exact compatible_of_le ((power_mono le_rfl hle).trans (power_zero_le p))
      · simp [powerValue, Scalar.pow, Exact.power, he]
  | number a =>
    cases y with
    | missing =>
      by_cases ha : a = 1
      · -- whatever the exponent is, the power of one is one
        have hvalue : ofExact (powerValue (.number a) missing) = 1 := by
          simp [powerValue, Scalar.pow, Exact.power, ha, Projective.one_eq, Scalar.isWhole]
        rw [hvalue]
        have hle := hp.le_finite
        rw [ha] at hle
        exact compatible_of_le ((power_mono hle le_rfl).trans (one_power_le q))
      · have hvalue : powerValue (.number a) missing = missing := by
          rw [powerValue]
          split
          · rfl
          · split
            · rfl
            · simp [Scalar.pow, Exact.power, ha]
        rw [hvalue]
        exact compatible_absent
    | number e =>
      rw [ofExact_powerValue]
      exact (compatible_of_le (power_mono hp.le_finite hq.le_finite)).finitePart

/-- The value of a logarithm is the logarithm of the values. -/
theorem ofExact_logValue (x y : Exact) : ofExact (logValue x y) = (ofExact x).log (ofExact y) := by
  cases x with
  | missing => cases y <;> simp [logValue, Scalar.log, lift]
  | number a =>
    cases y with
    | missing => simp [logValue, Scalar.log, lift]
    | number r => rfl

/-- The value of a function is that of the value. -/
theorem ofExact_trigValue (f : Trig) (x : Exact) :
    ofExact (f.value x) = (ofExact x).apply fun r => f.value (.number r) := by
  cases x with
  | missing =>
    cases f with
    | tan =>
      rw [Trig.value]
      split <;> rfl
    | _ => rfl
  | number r => rfl

section Agreement

variable {b : Bindings Exact}

/-- Lists whose members do not disagree have sums that do not. -/
theorem compatible_sum {es : List (Expr Exact)} {vs : List Exact}
    (h : List.Forall₂ (fun e v => Compatible (e.meaning b) (ofExact v)) es vs) :
    Compatible (es.map (meaning b)).sum (vs.map ofExact).sum := by
  induction h with
  | nil => exact compatible_of_le le_rfl
  | cons h _ ih =>
    rw [List.map_cons, List.map_cons, List.sum_cons, List.sum_cons]
    exact h.add ih

/-- Lists whose members do not disagree have products that do not. -/
theorem compatible_prod {es : List (Expr Exact)} {vs : List Exact}
    (h : List.Forall₂ (fun e v => Compatible (e.meaning b) (ofExact v)) es vs) :
    Compatible (es.map (meaning b)).prod (vs.map ofExact).prod := by
  induction h with
  | nil => exact compatible_of_le le_rfl
  | cons h _ ih =>
    rw [List.map_cons, List.map_cons, List.prod_cons, List.prod_cons]
    exact h.mul ih

/-- The sum of values means the sum of what they mean. -/
theorem ofExact_sumValue (vs : List Exact) :
    ofExact (vs.foldl (· + ·) Scalar.zero) = (vs.map ofExact).sum := by
  rw [Reduction.ofExact_foldl_add, Exact.zero_eq, ofExact_number, ← Projective.zero_eq, zero_add]

/-- The value of an expression does not disagree with what it means. -/
theorem compatible_value (e : Expr Exact) {v : Exact} (h : e.value b = .ok v) :
    Compatible (e.meaning b) (ofExact v) := by
  have ih (child : Expr Exact) (hchild : child ∈ e.children) {w : Exact}
      (hw : child.value b = .ok w) : Compatible (child.meaning b) (ofExact w) :=
    compatible_value child hw
  have hlist {es : List (Expr Exact)} {vs : List Exact} (hvs : values b es = .ok vs)
      (hes : ∀ child ∈ es, child ∈ e.children) :
      List.Forall₂ (fun e v => Compatible (e.meaning b) (ofExact v)) es vs := by
    refine ((List.forall₂_and_left _ _).mpr ⟨hes, values_eq_ok.mp hvs⟩).imp ?_
    rintro child w ⟨hchild, hw⟩
    exact ih child hchild hw
  cases e with
  | sum as =>
    rw [value] at h
    obtain ⟨vs, hvs, h⟩ := Reduction.ok_of_bind h
    cases h
    rw [meaning_sum, ofExact_sumValue]
    exact compatible_sum (hlist hvs fun _ h => h)
  | product c n d =>
    rw [value] at h
    obtain ⟨vs, hvs, h⟩ := Reduction.ok_of_bind h
    obtain ⟨ws, hws, h⟩ := Reduction.ok_of_bind h
    cases h
    rw [meaning_product, ofExact_productValue]
    have habove := compatible_prod (hlist hvs fun _ h => List.mem_append_left d h)
    have hbelow := compatible_prod (hlist hws fun _ h => List.mem_append_right n h)
    exact (((compatible_of_le le_rfl).mul habove).mul hbelow.inv).finitePart
  | power a x =>
    rw [value] at h
    obtain ⟨v, hv, h⟩ := Reduction.ok_of_bind h
    obtain ⟨w, hw, h⟩ := Reduction.ok_of_bind h
    cases h
    rw [meaning]
    exact compatible_powerValue (ih a (by simp [children]) hv) (ih x (by simp [children]) hw)
  | log a x =>
    rw [value] at h
    obtain ⟨v, hv, h⟩ := Reduction.ok_of_bind h
    obtain ⟨w, hw, h⟩ := Reduction.ok_of_bind h
    cases h
    rw [meaning, ofExact_logValue]
    exact Compatible.map₂ absent_log log_absent (ih a (by simp [children]) hv)
      (ih x (by simp [children]) hw)
  | trig f a =>
    rw [value] at h
    obtain ⟨v, hv, h⟩ := Reduction.ok_of_bind h
    cases h
    rw [meaning, ofExact_trigValue]
    exact Compatible.map rfl (ih a (by simp [children]) hv)
  | var x =>
    rw [value] at h
    split at h
    · rename_i w hw
      cases h
      rw [meaning, hw]
      exact compatible_of_le le_rfl
    · cases h
  | number n =>
    rw [value] at h
    cases h
    rw [meaning]
    exact compatible_of_le le_rfl
termination_by e.size
decreasing_by exact size_lt_of_mem_children hchild

/-- Expressions that are built alike have the same value. -/
theorem value_congruence : Congruence fun x y : Expr Exact => x.value b = y.value b := by
  have hlist {es es' : List (Expr Exact)}
      (h : List.Forall₂ (fun x y : Expr Exact => x.value b = y.value b) es es') :
      values b es = values b es' := by
    induction h with
    | nil => rfl
    | cons h _ ih => rw [values, values, h, ih]
  exact {
    sum h := by rw [value, value, hlist h]
    product {c c' n n' d d'} hc hn hd := by
      have hproduct : productValue c = productValue c' := by
        funext ns ds
        refine ofExact_injective ?_
        rw [ofExact_productValue, ofExact_productValue, Coefficient.meaning,
          Coefficient.value_eq_of_order_eq hc, Coefficient.meaning]
      rw [value, value, hlist hn, hlist hd, hproduct]
    power ha he := by rw [value, value, ha, he]
    log ha he := by rw [value, value, ha, he]
    trig ha := by rw [value, value, ha]
    var x := rfl
    number h := by rw [value, value, Number.value_eq_of_order_eq h] }

end Agreement

end Expr

end SymbolicAlgebra
