import SymbolicAlgebra.Exclusion.Basic
import SymbolicAlgebra.Proofs.Exact.Value

/-!
# Where an expression has no value

A node without a value has a part without one, or it breaks one of the conditions under which its
kind of expression is defined. Most of these conditions are recorded by exclusions. Three are not:
zero has no power to a negative exponent, a negative base none to an exponent that is only close to
an integer, and a coefficient or a literal may itself have no value.
-/

namespace SymbolicAlgebra.Expr

open Exact Projective

variable {b : Bindings Exact}

/-- The expression has a number as its value. -/
def Valued (b : Bindings Exact) (e : Expr Exact) : Prop := ∃ r : ℝ, e.value b = .ok (.number r)

/-- Every part of the expression has a number as its value. -/
def Defined (b : Bindings Exact) (e : Expr Exact) : Prop := e.Everywhere (Valued b)

/-- A condition that exclusions record is broken at a node whose parts are all defined: a divisor is
zero, a negative base has an exponent that is not even close to an integer, the base of a logarithm
is not positive or it is one, its body is not positive, or the argument of a tangent is at a pole. -/
inductive Recorded (b : Bindings Exact) : Expr Exact → Prop
  | divisor {c : Coefficient Exact} {n d : List (Expr Exact)} {e : Expr Exact} :
    e ∈ d → e.Defined b → e.value b = .ok (.number 0) → Recorded b (.product c n d)
  | power {base exponent : Expr Exact} {a r : ℝ} :
    base.Defined b → exponent.Defined b → base.value b = .ok (.number a) →
    exponent.value b = .ok (.number r) → a < 0 → (∀ n : ℤ, (10 : ℝ) ^ (-9 : ℤ) ≤ |r - n|) →
    Recorded b (.power base exponent)
  | logBase {base body : Expr Exact} {a : ℝ} :
    base.Defined b → base.value b = .ok (.number a) → (a ≤ 0 ∨ a = 1) → Recorded b (.log base body)
  | logBody {base body : Expr Exact} {r : ℝ} :
    body.Defined b → body.value b = .ok (.number r) → r ≤ 0 → Recorded b (.log base body)
  | tangent {body : Expr Exact} {r : ℝ} :
    body.Defined b → body.value b = .ok (.number r) → |Real.cos r| < (10 : ℝ) ^ (-12 : ℤ) →
    Recorded b (.trig .tan body)

/-- A power of zero to a negative exponent. -/
def ZeroPower (b : Bindings Exact) (e : Expr Exact) : Prop :=
  ∃ base exponent : Expr Exact, ∃ r < 0, e = .power base exponent ∧
    base.value b = .ok (.number 0) ∧ exponent.value b = .ok (.number r)

/-- A condition that no exclusion records is broken: zero has a negative exponent, a negative base
has an exponent that is close to an integer without being one, or a coefficient, a literal or a
variable has no number for its value. -/
inductive Unrecorded (b : Bindings Exact) : Expr Exact → Prop
  | zeroPower {e : Expr Exact} : e.ZeroPower b → Unrecorded b e
  | nearWhole {base exponent : Expr Exact} {a r : ℝ} {n : ℤ} :
    base.value b = .ok (.number a) → exponent.value b = .ok (.number r) → a < 0 → ¬ Whole r →
    |r - n| < (10 : ℝ) ^ (-9 : ℤ) → Unrecorded b (.power base exponent)
  | coefficient {c : Coefficient Exact} {n d : List (Expr Exact)} :
    c.value = missing → Unrecorded b (.product c n d)
  | literal {v : Number Exact} : v.value = missing → Unrecorded b (.number v)
  | var {name : String} : b.get? name = some missing → Unrecorded b (.var name)

/-- Expressions with numbers as values have a list of numbers as values. -/
theorem values_of_valued {es : List (Expr Exact)} (h : ∀ e ∈ es, e.Valued b) :
    ∃ rs : List ℝ, values b es = .ok (rs.map Exact.number) := by
  induction es with
  | nil => exact ⟨[], rfl⟩
  | cons e es ih =>
    rw [List.forall_mem_cons] at h
    obtain ⟨⟨r, hr⟩, hes⟩ := h
    obtain ⟨rs, hrs⟩ := ih hes
    exact ⟨r :: rs, values_eq_ok.mpr (.cons hr (values_eq_ok.mp hrs))⟩

/-- The sum of numbers means their sum. -/
theorem sum_numbers (rs : List ℝ) : ((rs.map Exact.number).map ofExact).sum = finite rs.sum := by
  induction rs with
  | nil => rfl
  | cons r rs ih =>
    rw [List.map_cons, List.map_cons, List.sum_cons, ih, ofExact_number, finite_add_finite,
      List.sum_cons]

/-- The product of numbers means their product. -/
theorem prod_numbers (rs : List ℝ) : ((rs.map Exact.number).map ofExact).prod = finite rs.prod := by
  induction rs with
  | nil => rfl
  | cons r rs ih =>
    rw [List.map_cons, List.map_cons, List.prod_cons, ih, ofExact_number, finite_mul_finite,
      List.prod_cons]

/-- What all parts of an expression have numbers as values for means the value. -/
theorem meaning_of_defined (e : Expr Exact) (h : e.Defined b) {v : Exact}
    (hv : e.value b = .ok v) : e.meaning b = ofExact v := by
  have ih (child : Expr Exact) (hchild : child ∈ e.children) {w : Exact}
      (hw : child.value b = .ok w) : child.meaning b = ofExact w :=
    meaning_of_defined child (h.child hchild) hw
  have hlist {es : List (Expr Exact)} {vs : List Exact} (hvs : values b es = .ok vs)
      (hes : ∀ child ∈ es, child ∈ e.children) : es.map (meaning b) = vs.map ofExact := by
    rw [← List.forall₂_eq_eq_eq, List.forall₂_map_left_iff, List.forall₂_map_right_iff]
    refine ((List.forall₂_and_left _ _).mpr ⟨hes, values_eq_ok.mp hvs⟩).imp ?_
    rintro child w ⟨hchild, hw⟩
    exact ih child hchild hw
  obtain ⟨r, hr⟩ := h.root
  obtain rfl : .number r = v := by
    rw [hr] at hv
    exact Except.ok.inj hv
  cases e with
  | sum as =>
    rw [value] at hr
    obtain ⟨vs, hvs, hr⟩ := Reduction.ok_of_bind hr
    rw [meaning_sum, hlist hvs fun _ h => h, ← ofExact_sumValue]
    exact congrArg ofExact (Except.ok.inj hr)
  | product c n d =>
    rw [value] at hr
    obtain ⟨vs, hvs, hr⟩ := Reduction.ok_of_bind hr
    obtain ⟨ws, hws, hr⟩ := Reduction.ok_of_bind hr
    have hproduct := ofExact_productValue c vs ws
    rw [Except.ok.inj hr, ofExact_number, eq_comm, finitePart_eq_finite] at hproduct
    rw [meaning_product, hlist hvs fun _ h => List.mem_append_left d h,
      hlist hws fun _ h => List.mem_append_right n h, hproduct, ofExact_number]
  | power a x =>
    rw [value] at hr
    obtain ⟨v, hv, hr⟩ := Reduction.ok_of_bind hr
    obtain ⟨w, hw, hr⟩ := Reduction.ok_of_bind hr
    have ha : a ∈ (power a x).children := by simp [children]
    have hx : x ∈ (power a x).children := by simp [children]
    obtain ⟨s, hs⟩ := (h.child ha).root
    obtain ⟨t, ht⟩ := (h.child hx).root
    rw [hs] at hv
    rw [ht] at hw
    cases hv
    cases hw
    have hpower := ofExact_powerValue s t
    rw [Except.ok.inj hr, ofExact_number, eq_comm, finitePart_eq_finite] at hpower
    rw [meaning, ih a ha hs, ih x hx ht]
    exact hpower
  | log a x =>
    rw [value] at hr
    obtain ⟨v, hv, hr⟩ := Reduction.ok_of_bind hr
    obtain ⟨w, hw, hr⟩ := Reduction.ok_of_bind hr
    rw [meaning, ih a (by simp [children]) hv, ih x (by simp [children]) hw, ← ofExact_logValue]
    exact congrArg ofExact (Except.ok.inj hr)
  | trig f a =>
    rw [value] at hr
    obtain ⟨v, hv, hr⟩ := Reduction.ok_of_bind hr
    rw [meaning, ih a (by simp [children]) hv, ← ofExact_trigValue]
    exact congrArg ofExact (Except.ok.inj hr)
  | var x =>
    rw [value] at hr
    split at hr
    · rename_i w hw
      rw [meaning, hw]
      exact congrArg ofExact (Except.ok.inj hr)
    · cases hr
  | number n =>
    rw [value] at hr
    rw [meaning]
    exact congrArg ofExact (Except.ok.inj hr)
termination_by e.size
decreasing_by exact size_lt_of_mem_children hchild

/-- Where no part has a value missing, a node has none only if it breaks a condition. -/
theorem recorded_or_unrecorded {x : Expr Exact} (hbelow : ∀ child ∈ x.children, child.Defined b)
    (h : x.value b = .ok missing) : Recorded b x ∨ Unrecorded b x := by
  cases x with
  | sum as =>
    obtain ⟨rs, hrs⟩ := values_of_valued fun e he => (hbelow e he).root
    rw [children] at hrs
    rw [value, hrs] at h
    have hvalue := congrArg ofExact (Except.ok.inj h)
    rw [ofExact_sumValue, sum_numbers] at hvalue
    cases hvalue
  | product c n d =>
    have habove : ∀ e ∈ n, e.Valued b := fun e he => (hbelow e (List.mem_append_left d he)).root
    have hdivisors : ∀ e ∈ d, e.Defined b := fun e he => hbelow e (List.mem_append_right n he)
    obtain ⟨rs, hrs⟩ := values_of_valued habove
    obtain ⟨ss, hss⟩ := values_of_valued fun e he => (hdivisors e he).root
    rw [value, hrs, hss] at h
    have hvalue := congrArg ofExact (Except.ok.inj h)
    rw [ofExact_productValue, prod_numbers, prod_numbers, ofExact_missing] at hvalue
    cases hc : c.value with
    | missing => exact .inr (.coefficient hc)
    | number k =>
      have hzero : ss.prod = 0 := by
        by_contra hne
        rw [Coefficient.meaning, hc, ofExact_number, inv_finite hne] at hvalue
        cases hvalue
      have hmem : Exact.number 0 ∈ ss.map Exact.number :=
        List.mem_map_of_mem (List.prod_eq_zero_iff.mp hzero)
      have hfound := Reduction.forall_of_forall₂ (q := fun v => ∃ e ∈ d, e.value b = .ok v)
        (values_eq_ok.mp hss) (fun e he v hv => ⟨e, he, hv⟩)
      obtain ⟨e, he, hv⟩ := hfound _ hmem
      exact .inl (.divisor he (hdivisors e he) hv)
  | power base exponent =>
    obtain ⟨a, ha⟩ := (hbelow base (by simp [children])).root
    obtain ⟨r, hr⟩ := (hbelow exponent (by simp [children])).root
    rw [value, ha, hr] at h
    have hvalue : ofExact (powerValue (.number a) (.number r)) = absent :=
      congrArg ofExact (Except.ok.inj h)
    rw [ofExact_powerValue] at hvalue
    by_cases hneg : a < 0 ∧ ¬ Whole r
    · by_cases hfar : ∀ n : ℤ, (10 : ℝ) ^ (-9 : ℤ) ≤ |r - n|
      · exact .inl (.power (hbelow base (by simp [children])) (hbelow exponent (by simp [children]))
          ha hr hneg.1 hfar)
      · simp only [not_forall, not_le] at hfar
        obtain ⟨n, hn⟩ := hfar
        exact .inr (.nearWhole ha hr hneg.1 hneg.2 hn)
    · by_cases hzero : a = 0 ∧ r < 0
      · obtain ⟨rfl, hr0⟩ := hzero
        exact .inr (.zeroPower ⟨base, exponent, r, hr0, rfl, ha, hr⟩)
      · rw [realPower, if_neg hneg, if_neg hzero] at hvalue
        cases hvalue
  | log base body =>
    obtain ⟨a, ha⟩ := (hbelow base (by simp [children])).root
    obtain ⟨r, hr⟩ := (hbelow body (by simp [children])).root
    rw [value, ha, hr] at h
    have hvalue : logValue (.number a) (.number r) = missing := Except.ok.inj h
    by_cases hbase : a ≤ 0 ∨ a = 1
    · exact .inl (.logBase (hbelow base (by simp [children])) ha hbase)
    · obtain hr0 | hr0 := le_or_gt r 0
      · exact .inl (.logBody (hbelow body (by simp [children])) hr hr0)
      · simp only [not_or, not_le] at hbase
        rw [logValue_of_pos hbase.1 hbase.2 hr0] at hvalue
        cases hvalue
  | trig f body =>
    obtain ⟨r, hr⟩ := (hbelow body (by simp [children])).root
    rw [value, hr] at h
    have hvalue : f.value (Exact.number r) = missing := Except.ok.inj h
    cases f with
    | tan =>
      rw [Trig.value] at hvalue
      split at hvalue
      · rename_i hpole
        have hpole : decide (|Real.cos r| < ((1 : ℕ) : ℝ) * 10 ^ (-12 : ℤ)) = true :=
          (lt_number (a := |Real.cos r|)).symm.trans hpole
        rw [decide_eq_true_eq, Nat.cast_one, one_mul] at hpole
        exact .inl (.tangent (hbelow body (by simp [children])) hr hpole)
      · cases hvalue
    | _ => cases hvalue
  | var name =>
    rw [value] at h
    split at h
    · rename_i v hv
      exact .inr (.var (hv.trans (congrArg some (Except.ok.inj h))))
    · cases h
  | number v =>
    rw [value] at h
    exact .inr (.literal (Except.ok.inj h))

/-- The parts of what has a meaning have one. -/
theorem meaning_ne_absent_of_mem_children {e child : Expr Exact} (h : e.meaning b ≠ absent)
    (hchild : child ∈ e.children) : child.meaning b ≠ absent := by
  cases e with
  | sum as =>
    rw [meaning_sum] at h
    exact ne_absent_of_mem_sum h (List.mem_map_of_mem hchild)
  | product c n d =>
    rw [meaning_product] at h
    obtain ⟨habove, hbelow⟩ := ne_absent_of_mul h
    obtain hmem | hmem := List.mem_append.mp hchild
    · exact ne_absent_of_mem_prod (ne_absent_of_mul habove).2 (List.mem_map_of_mem hmem)
    · exact ne_absent_of_mem_prod (inv_eq_absent.not.mp hbelow) (List.mem_map_of_mem hmem)
  | power base exponent =>
    rw [meaning] at h
    obtain ⟨hbase, hexponent⟩ := isFinite_of_power h
    obtain rfl | rfl : child = base ∨ child = exponent := by simpa [children] using hchild
    · exact hbase
    · exact hexponent.ne_absent
  | log base body =>
    rw [meaning] at h
    obtain ⟨hbase, hbody, -⟩ := isFinite_of_log h
    obtain rfl | rfl : child = base ∨ child = body := by simpa [children] using hchild
    · exact hbase.ne_absent
    · exact hbody.ne_absent
  | trig f body =>
    rw [meaning] at h
    obtain rfl : child = body := by simpa [children] using hchild
    exact (isFinite_of_apply h).1.ne_absent
  | var name => cases hchild
  | number v => cases hchild

/-- What has a meaning has parts that all have one. -/
theorem everywhere_ne_absent {e : Expr Exact} (h : e.meaning b ≠ absent) :
    e.Everywhere fun x => x.meaning b ≠ absent :=
  everywhere_of_children (fun _ he _ => meaning_ne_absent_of_mem_children he) e h

/-- What breaks a condition that no exclusion records means nothing, except for powers of zero. -/
theorem Unrecorded.zeroPower_of_meaning {x : Expr Exact} (h : Unrecorded b x)
    (hbelow : ∀ child ∈ x.children, child.Defined b) (hmeaning : x.meaning b ≠ absent) :
    x.ZeroPower b := by
  cases h with
  | zeroPower h => exact h
  | @nearWhole base exponent a r n ha hr hneg hwhole hnear =>
    refine (hmeaning ?_).elim
    rw [meaning, meaning_of_defined base (hbelow base (by simp [children])) ha,
      meaning_of_defined exponent (hbelow exponent (by simp [children])) hr]
    exact realPower_of_not_whole hneg hwhole
  | @coefficient c n d hc =>
    refine (hmeaning ?_).elim
    rw [meaning_product, Coefficient.meaning, hc, ofExact_missing, absent_mul, absent_mul]
  | literal hv =>
    refine (hmeaning ?_).elim
    rw [meaning, hv, ofExact_missing]
  | var hb =>
    refine (hmeaning ?_).elim
    rw [meaning, hb]
    rfl

/-- A node that breaks a recorded condition means nothing, unless it is a product and infinite. -/
theorem Recorded.meaning {x : Expr Exact} (h : Recorded b x) :
    x.meaning b = absent ∨ x.isProduct = true ∧ x.meaning b = infinite := by
  cases h with
  | @divisor c n d e he hdefined hzero =>
    have hdivisor : finite 0 ∈ d.map (Expr.meaning b) :=
      List.mem_map.mpr ⟨e, he, meaning_of_defined e hdefined hzero⟩
    have hinfinite : (product c n d).meaning b ≤ infinite := by
      rw [meaning_product]
      refine (mul_le_mul_right (inv_mono (prod_le_zero_of_mem hdivisor)) _).trans ?_
      rw [inv_zero]
      exact mul_infinite_le _
    exact hinfinite.imp_right fun h => ⟨rfl, h⟩
  | @power base exponent a r hbase hexponent ha hr hneg hfar =>
    left
    have hwhole : ¬ Whole r := by
      rintro ⟨n, rfl⟩
      have hclose := hfar n
      rw [sub_self, abs_zero] at hclose
      exact absurd hclose (not_le.mpr (by positivity))
    rw [Expr.meaning, meaning_of_defined base hbase ha, meaning_of_defined exponent hexponent hr]
    exact realPower_of_not_whole hneg hwhole
  | @logBase base body a hbase ha hbad =>
    left
    rw [Expr.meaning, meaning_of_defined base hbase ha]
    obtain habsent | ⟨s, r, hs, -, hpos, hone, -⟩ := log_cases (ofExact (.number a)) (body.meaning b)
    · exact habsent
    · cases hs
      exact (hbad.elim (not_le.mpr hpos) hone).elim
  | @logBody base body r hbody hr hbad =>
    left
    rw [Expr.meaning, meaning_of_defined body hbody hr]
    obtain habsent | ⟨s, t, -, ht, -, -, hpos, -⟩ := log_cases (base.meaning b) (ofExact (.number r))
    · exact habsent
    · cases ht
      exact (not_le.mpr hpos hbad).elim
  | @tangent body r hbody hr hpole =>
    left
    rw [Expr.meaning, meaning_of_defined body hbody hr]
    have hmissing : Trig.value .tan (Exact.number r) = missing := by
      rw [Trig.value]
      exact if_pos ((lt_number (a := |Real.cos r|)).trans (by simpa using hpole))
    exact congrArg ofExact hmissing

/-- An expression of which some part has no value has a lowest one, which breaks a condition. -/
theorem exists_broken {e : Expr Exact} (hbound : e.VariablesIn fun x => (b.get? x).isSome)
    (h : ¬ e.Defined b) : ∃ x ∈ e.postOrder, (∀ child ∈ x.children, child.Defined b) ∧
      (Recorded b x ∨ Unrecorded b x) := by
  obtain ⟨x, hx, hvalued, hbelow⟩ := exists_lowest e h
  obtain ⟨v, hv⟩ := exists_value x (hbound.node hx)
  cases v with
  | number r => exact (hvalued ⟨r, hv⟩).elim
  | missing => exact ⟨x, hx, hbelow, recorded_or_unrecorded hbelow hv⟩

/-- Where no condition is broken every part of an expression has a value. -/
theorem defined_of_unbroken {e : Expr Exact} (hbound : e.VariablesIn fun x => (b.get? x).isSome)
    (hrecorded : ∀ x ∈ e.postOrder, ¬ Recorded b x)
    (hunrecorded : ∀ x ∈ e.postOrder, ¬ Unrecorded b x) : e.Defined b := by
  by_contra h
  obtain ⟨x, hx, -, hbroken | hbroken⟩ := exists_broken hbound h
  · exact hrecorded x hx hbroken
  · exact hunrecorded x hx hbroken

/-- An expression that means a number has it as its value, unless some node breaks a recorded
condition or raises zero to a negative power. -/
theorem value_of_meaning {e : Expr Exact} {r : ℝ} (h : e.meaning b = finite r)
    (hbound : e.VariablesIn fun x => (b.get? x).isSome)
    (hrecorded : ∀ x ∈ e.postOrder, ¬ Recorded b x) :
    e.value b = .ok (.number r) ∨
      (e.value b = .ok missing ∧ ∃ x ∈ e.postOrder, x.ZeroPower b) := by
  obtain ⟨v, hv⟩ := exists_value e hbound
  cases v with
  | number s =>
    left
    have hcompatible := (compatible_value e hv).le_finite
    rw [h, finite_le_iff] at hcompatible
    cases hcompatible
    exact hv
  | missing =>
    right
    have hundefined : ¬ e.Defined b := by
      intro hdefined
      rw [meaning_of_defined e hdefined hv] at h
      cases h
    have hmeaning : e.meaning b ≠ absent := by
      rw [h]
      exact fun h => nomatch h
    obtain ⟨x, hx, hbelow, hbroken | hbroken⟩ := exists_broken hbound hundefined
    · exact (hrecorded x hx hbroken).elim
    · exact ⟨hv, x, hx,
        hbroken.zeroPower_of_meaning hbelow (everywhere_ne_absent hmeaning x hx)⟩

end SymbolicAlgebra.Expr
