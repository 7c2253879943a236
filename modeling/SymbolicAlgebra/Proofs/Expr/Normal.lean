import SymbolicAlgebra.Proofs.Expr.Nodes
import SymbolicAlgebra.Proofs.Expr.Order

/-!
# Normal forms

What simplification guarantees at every node: sums and products are sorted, flat and free of what
could be computed or dropped, powers and logarithms are not of a kind that has a rule of its own.
-/

namespace SymbolicAlgebra.Expr

variable {α : Type} [Scalar α]

/-- The expression is a product. -/
def isProduct : Expr α → Bool
  | product .. => true
  | _ => false

/-- Sorted addends, none of them a sum or zero and at most one a literal. -/
structure NormalSum (addends : List (Expr α)) : Prop where
  sorted : addends.Pairwise fun a b => a.order b ≠ .gt
  flat : ∀ a ∈ addends, a.isSum = false
  nonzero : ∀ a ∈ addends, a.isZero = false
  literals : addends.countP (fun a => a.real?.isSome) ≤ 1

/-- A coefficient other than zero and sorted factors, none of them a product or a literal apart from
a divisor that is the single literal zero. The factors are not a single sum, and only a zero can be
the base of factors on both sides of the fraction line. -/
structure NormalProduct (c : Coefficient α) (n d : List (Expr α)) : Prop where
  coefficient : c.isZero = false
  sortedAbove : n.Pairwise fun a b => a.order b ≠ .gt
  sortedBelow : d.Pairwise fun a b => a.order b ≠ .gt
  factors : ∀ e ∈ n, e.isProduct = false ∧ e.real? = none
  divisors : (∀ e ∈ d, e.isProduct = false ∧ e.real? = none) ∨ d = [zero]
  notSum : ∀ addends, ¬ (n = [sum addends] ∧ d = [])
  apart : ∀ a ∈ n, ∀ b ∈ d, (b.powerParts.1 == a.powerParts.1) = true →
    a.powerParts.1.isZero = true

/-- An exponent that is not zero or one, nor negative, nor a logarithm to the base, and a base that
is not one. -/
structure NormalPower (base exponent : Expr α) : Prop where
  notZero : exponent.isReal Scalar.zero = false
  notOne : exponent.isReal Scalar.one = false
  notNegative : exponent.isNegative = false
  baseNotOne : base.isReal Scalar.one = false
  notLog : ∀ b body, exponent = log b body → (b == base) = false

/-- A body that is not the base, nor one, nor a power of the base. -/
structure NormalLog (base body : Expr α) : Prop where
  notBase : (body == base) = false
  notOne : body.isReal Scalar.one = false
  notPower : ∀ b exponent, body = power b exponent → (b == base) = false

/-- What is guaranteed of a single node. -/
def NormalNode : Expr α → Prop
  | sum addends => NormalSum addends
  | product c n d => NormalProduct c n d
  | power base exponent => NormalPower base exponent
  | log base body => NormalLog base body
  | trig _ _ => True
  | var _ => True
  | number _ => True

/-- What is guaranteed of a single node holds at every node. -/
def Normal (e : Expr α) : Prop := e.Everywhere NormalNode

/-- A variable is in normal form. -/
theorem normal_var (name : String) : (var name : Expr α).Normal := everywhere_of_leaf rfl trivial

/-- A number is in normal form. -/
theorem normal_number (v : Number α) : (number v).Normal := everywhere_of_leaf rfl trivial

/-- The addends of a sum are in normal form, and the sum is one of such addends. -/
theorem normal_sum {addends : List (Expr α)} :
    (sum addends).Normal ↔ NormalSum addends ∧ ∀ a ∈ addends, a.Normal := everywhere_iff

/-- The factors of a product are in normal form, and the product is one of such factors. -/
theorem normal_product {c : Coefficient α} {n d : List (Expr α)} :
    (product c n d).Normal ↔
      NormalProduct c n d ∧ (∀ e ∈ n, e.Normal) ∧ ∀ e ∈ d, e.Normal := by
  rw [Normal, everywhere_iff]
  simp only [children, List.forall_mem_append]
  rfl

/-- Base and exponent are in normal form, and the power is one of such parts. -/
theorem normal_power {base exponent : Expr α} :
    (power base exponent).Normal ↔ NormalPower base exponent ∧ base.Normal ∧ exponent.Normal := by
  rw [Normal, everywhere_iff]
  simp only [children, List.forall_mem_cons, List.not_mem_nil, false_imp_iff, implies_true, and_true]
  rfl

/-- Base and body are in normal form, and the logarithm is one of such parts. -/
theorem normal_log {base body : Expr α} :
    (log base body).Normal ↔ NormalLog base body ∧ base.Normal ∧ body.Normal := by
  rw [Normal, everywhere_iff]
  simp only [children, List.forall_mem_cons, List.not_mem_nil, false_imp_iff, implies_true, and_true]
  rfl

/-- A function's body is in normal form. -/
theorem normal_trig {f : Trig} {body : Expr α} : (trig f body).Normal ↔ body.Normal := by
  rw [Normal, everywhere_iff]
  simp only [children, List.forall_mem_singleton]
  exact and_iff_right trivial

/-- The base and the exponent of which a normal expression is a power are normal. -/
theorem Normal.powerParts {e : Expr α} (h : e.Normal) :
    e.powerParts.1.Normal ∧ e.powerParts.2.Normal := by
  cases e with
  | power base exponent => exact (normal_power.mp h).2
  | _ => exact ⟨h, normal_number _⟩

/-- An addend of a sum in the making: in normal form and not itself a sum. -/
def Addend (e : Expr α) : Prop := e.Normal ∧ e.isSum = false

/-- A factor of a product in the making: it has a property and is neither a product nor a literal. -/
def Factor (K : Expr α → Prop) (e : Expr α) : Prop := K e ∧ e.isProduct = false ∧ e.real? = none

/-- The addends of a normal expression are in normal form and not sums. -/
theorem Normal.addends {e : Expr α} (h : e.Normal) : ∀ a ∈ e.addends, a.Addend := by
  intro a ha
  cases e with
  | sum as =>
    obtain ⟨shape, below⟩ := normal_sum.mp h
    exact ⟨below a ha, shape.flat a ha⟩
  | _ =>
    obtain rfl := List.mem_singleton.mp ha
    exact ⟨h, rfl⟩

/-- A single factor times a coefficient is in normal form, unless the factor is a sum. -/
theorem normal_scaled {c : Coefficient α} {e : Expr α} (hc : c.isZero = false) (he : e.Factor Normal)
    (hsum : e.isSum = false) : (product c [e] []).Normal := by
  obtain ⟨hnormal, hproduct, hliteral⟩ := he
  refine normal_product.mpr ⟨?_, by simpa using hnormal, by simp⟩
  exact {
    coefficient := hc
    sortedAbove := List.pairwise_singleton _ _
    sortedBelow := List.Pairwise.nil
    factors := by simpa using ⟨hproduct, hliteral⟩
    divisors := .inl (by simp)
    notSum := by
      rintro addends ⟨h, -⟩
      obtain rfl := List.singleton_inj.mp h
      cases hsum
    apart := by simp }

/-- A normal product stays normal with another coefficient that is not zero. -/
theorem Normal.withCoefficient {c c' : Coefficient α} {n d : List (Expr α)}
    (h : (product c n d).Normal) (hc : c'.isZero = false) : (product c' n d).Normal := by
  obtain ⟨shape, above, below⟩ := normal_product.mp h
  exact normal_product.mpr ⟨{ shape with coefficient := hc }, above, below⟩

/-- A key that is neither a product nor a literal makes a normal addend with any coefficient. -/
theorem ofScaleParts_addend_of_factor {c : Coefficient α} {key : Expr α} (hkey : key.Factor Normal)
    (hsum : key.isSum = false) : (ofScaleParts c key).Addend := by
  fun_cases ofScaleParts c key with
  | case1 hc => exact ⟨normal_number _, rfl⟩
  | case2 hc hone => exact ⟨normal_number _, rfl⟩
  | case3 hc c' n d => exact (Bool.noConfusion hkey.2.1)
  | case4 hc hone => exact ⟨hkey.1, hsum⟩
  | case5 hc hone => exact ⟨normal_scaled (Bool.eq_false_iff.mpr hc) hkey hsum, rfl⟩

/-- The opposites of a list's members. -/
theorem negList_eq_map (es : List (Expr α)) : negList es = es.map neg := by
  induction es with
  | nil => rfl
  | cons e es ih => rw [negList, ih, List.map_cons]

variable [Scalar.Lawful α]

/-- The literal one is recognized as such. -/
theorem isReal_one : (one : Expr α).isReal Scalar.one = true := Scalar.Lawful.eq_unsignZero_one

/-- A literal is zero if its value is. -/
theorem isZero_real (v : α) : (real v).isZero = Scalar.eq v Scalar.zero :=
  Scalar.Lawful.eq_unsignZero v

/-- An expression that is equal to the literal zero is zero. -/
theorem isZero_of_order_zero {e : Expr α} (h : e.order zero = .eq) : e.isZero = true := by
  cases e with
  | number v =>
    cases v with
    | real v => exact Scalar.Lawful.eq_zero_of_order v h
    | constant c => cases h
  | _ => cases rank_eq_of_order_eq h

/-- The opposite of a normal addend is one too. -/
theorem Addend.neg {e : Expr α} (h : e.Addend) : e.neg.Addend := by
  obtain ⟨hnormal, hsum⟩ := h
  have scaled (hproduct : e.isProduct = false) (hliteral : e.real? = none) :
      (scaled .minusOne e).Addend :=
    ⟨normal_scaled Scalar.Lawful.eq_minusOne_zero ⟨hnormal, hproduct, hliteral⟩ hsum, rfl⟩
  cases e with
  | sum as => cases hsum
  | product c n d =>
    refine ⟨hnormal.withCoefficient ?_, rfl⟩
    rw [Coefficient.isZero_neg]
    exact (normal_product.mp hnormal).1.coefficient
  | number v =>
    cases v with
    | real v => exact ⟨normal_number _, rfl⟩
    | constant c => exact scaled rfl rfl
  | power base exponent => exact scaled rfl rfl
  | log base body => exact scaled rfl rfl
  | trig f body => exact scaled rfl rfl
  | var x => exact scaled rfl rfl

/-- The addends of the opposite of a normal expression are normal and not sums, even where they are
not in order any more. -/
theorem Normal.neg_addends {e : Expr α} (h : e.Normal) : ∀ a ∈ e.neg.addends, a.Addend := by
  intro a ha
  cases hsum : e.isSum with
  | true =>
    cases e with
    | sum as =>
      rw [neg, Expr.addends, negList_eq_map] at ha
      obtain ⟨b, hb, rfl⟩ := List.mem_map.mp ha
      exact (h.addends b hb).neg
    | _ => cases hsum
  | false =>
    have hneg := Addend.neg ⟨h, hsum⟩
    exact hneg.1.addends a ha

/-- A normal addend is still one with another coefficient. -/
theorem ofScaleParts_addend {e : Expr α} (h : e.Addend) (c : Coefficient α) :
    (ofScaleParts c e.scaleParts.2).Addend := by
  obtain ⟨hnormal, hsum⟩ := h
  fun_cases scaleParts e with
  | case1 v =>
    change (ofScaleParts c one).Addend
    unfold ofScaleParts
    rw [isReal_one, if_pos rfl]
    split <;> exact ⟨normal_number _, rfl⟩
  | case2 k x =>
    obtain ⟨shape, above, -⟩ := normal_product.mp hnormal
    refine ofScaleParts_addend_of_factor
      ⟨above x List.mem_cons_self, shape.factors x List.mem_cons_self⟩ ?_
    cases x with
    | sum as => exact (shape.notSum as ⟨rfl, rfl⟩).elim
    | _ => rfl
  | case3 k n d =>
    change (ofScaleParts c (product .one n d)).Addend
    rw [ofScaleParts]
    split
    · exact ⟨normal_number _, rfl⟩
    · rename_i hc
      exact ⟨hnormal.withCoefficient (Bool.eq_false_iff.mpr hc), rfl⟩
  | case4 _ hreal hsingle hproduct =>
    refine ofScaleParts_addend_of_factor ⟨hnormal, ?_, ?_⟩ hsum
    · cases e with
      | product c n d => exact (hproduct c n d rfl).elim
      | _ => rfl
    · cases e with
      | number v =>
        cases v with
        | real v => exact (hreal v rfl).elim
        | constant k => rfl
      | _ => rfl

end SymbolicAlgebra.Expr
