import SymbolicAlgebra.Proofs.Expr.Normal
import SymbolicAlgebra.Proofs.Reduction.Returns

/-!
# Fractions taken apart

What the search for a base on both sides of a fraction line finds: one factor above and one below
whose bases are equal, their exponents, and the factors around them. Where it finds nothing, no
base but a zero is on both sides. A fraction is finished by assembling its sorted factors.
-/

namespace SymbolicAlgebra.Reduction.Fraction

variable {α : Type} [Scalar α]

/-- A factor that is taken for its base stands between the others. -/
theorem takeBase?_some {base lower : Expr α} {es rest : List (Expr α)}
    (h : takeBase? base es = some (lower, rest)) :
    ∃ before e after, es = before ++ e :: after ∧ rest = before ++ after ∧
      (e.powerParts.1 == base) = true ∧ e.powerParts.2 = lower := by
  induction es generalizing rest with
  | nil => cases h
  | cons e es ih =>
    rw [takeBase?] at h
    split at h
    · rename_i hbase
      cases h
      exact ⟨[], e, es, rfl, rfl, hbase, rfl⟩
    · obtain ⟨⟨exponent, others⟩, hfound, hpair⟩ := Option.map_eq_some_iff.mp h
      cases hpair
      obtain ⟨before, found, after, rfl, rfl, hbase, hlower⟩ := ih hfound
      exact ⟨e :: before, found, after, rfl, rfl, hbase, hlower⟩

/-- Where no factor is taken, none has the base. -/
theorem takeBase?_none {base : Expr α} {es : List (Expr α)} (h : takeBase? base es = none) :
    ∀ e ∈ es, (e.powerParts.1 == base) = false := by
  induction es with
  | nil => simp
  | cons e es ih =>
    rw [takeBase?] at h
    split at h
    · cases h
    · rename_i hbase
      rw [List.forall_mem_cons]
      exact ⟨Bool.eq_false_iff.mpr hbase, ih (Option.map_eq_none_iff.mp h)⟩

/-- A common base is that of a factor above the line and, up to equality, of one below it. -/
theorem common?_some {d n : List (Expr α)} {common : Common α} (h : common? d n = some common) :
    ∃ before e after, n = before ++ e :: after ∧ common.numerator = before ++ after ∧
      e.powerParts = (common.base, common.upper) ∧ common.base.isZero = false ∧
      takeBase? common.base d = some (common.lower, common.denominator) := by
  induction n generalizing common with
  | nil => cases h
  | cons e es ih =>
    rw [common?] at h
    cases hparts : e.powerParts with
    | mk base upper =>
      simp only [hparts] at h
      cases hzero : base.isZero with
      | true =>
        simp only [hzero, if_true] at h
        obtain ⟨found, hfound, rfl⟩ := Option.map_eq_some_iff.mp h
        obtain ⟨before, x, after, rfl, hrest, hx⟩ := ih hfound
        exact ⟨e :: before, x, after, rfl, by simp [hrest], hx⟩
      | false =>
        simp only [hzero, Bool.false_eq_true, if_false] at h
        cases htake : takeBase? base d with
        | some found =>
          rw [htake] at h
          cases h
          exact ⟨[], e, es, rfl, rfl, hparts, hzero, htake⟩
        | none =>
          simp only [htake] at h
          obtain ⟨found, hfound, rfl⟩ := Option.map_eq_some_iff.mp h
          obtain ⟨before, x, after, rfl, hrest, hx⟩ := ih hfound
          exact ⟨e :: before, x, after, rfl, by simp [hrest], hx⟩

/-- Where there is no common base, only zeros are bases on both sides. -/
theorem common?_none {d n : List (Expr α)} (h : common? d n = none) :
    ∀ a ∈ n, ∀ b ∈ d, (b.powerParts.1 == a.powerParts.1) = true →
      a.powerParts.1.isZero = true := by
  induction n with
  | nil => simp
  | cons e es ih =>
    rw [common?] at h
    cases hparts : e.powerParts with
    | mk base upper =>
      simp only [hparts] at h
      rw [List.forall_mem_cons, hparts]
      cases hzero : base.isZero with
      | true =>
        simp only [hzero, if_true] at h
        exact ⟨fun _ _ _ => rfl, ih (Option.map_eq_none_iff.mp h)⟩
      | false =>
        simp only [hzero, Bool.false_eq_true, if_false] at h
        cases htake : takeBase? base d with
        | some found => rw [htake] at h; cases h
        | none =>
          simp only [htake] at h
          refine ⟨fun b hb hbase => ?_, ih (Option.map_eq_none_iff.mp h)⟩
          rw [takeBase?_none htake b hb] at hbase
          cases hbase

/-- The factors below the line; a zero there takes the place of all others. -/
def divisors (f : Fraction α) : List (Expr α) :=
  if f.zeroDivisor then [.zero] else f.denominator

/-- The product of sorted factors; a coefficient other than one is multiplied into a sum that is the
only factor. -/
def assemble (c : Coefficient α) (numerator denominator : List (Expr α)) : Traced (Expr α) :=
  match numerator, denominator with
  | [.sum addends], [] =>
    if c.isOne then pure (.sum addends)
    else do
      Traced.note .distributeCoefficient
      sumRule (distribute c addends)
  | n, d => pure (collapse c n d)

/-- A fraction whose coefficient is not zero is the product of its sorted factors. -/
theorem finish_eq {f : Fraction α} (h : f.coefficient.isZero = false) :
    f.finish = assemble f.coefficient (Expr.sort f.numerator) (Expr.sort f.divisors) := by
  rw [finish, h]
  rfl

/-- A product that is put together of a coefficient and factors: a sum with the coefficient
multiplied in, a number, a single factor or a product. -/
inductive Assembly (c : Coefficient α) : List (Expr α) → List (Expr α) → Expr α → Prop
  | sum {addends : List (Expr α)} : c.isOne = true → Assembly c [.sum addends] [] (.sum addends)
  | distributed {addends : List (Expr α)} :
    Assembly c [.sum addends] [] (sumRule (distribute c addends)).value
  | number : Assembly c [] [] (.real c.value)
  | factor {e : Expr α} : c.isOne = true → Assembly c [e] [] e
  | product {n d : List (Expr α)} :
    (∀ addends, ¬ (n = [.sum addends] ∧ d = [])) → Assembly c n d (.product c n d)

/-- Assembling sorted factors gives one of these. -/
theorem assembly (c : Coefficient α) (n d : List (Expr α)) :
    Assembly c n d (assemble c n d).value := by
  fun_cases assemble c n d with
  | case1 addends hone => exact .sum hone
  | case2 addends hone => exact .distributed
  | case3 n d hnot =>
    have hsum : ∀ addends, ¬ (n = [.sum addends] ∧ d = []) :=
      fun addends h => hnot addends h.1 h.2
    rw [Traced.pure_value]
    fun_cases collapse c n d with
    | case1 => exact .number
    | case2 e hone => exact .factor hone
    | case3 e hone => exact .product hsum
    | case4 n d => exact .product hsum

/-- A fraction of a single factor that is no sum is that factor, scaled by its coefficient. -/
theorem finish_single {c : Coefficient α} (hc : c.isZero = false) {e : Expr α} (hsum : e.isSum = false) :
    (finish { coefficient := c, numerator := [e] }).value = collapse c [e] [] := by
  have hsort (x : Expr α) : Expr.sort [x] = [x] := List.mergeSort_singleton x
  rw [finish_eq hc, hsort]
  change (assemble c [e] (Expr.sort [])).value = _
  rw [Expr.sort, List.mergeSort_nil]
  cases e with
  | sum as => cases hsum
  | _ => rfl

/-- The factors of a product in the making have a property and are no products and no literals. -/
def Has (K : Expr α → Prop) (f : Fraction α) : Prop :=
  (∀ e ∈ f.numerator, e.Factor K) ∧ ∀ e ∈ f.denominator, e.Factor K

variable {K : Expr α → Prop} {f : Fraction α}

/-- Another coefficient does not matter for the factors. -/
theorem Has.scale (h : f.Has K) (side : Side) (c : Coefficient α) : (f.scale side c).Has K := by
  cases side <;> exact h

omit [Scalar α] in
/-- One more factor may stand on either side. -/
theorem Has.place (h : f.Has K) (side : Side) {e : Expr α} (he : e.Factor K) :
    (f.place side e).Has K := by
  obtain ⟨above, below⟩ := h
  cases side with
  | above =>
    refine ⟨?_, below⟩
    rw [Fraction.place, List.forall_mem_append, List.forall_mem_singleton]
    exact ⟨above, he⟩
  | below =>
    refine ⟨above, ?_⟩
    rw [Fraction.place, List.forall_mem_append, List.forall_mem_singleton]
    exact ⟨below, he⟩

mutual

/-- Multiplying by an expression, or dividing by it, adds only single factors. -/
theorem Has.absorb (hK : ∀ c n d, K (.product c n d) → (∀ x ∈ n, K x) ∧ ∀ x ∈ d, K x) (side : Side)
    {f : Fraction α} (h : f.Has K) (e : Expr α) (he : K e) : (absorb side f e).value.Has K := by
  cases e with
  | number v =>
    cases v with
    | real v =>
      rw [Fraction.absorb]
      split
      · exact h
      · exact h.scale side _
    | constant c => exact h.place side ⟨he, rfl, rfl⟩
  | product c n d =>
    rw [Fraction.absorb]
    split
    · exact h
    · obtain ⟨above, below⟩ := hK c n d he
      exact Has.absorbAll hK side.flip (Has.absorbAll hK side (h.scale side c) n above) d below
  | sum as => exact h.place side ⟨he, rfl, rfl⟩
  | power base exponent => exact h.place side ⟨he, rfl, rfl⟩
  | log base body => exact h.place side ⟨he, rfl, rfl⟩
  | trig function body => exact h.place side ⟨he, rfl, rfl⟩
  | var name => exact h.place side ⟨he, rfl, rfl⟩

/-- Multiplying by expressions, or dividing by them, adds only single factors. -/
theorem Has.absorbAll (hK : ∀ c n d, K (.product c n d) → (∀ x ∈ n, K x) ∧ ∀ x ∈ d, K x)
    (side : Side) {f : Fraction α} (h : f.Has K) (es : List (Expr α)) (hes : ∀ e ∈ es, K e) :
    (absorbAll side f es).value.Has K := by
  cases es with
  | nil => exact h
  | cons e es =>
    rw [List.forall_mem_cons] at hes
    exact Has.absorbAll hK side (Has.absorb hK side h e hes.1) es hes.2

end

/-- Multiplying a coefficient by expressions and dividing it by others adds only single factors. -/
theorem Has.gathered (hK : ∀ c n d, K (.product c n d) → (∀ x ∈ n, K x) ∧ ∀ x ∈ d, K x)
    (c : Coefficient α) {n d : List (Expr α)} (hn : ∀ x ∈ n, K x) (hd : ∀ x ∈ d, K x) :
    (Fraction.absorbAll .below (Fraction.absorbAll .above { coefficient := c } n).value d).value.Has K := by
  have start : Has K ({ coefficient := c } : Fraction α) := ⟨by simp, by simp⟩
  exact (start.absorbAll hK .above n hn).absorbAll hK .below d hd

/-- The factors beside a common base keep their property, and base and exponents have what they inherit of
it. -/
theorem Has.without {B X : Expr α → Prop} (hK : ∀ e, K e → B e.powerParts.1 ∧ X e.powerParts.2)
    (h : f.Has K) {common : Common α} (hcommon : common? f.denominator f.numerator = some common) :
    (f.without common).Has K ∧ B common.base ∧ X common.upper ∧ X common.lower := by
  obtain ⟨above, below⟩ := h
  obtain ⟨before, e, after, hn, hnumerator, hparts, -, htake⟩ := common?_some hcommon
  obtain ⟨before', e', after', hd, hdenominator, -, hlower⟩ := takeBase?_some htake
  rw [hn, List.forall_mem_append, List.forall_mem_cons] at above
  rw [hd, List.forall_mem_append, List.forall_mem_cons] at below
  have hupper := hK e above.2.1.1
  rw [hparts] at hupper
  refine ⟨⟨?_, ?_⟩, hupper.1, hupper.2, hlower ▸ (hK e' below.2.1.1).2⟩
  · change ∀ x ∈ common.numerator, x.Factor K
    rw [hnumerator, List.forall_mem_append]
    exact ⟨above.1, above.2.2⟩
  · change ∀ x ∈ common.denominator, x.Factor K
    rw [hdenominator, List.forall_mem_append]
    exact ⟨below.1, below.2.2⟩

end SymbolicAlgebra.Reduction.Fraction
