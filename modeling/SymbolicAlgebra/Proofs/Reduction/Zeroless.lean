import SymbolicAlgebra.Proofs.Reduction.Formed
import SymbolicAlgebra.Proofs.Reduction.Kept
import SymbolicAlgebra.Proofs.Scalar.Finite

/-!
# Powers without zeros

A power of an expression without zeros is not zero, unless an operation on the way makes zero of numbers
that are not: small numbers are rounded to zero, and a power to a logarithm is the body of the logarithm,
which may be zero. The rule for powers only asks whether the power of a coefficient is finite before it is
distributed over a product, and not whether it is still a number other than zero.
-/

namespace SymbolicAlgebra

variable {α : Type} [Scalar α]

/-- No factor, addend or base in the expression is zero, and the coefficients of its products are in lowest
terms and not zero. Exponents and the arguments of functions may be zero. -/
inductive Expr.Zeroless : Expr α → Prop
  | real {v : α} : Scalar.eq v Scalar.zero = false → Zeroless (.number (.real v))
  | constant {c : Constant} : Zeroless (.number (.constant c))
  | sum {as : List (Expr α)} : (∀ a ∈ as, Zeroless a) → Zeroless (.sum as)
  | product {c : Coefficient α} {n d : List (Expr α)} : c.LowestTerms → c.isZero = false →
    (∀ x ∈ n, Zeroless x) → (∀ x ∈ d, Zeroless x) → Zeroless (.product c n d)
  | power {base exponent : Expr α} : Zeroless base → Zeroless (.power base exponent)
  | log {base body : Expr α} : Zeroless (.log base body)
  | trig {f : Trig} {body : Expr α} : Zeroless (.trig f body)
  | var {name : String} : Zeroless (.var name)

namespace Expr

/-- A literal that is not zero is without zeros. -/
theorem zeroless_real [Scalar.Lawful α] {v : α} (h : Scalar.eq v Scalar.zero = false) :
    (real v).Zeroless :=
  .real ((Scalar.Lawful.eq_unsignZero v).trans h)

/-- What is without zeros is not zero. -/
theorem Zeroless.isZero {e : Expr α} (h : e.Zeroless) : e.isZero = false := by
  cases h with
  | real hv => exact hv
  | product _ hc _ _ => exact hc
  | _ => rfl

end Expr

namespace Reduction

open SymbolicAlgebra.Expr Fraction

/-- The operation makes zero of what is not zero. A difference of exponents and the value of a logarithm
may be zero, and a power to a logarithm of its base is the body of that. -/
def Operation.Vanishes : Operation α → Prop
  | .multiply a b => a.isZero = false ∧ b.isZero = false ∧ (a * b).isZero = true
  | .divide a b => a.isZero = false ∧ b.isZero = false ∧ (a / b).isZero = true
  | .add a b => a.isZero = false ∧ b.isZero = false ∧ (a + b).isZero = true
  | .raise c k => c.isZero = false ∧ (c.zpow k).isZero = true
  | .sum es => (∀ e ∈ es, e.isZero = false) ∧ (sumRule es).value.isZero = true
  | .power base exponent =>
    (∃ v, literalPower? base exponent = some v ∧ base.isZero = false ∧ Scalar.eq v Scalar.zero = true) ∨
      ∃ b body, exponent = .log b body ∧ (b == base) = true ∧ ¬ body.Zeroless
  | .subtract _ _ | .difference _ _ | .log _ _ => False

/-- Not being zero is passed on between factors, addends and bases and what is made of them. -/
theorem heritable_zeroless :
    Heritable False (fun c : Coefficient Float => c.LowestTerms ∧ c.isZero = false) Zeroless where
  one := ⟨.inr rfl, Scalar.Unital.eq_one_zero⟩
  real_one := zeroless_real Scalar.Unital.eq_one_zero
  ofScalar {v} h := by
    cases h with
    | real hv =>
      refine ⟨Coefficient.lowestTerms_ofScalar v, ?_⟩
      rw [Coefficient.ofScalar_eq]
      exact (Scalar.Lawful.eq_unsignZero v).trans hv
  value h := zeroless_real (Binary64.eq_value_zero h.1 h.2)
  zero_of_coefficient h hzero := absurd hzero (Bool.eq_false_iff.mp h.2)
  zero_of_real h hzero := by
    cases h with
    | real hv => exact absurd hzero (Bool.eq_false_iff.mp hv)
  sum := ⟨fun h => by cases h with | sum h => exact h, .sum⟩
  coefficient h := by cases h with | product hc hzero _ _ => exact ⟨hc, hzero⟩
  factors h := by cases h with | product _ _ hn hd => exact ⟨hn, hd⟩
  product hc hn hd := .product hc.1 hc.2 (fun x hx => (hn x hx).1) fun x hx => (hd x hx).1
  rescale hc h := by cases h with | product _ _ hn hd => exact .product hc.1 hc.2 hn hd
  power := ⟨fun h => by cases h with | power h => exact ⟨h, False.elim⟩, fun h => .power h.1⟩
  log := False.elim
  trig := False.elim
  neg := False.elim
  neg_real := False.elim
  minusOne := False.elim
  zero := False.elim
  whole := False.elim

/-- An operation that makes no zero of what is not zero keeps what is without zeros. -/
theorem keeps_of_not_vanishes {op : Operation Float} (h : ¬ op.Vanishes) :
    op.Keeps False (fun c => c.LowestTerms ∧ c.isZero = false) Zeroless := by
  cases op with
  | multiply a b => exact fun ha hb => ⟨ha.1.mul hb.1, by simpa [Operation.Vanishes, ha.2, hb.2] using h⟩
  | divide a b => exact fun hdivisor ha hb =>
    ⟨ha.1.div hdivisor.isZero, by simpa [Operation.Vanishes, ha.2, hb.2] using h⟩
  | add a b => exact fun ha hb => ⟨ha.1.add hb.1, by simpa [Operation.Vanishes, ha.2, hb.2] using h⟩
  | raise c k => exact fun _ hneg hwhole _ hc =>
    ⟨hc.1.zpow (wholeExponent?_nonneg hneg hwhole), by simpa [Operation.Vanishes, hc.2] using h⟩
  | subtract u l => exact False.elim
  | difference u l => exact False.elim
  | sum es =>
    intro hes
    have hresult : (sumRule es).value.isZero = false :=
      Bool.eq_false_iff.mpr fun hzero => h ⟨fun e he => (hes e he).isZero, hzero⟩
    refine kept_sumRule (fun _ => heritable_zeroless.sum) hes zeroless_real fun hempty => ?_
    rw [hempty] at hresult
    cases hresult
  | power base exponent =>
    intro found hfound hbase _
    have outcome := powerOutcome hfound
    generalize found.value = e at outcome
    cases outcome with
    | exponentZero _ => exact heritable_zeroless.real_one
    | exponentOne _ => exact hbase
    | baseOne _ => exact heritable_zeroless.real_one
    | literal hv =>
      refine zeroless_real (Bool.eq_false_iff.mpr fun hzero => h (.inl ?_))
      exact ⟨_, hv, hbase.isZero, hzero⟩
    | logarithm hb => exact by_contra fun hbody => h (.inr ⟨_, _, rfl, hb, hbody⟩)
  | log base body => exact False.elim

/-- Raising an expression without zeros to any power gives an expression without zeros, as long as no
operation on the way makes zero of what is not zero. -/
theorem raises_zeroless {base exponent : Expr Float} (hbase : base.Zeroless)
    (hrun : (Call.power base exponent).Throughout fun op => ¬ op.Vanishes) :
    ∃ e, Raises base exponent e ∧ e.isZero = false ∧ e.Zeroless := by
  obtain ⟨fuel, e, he⟩ := (Call.power base exponent).exists_haltsWithin
  have hzeroless := heritable_zeroless.raises ⟨fuel, he⟩ (hrun.imp fun _ => keeps_of_not_vanishes) hbase
    False.elim
  exact ⟨e, ⟨fuel, he⟩, hzeroless.isZero, hzeroless⟩

/-- A fraction of a variable's power alone is left as it is. -/
theorem reduces_power_var (c : Coefficient Float) (name : String) (exponent : Expr Float) :
    Reduces (gather c [power (var name) exponent] [])
      { coefficient := c, numerator := [power (var name) exponent] } :=
  results_closed.done rfl

/-- For a power of a scaled variable only its coefficient is raised. -/
theorem throughout_power_scaled {ok : Operation Float → Prop} {c : Coefficient Float} (name : String)
    {exponent : Expr Float} {k : Int} (hplain : plainPower? (product c [var name] []) exponent = none)
    (hneg : exponent.isNegative = false) (hwhole : wholeExponent? exponent = some k)
    (hplain' : plainPower? (var name) (real (Scalar.ofInt k) : Expr Float) = none)
    (hneg' : (real (Scalar.ofInt k) : Expr Float).isNegative = false) (hraise : ok (.raise c k)) :
    (Call.power (product c [var name] []) exponent).Throughout ok := by
  have hproduct : (Call.product (c.zpow k) [power (var name) (real (Scalar.ofInt k))] []).Throughout ok := by
    refine Call.throughout_of_callees (fun op hop => ?_) fun callee hmakes => ?_
    · cases hop with
      | above hop => exact absurd hop List.not_mem_nil
      | below hop => exact absurd hop List.not_mem_nil
      | distribute hreduces _ _ hop =>
        obtain rfl := hreduces.unique (reduces_power_var _ _ _)
        rw [distributions_single rfl] at hop
        exact absurd hop List.not_mem_nil
    · cases hmakes with
      | gather => exact Call.throughout_cancel_apart rfl
  refine Call.throughout_of_callees (fun op hop => ?_) fun callee hmakes => ?_
  · cases hop with
    | fold h => rw [hplain] at h; cases h
    | raise _ _ hk _ => exact Option.some.inj (hwhole.symm.trans hk) ▸ hraise
  · cases hmakes with
    | unsign _ h => rw [hneg] at h; cases h
    | relocate _ h => rw [hneg] at h; cases h
    | invert _ h => rw [hneg] at h; cases h
    | spread _ _ hk _ ha =>
      obtain rfl := Option.some.inj (hwhole.symm.trans hk)
      obtain rfl := List.mem_singleton.mp ha
      exact Call.throughout_power_var name hplain' hneg'
    | collect _ _ hk _ hn hd =>
      obtain rfl := Option.some.inj (hwhole.symm.trans hk)
      obtain _ | ⟨hfactor, hnil⟩ := hn
      obtain rfl := hfactor.unique (raises_var name hplain' hneg')
      cases hnil
      cases hd
      exact hproduct

/-- Two thirds of a variable, squared, are not zero: no operation for it makes zero of what is not zero. -/
theorem raises_zeroless_square :
    let base : Expr Float := product ⟨Scalar.ofInt 2, Scalar.ofInt 3⟩ [var "x"] []
    let exponent : Expr Float := real (Scalar.ofInt 2)
    base.Zeroless ∧ ((Call.power base exponent).Throughout fun op => ¬ op.Vanishes) ∧
      ∃ e, Raises base exponent e ∧ e.isZero = false ∧ e.Zeroless := by
  intro base exponent
  have hbase : base.Zeroless := .product (.inl ⟨rfl, rfl, rfl, rfl⟩) rfl (by simpa using .var) (by simp)
  have hraised :
      (Coefficient.zpow ⟨Scalar.ofInt 2, Scalar.ofInt 3⟩ 2 : Coefficient Float).isZero = false := by
    decide +kernel
  have hrun : (Call.power base exponent).Throughout fun op => ¬ op.Vanishes :=
    throughout_power_scaled "x" (k := 2) rfl rfl rfl rfl rfl fun hvanishes =>
      absurd hvanishes.2 (Bool.eq_false_iff.mp hraised)
  exact ⟨hbase, hrun, raises_zeroless hbase hrun⟩

/-- The power of two thirds to a thousand is finite, but it is rounded to zero, and so the power of two
thirds of a variable is zero. -/
theorem raises_zero_of_two_thirds :
    let base : Expr Float := product ⟨Scalar.ofInt 2, Scalar.ofInt 3⟩ [var "x"] []
    let exponent : Expr Float := real (Scalar.ofInt 1000)
    base.Zeroless ∧ Simplifies base base ∧ wholeExponent? exponent = some 1000 ∧
      Raises base exponent .zero := by
  intro base exponent
  let c : Coefficient Float := ⟨Scalar.ofInt 2, Scalar.ofInt 3⟩
  have hbase : base.Zeroless := .product (.inl ⟨rfl, rfl, rfl, rfl⟩) rfl (by simpa using .var) (by simp)
  have hraised : (c.zpow 1000).isZero = true := by decide +kernel
  have hproduct : Multiplies (c.zpow 1000) [power (var "x") exponent] [] .zero := by
    have hmultiplies := results_closed.multiply (reduces_power_var (c.zpow 1000) "x" exponent)
    rw [Fraction.finish, if_pos hraised] at hmultiplies
    exact hmultiplies
  refine ⟨hbase, results_closed.fraction (.cons (results_closed.var "x") .nil) .nil (multiplies_var rfl "x"),
    rfl, ?_⟩
  exact results_closed.spread rfl rfl rfl (by decide +kernel)
    (.cons (raises_var "x" rfl rfl) .nil) .nil hproduct

end Reduction

end SymbolicAlgebra
