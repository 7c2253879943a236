import SymbolicAlgebra.Proofs.Expr.Normal
import SymbolicAlgebra.Proofs.Reduction.Fraction
import SymbolicAlgebra.Proofs.Reduction.Outcomes
import SymbolicAlgebra.Proofs.Reduction.Returns

/-!
# Rules and normal forms

Each rule makes a normal form of normal forms. A sum may be made of addends that are out of order,
as the opposite of a sum has them; a product is made of factors that are no products and no
literals, which taking apart and cancelling keep up.
-/

namespace SymbolicAlgebra.Reduction

open SymbolicAlgebra.Expr

variable {α : Type} [Scalar α]

/-- The factors of a normal product are in normal form. -/
theorem factors_normal (c : Coefficient α) (n d : List (Expr α)) (h : (product c n d).Normal) :
    (∀ e ∈ n, e.Normal) ∧ ∀ e ∈ d, e.Normal := (normal_product.mp h).2

/-- A tidy fraction divides by single factors, or only by zero. -/
theorem divisors_normal {f : Fraction α} (h : f.Has Normal) :
    (∀ e ∈ sort f.divisors, e.Factor Normal) ∨ sort f.divisors = [.zero] := by
  cases hzero : f.zeroDivisor with
  | true =>
    right
    rw [Fraction.divisors, hzero, if_pos rfl]
    exact List.mergeSort_singleton _
  | false =>
    left
    intro e he
    rw [Fraction.divisors, hzero] at he
    exact h.2 e ((sort_perm _).mem_iff.mp he)

/-- The rule for logarithms makes a normal form of normal forms. -/
theorem logRule_normal {base body : Expr α} (hbase : base.Normal) (hbody : body.Normal) :
    (logRule base body).value.Normal := by
  have outcome := logOutcome base body
  generalize (logRule base body).value = e at outcome
  cases outcome with
  | self _ => exact normal_number _
  | bodyOne _ => exact normal_number _
  | power _ => exact (normal_power.mp hbody).2.2
  | literal _ _ _ => exact normal_number _
  | stays hlog => exact normal_log.mpr ⟨hlog, hbase, hbody⟩

/-- The rule for trigonometric functions makes a normal form of a normal form. -/
theorem trigRule_normal {f : Trig} {body : Expr α} (hbody : body.Normal) :
    (trigRule f body).value.Normal := by
  have outcome := trigOutcome f body
  generalize (trigRule f body).value = e at outcome
  cases outcome with
  | zero _ => cases f <;> exact normal_number _
  | pi _ => cases f <;> exact normal_number _
  | stays => exact normal_trig.mpr hbody

/-- A power that follows from its parts is in normal form if they are. -/
theorem plainPower?_normal {base exponent : Expr α} {found : Traced (Expr α)}
    (h : plainPower? base exponent = some found) (hbase : base.Normal)
    (hexponent : exponent.Normal) : found.value.Normal := by
  have outcome := powerOutcome h
  generalize found.value = e at outcome
  cases outcome with
  | exponentZero _ => exact normal_number _
  | exponentOne _ => exact hbase
  | baseOne _ => exact normal_number _
  | literal _ => exact normal_number _
  | logarithm _ => exact (normal_log.mp hexponent).2.2

/-- A power that no rule applies to is in normal form if its parts are. -/
theorem power_normal {base exponent : Expr α} (h : plainPower? base exponent = none)
    (hneg : exponent.isNegative = false) (hbase : base.Normal) (hexponent : exponent.Normal) :
    (power base exponent).Normal := by
  rw [plainPower?] at h
  cases hzero : exponent.isReal Scalar.zero with
  | true => rw [hzero] at h; cases h
  | false =>
    cases hone : exponent.isReal Scalar.one with
    | true => rw [hzero, hone] at h; cases h
    | false =>
      cases hbaseOne : base.isReal Scalar.one with
      | true => rw [hzero, hone, hbaseOne] at h; cases h
      | false =>
        simp only [hzero, hone, hbaseOne, Bool.false_eq_true, if_false] at h
        refine normal_power.mpr ⟨⟨hzero, hone, hneg, hbaseOne, ?_⟩, hbase, hexponent⟩
        rintro b body rfl
        split at h
        · cases h
        · rw [logBody?] at h
          split at h
          · cases h
          · rename_i hne
            exact Bool.eq_false_iff.mpr hne

variable [Scalar.Lawful α]

/-- A sum of normal addends is in normal form. -/
theorem sumRule_normal {addends : List (Expr α)}
    (h : ∀ e ∈ addends, ∀ a ∈ e.addends, a.Addend) : (sumRule addends).value.Normal := by
  rw [sumRule_value]
  have flat : ∀ a ∈ addends.flatMap Expr.addends, a.Addend := by
    intro a ha
    obtain ⟨e, he, ha⟩ := List.mem_flatMap.mp ha
    exact h e he a ha
  generalize addends.flatMap Expr.addends = terms at flat
  have hsort : ∀ a ∈ sort (sumTerms terms), a.Addend ∧ a.isZero = false := by
    intro a ha
    obtain ha | ⟨v, rfl, hv⟩ := mem_sumTerms ((sort_perm _).mem_iff.mp ha)
    · obtain ⟨ha, -, hzero⟩ := mem_keptAddends.mp ha
      exact ⟨flat a ha, hzero⟩
    · exact ⟨⟨normal_number _, rfl⟩, (isZero_real v).trans hv⟩
  have hliterals : (sort (sumTerms terms)).countP (fun a => a.real?.isSome) ≤ 1 :=
    (sort_perm (sumTerms terms)).countP_eq _ ▸ countP_sumTerms terms
  have hsorted := pairwise_sort (sumTerms terms)
  match sort (sumTerms terms), hsort, hliterals, hsorted with
  | [], _, _, _ => exact normal_number _
  | [e], hsort, _, _ => exact (hsort e List.mem_cons_self).1.1
  | a :: b :: rest, hsort, hliterals, hsorted =>
    refine normal_sum.mpr ⟨?_, fun e he => (hsort e he).1.1⟩
    exact {
      sorted := hsorted
      flat := fun e he => (hsort e he).1.2
      nonzero := fun e he => (hsort e he).2
      literals := hliterals }

/-- Without a common base only a zero is the base of factors on both sides. -/
theorem divisors_apart {f : Fraction α} (h : Fraction.common? f.denominator f.numerator = none) :
    ∀ a ∈ sort f.numerator, ∀ b ∈ sort f.divisors,
      (b.powerParts.1 == a.powerParts.1) = true → a.powerParts.1.isZero = true := by
  intro a ha b hb hbase
  replace ha := (sort_perm _).mem_iff.mp ha
  replace hb := (sort_perm _).mem_iff.mp hb
  cases hzero : f.zeroDivisor with
  | true =>
    rw [Fraction.divisors, hzero, if_pos rfl] at hb
    obtain rfl := List.mem_singleton.mp hb
    refine isZero_of_order_zero ?_
    rw [order_swap]
    have same : (zero : Expr α).order a.powerParts.1 = .eq := beq_iff.mp hbase
    rw [same]
    rfl
  | false =>
    rw [Fraction.divisors, hzero] at hb
    exact Fraction.common?_none h a ha b hb hbase

/-- Distributing a coefficient over a normal sum leaves normal addends. -/
theorem distribute_addend {addends : List (Expr α)} (h : (sum addends).Normal)
    (c : Coefficient α) : ∀ e ∈ Fraction.distribute c addends, e.Addend := by
  intro e he
  obtain ⟨a, ha, rfl⟩ := List.mem_map.mp he
  exact ofScaleParts_addend (h.addends a ha) _

/-- The factors of a tidy fraction without common bases, sorted, make a normal form. -/
theorem finish_normal {f : Fraction α} (h : f.Has Normal)
    (hcommon : Fraction.common? f.denominator f.numerator = none) :
    f.finish.value.Normal := by
  cases hc : f.coefficient.isZero with
  | true =>
    rw [Fraction.finish, if_pos hc]
    exact normal_number _
  | false =>
    rw [Fraction.finish_eq hc]
    have habove : ∀ e ∈ sort f.numerator, e.Factor Normal :=
      fun e he => h.1 e ((sort_perm _).mem_iff.mp he)
    have hbelow := divisors_normal h
    have hapart := divisors_apart hcommon
    have sortedAbove := pairwise_sort f.numerator
    have sortedBelow := pairwise_sort f.divisors
    generalize sort f.numerator = n at *
    generalize sort f.divisors = d at *
    have outcome := Fraction.assembly f.coefficient n d
    generalize (Fraction.assemble f.coefficient n d).value = e at outcome
    cases outcome with
    | sum hone => exact (habove _ List.mem_cons_self).1
    | distributed =>
      refine sumRule_normal fun e he a ha => ?_
      have hnormal := distribute_addend (habove _ List.mem_cons_self).1 f.coefficient e he
      exact hnormal.1.addends a ha
    | number => exact normal_number _
    | factor hone => exact (habove e List.mem_cons_self).1
    | product hsum =>
      refine normal_product.mpr ⟨?_, fun e he => (habove e he).1, ?_⟩
      · exact {
          coefficient := hc
          sortedAbove
          sortedBelow
          factors := fun e he => (habove e he).2
          divisors := hbelow.imp_left fun hd e he => (hd e he).2
          notSum := hsum
          apart := hapart }
      · intro e he
        obtain hd | rfl := hbelow
        · exact (hd e he).1
        · obtain rfl := List.mem_singleton.mp he
          exact normal_number _

/-- All rules make normal forms of normal forms, and the pass that applies them of anything. -/
theorem normal_closed : Closed (α := α)
    (fun base exponent e => base.Normal → exponent.Normal → e.Normal)
    (fun f g => f.Has Normal →
      g.Has Normal ∧ Fraction.common? g.denominator g.numerator = none)
    (fun _ n d e => (∀ x ∈ n, x.Normal) → (∀ x ∈ d, x.Normal) → e.Normal)
    (fun _ e => e.Normal) where
  plain h hbase hexponent := plainPower?_normal h hbase hexponent
  relocate _ _ hpositive hmoved he hbase _ :=
    he (by simp) (by simpa using hmoved hbase hpositive)
  nest _ _ _ hfolded he hbase hexponent := by
    obtain ⟨-, hinner, hinside⟩ := normal_power.mp hbase
    exact he hinner (hfolded (by simpa using ⟨hinside, hexponent⟩) (by simp))
  spread _ _ _ _ hn hd he hbase _ := by
    obtain ⟨-, above, below⟩ := normal_product.mp hbase
    exact he (forall_of_forall₂ hn fun b hb _ h => h (above b hb) (normal_number _))
      (forall_of_forall₂ hd fun b hb _ h => h (below b hb) (normal_number _))
  remain h hneg _ hbase hexponent := power_normal h hneg hbase hexponent
  done h tidy := ⟨tidy, h⟩
  cancelAbove h _ _ _ hfactor hg tidy := by
    obtain ⟨rest, hbase, -⟩ := tidy.without (fun _ => Normal.powerParts) h
    exact hg (rest.absorb factors_normal .above _ (hfactor hbase (normal_number _)))
  cancelBelow h _ _ _ hfactor hg tidy := by
    obtain ⟨rest, hbase, -⟩ := tidy.without (fun _ => Normal.powerParts) h
    exact hg (rest.absorb factors_normal .below _ (hfactor hbase (normal_number _)))
  cancelBoth h _ _ _ _ hg tidy := hg (tidy.without (fun _ => Normal.powerParts) h).1
  cancelSymbolic h _ hfactor hg tidy := by
    obtain ⟨rest, hbase, hupper, hlower⟩ := tidy.without (fun _ => Normal.powerParts) h
    refine hg (rest.absorb factors_normal .above _ (hfactor hbase (sumRule_normal ?_)))
    rw [List.forall_mem_cons, List.forall_mem_singleton]
    exact ⟨hupper.addends, hlower.neg_addends⟩
  multiply {c} _ _ _ hf hn hd := by
    obtain ⟨tidy, hcommon⟩ := hf (.gathered factors_normal c hn hd)
    exact finish_normal tidy hcommon
  sum h := sumRule_normal fun e he => (forall_of_forall₂ h (fun _ _ _ h => h) e he).addends
  fraction hn hd he :=
    he (forall_of_forall₂ hn fun _ _ _ h => h) (forall_of_forall₂ hd fun _ _ _ h => h)
  raise hbase hexponent he := he hbase hexponent
  log hbase hbody := logRule_normal hbase hbody
  trig hbody := trigRule_normal hbody
  var name := normal_var name
  number n := normal_number n

/-- Whatever simplification returns is in normal form. -/
theorem simplify_normal {fuel : Nat} {e e' : Expr α} (h : (simplify fuel e).Returns e') :
    e'.Normal := normal_closed.simplify_returns h

end SymbolicAlgebra.Reduction
