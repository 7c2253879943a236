import SymbolicAlgebra.Proofs.Reduction.Results

/-!
# Nested calls

The rules for powers and products, the cancellation and the pass that applies all rules call each other.
Which calls a call makes is a relation here, and rewriting is finite since no chain of calls goes on
forever: a call that stays within a bound makes calls that stay within a smaller one.
-/

namespace SymbolicAlgebra.Reduction

open SymbolicAlgebra.Expr Fraction

variable {α : Type} [Scalar α]

/-- A base that is cancelled leaves a power with the given exponent on the given side. -/
inductive Fraction.Common.Leaves (common : Common α) : Side → Expr α → Prop
  | above {u l : α} : common.upper.real? = some u → common.lower.real? = some l →
    Scalar.lt Scalar.zero (u - l) = true → common.Leaves .above (.real (u - l))
  | below {u l : α} : common.upper.real? = some u → common.lower.real? = some l →
    Scalar.lt Scalar.zero (u - l) = false → Scalar.lt (u - l) Scalar.zero = true →
    common.Leaves .below (.real (-(u - l)))
  | symbolic : common.upper.real? = none ∨ common.lower.real? = none →
    common.Leaves .above (sumRule [common.upper, common.lower.neg]).value

/-- A call of one of the functions that call each other. -/
inductive Call (α : Type) where
  | power (base exponent : Expr α)
  | cancel (f : Fraction α)
  | product (c : Coefficient α) (n d : List (Expr α))
  | simplify (e : Expr α)

namespace Call

/-- The first call makes the second one, by itself and not by a call in between. -/
inductive Makes : Call α → Call α → Prop
  | unsign {base exponent : Expr α} : plainPower? base exponent = none → exponent.isNegative = true →
    Makes (power base exponent) (simplify exponent.neg)
  | relocate {base exponent positive : Expr α} : plainPower? base exponent = none →
    exponent.isNegative = true → Simplifies exponent.neg positive →
    Makes (power base exponent) (power base positive)
  | invert {base exponent positive moved : Expr α} : plainPower? base exponent = none →
    exponent.isNegative = true → Simplifies exponent.neg positive → Raises base positive moved →
    Makes (power base exponent) (product .one [] [moved])
  | fold {inner inside exponent : Expr α} {k : Int} :
    plainPower? (.power inner inside) exponent = none → exponent.isNegative = false →
    wholeExponent? exponent = some k →
    Makes (power (.power inner inside) exponent) (product .one [inside, exponent] [])
  | nest {inner inside exponent folded : Expr α} {k : Int} :
    plainPower? (.power inner inside) exponent = none → exponent.isNegative = false →
    wholeExponent? exponent = some k → Multiplies .one [inside, exponent] [] folded →
    Makes (power (.power inner inside) exponent) (power inner folded)
  | spread {c : Coefficient α} {n d : List (Expr α)} {exponent a : Expr α} {k : Int} :
    plainPower? (.product c n d) exponent = none → exponent.isNegative = false →
    wholeExponent? exponent = some k → Scalar.isFinite (c.zpow k).value = true → a ∈ n ++ d →
    Makes (power (.product c n d) exponent) (power a (.real (Scalar.ofInt k)))
  | collect {c : Coefficient α} {n d n' d' : List (Expr α)} {exponent : Expr α} {k : Int} :
    plainPower? (.product c n d) exponent = none → exponent.isNegative = false →
    wholeExponent? exponent = some k → Scalar.isFinite (c.zpow k).value = true →
    List.Forall₂ (fun a b => Raises a (.real (Scalar.ofInt k)) b) n n' →
    List.Forall₂ (fun a b => Raises a (.real (Scalar.ofInt k)) b) d d' →
    Makes (power (.product c n d) exponent) (product (c.zpow k) n' d')
  | leave {f : Fraction α} {common : Common α} {side : Side} {exponent : Expr α} :
    common? f.denominator f.numerator = some common → common.Leaves side exponent →
    Makes (cancel f) (power common.base exponent)
  | restore {f : Fraction α} {common : Common α} {side : Side} {exponent factor : Expr α} :
    common? f.denominator f.numerator = some common → common.Leaves side exponent →
    Raises common.base exponent factor →
    Makes (cancel f) (cancel (absorb side (f.without common) factor).value)
  | drop {f : Fraction α} {common : Common α} {u l : α} :
    common? f.denominator f.numerator = some common → common.upper.real? = some u →
    common.lower.real? = some l → Scalar.lt Scalar.zero (u - l) = false →
    Scalar.lt (u - l) Scalar.zero = false → Makes (cancel f) (cancel (f.without common))
  | gather {c : Coefficient α} {n d : List (Expr α)} :
    Makes (product c n d) (cancel (Fraction.gather c n d))
  | child {e a : Expr α} : a ∈ e.children → Makes (simplify e) (simplify a)
  | multiply {c : Coefficient α} {n d n' d' : List (Expr α)} : List.Forall₂ Simplifies n n' →
    List.Forall₂ Simplifies d d' → Makes (simplify (.product c n d)) (product c n' d')
  | raise {base exponent base' exponent' : Expr α} : Simplifies base base' →
    Simplifies exponent exponent' → Makes (simplify (.power base exponent)) (power base' exponent')

/-- No call is made for a power of a variable to an exponent that is not negative. -/
theorem not_makes_power_var (name : String) {exponent : Expr α} (h : exponent.isNegative = false)
    (callee : Call α) : ¬ Makes (power (var name) exponent) callee := by
  intro hmakes
  cases hmakes with
  | unsign _ hneg => exact absurd (hneg.symm.trans h) Bool.noConfusion
  | relocate _ hneg => exact absurd (hneg.symm.trans h) Bool.noConfusion
  | invert _ hneg => exact absurd (hneg.symm.trans h) Bool.noConfusion

/-- No call is made for a fraction without a common base. -/
theorem not_makes_cancel_apart {f : Fraction α} (h : common? f.denominator f.numerator = none)
    (callee : Call α) : ¬ Makes (cancel f) callee := by
  intro hmakes
  cases hmakes with
  | leave hcommon => rw [h] at hcommon; cases hcommon
  | restore hcommon => rw [h] at hcommon; cases hcommon
  | drop hcommon => rw [h] at hcommon; cases hcommon

/-- The call stays within the bound. -/
def HaltsWithin (fuel : Nat) : Call α → Prop
  | power base exponent => (powerRule fuel base exponent).Halts
  | cancel f => (Reduction.cancel fuel f).Halts
  | product c n d => (productRule fuel c n d).Halts
  | simplify e => (Reduction.simplify fuel e).Halts

end Call

namespace Call

variable {fuel : Nat} {callee : Call α}

/-- The calls that the power rule makes stay within the rest of its bound. -/
theorem haltsWithin_of_power {base exponent : Expr α} (h : Makes (power base exponent) callee)
    (hcaller : (powerRule (fuel + 1) base exponent).Halts) : callee.HaltsWithin fuel := by
  obtain ⟨e, he⟩ := hcaller
  cases h with
  | unsign hplain hneg =>
    simp only [powerRule, hplain, hneg, if_true, Reducing.returns_bind] at he
    obtain ⟨-, -, positive, hpositive, -⟩ := he
    exact ⟨positive, hpositive⟩
  | relocate hplain hneg hsimplifies =>
    simp only [powerRule, hplain, hneg, if_true, Reducing.returns_bind] at he
    obtain ⟨-, -, positive, hpositive, moved, hmoved, -⟩ := he
    obtain rfl := hsimplifies.unique ⟨fuel, hpositive⟩
    exact ⟨moved, hmoved⟩
  | invert hplain hneg hsimplifies hraises =>
    simp only [powerRule, hplain, hneg, if_true, Reducing.returns_bind] at he
    obtain ⟨-, -, positive, hpositive, moved, hmoved, he⟩ := he
    obtain rfl := hsimplifies.unique ⟨fuel, hpositive⟩
    obtain rfl := hraises.unique ⟨fuel, hmoved⟩
    exact ⟨e, he⟩
  | fold hplain hneg hwhole =>
    simp only [powerRule, hplain, hneg, hwhole, Bool.false_eq_true, if_false,
      Reducing.returns_bind] at he
    obtain ⟨-, -, folded, hfolded, -⟩ := he
    exact ⟨folded, hfolded⟩
  | nest hplain hneg hwhole hmultiplies =>
    simp only [powerRule, hplain, hneg, hwhole, Bool.false_eq_true, if_false,
      Reducing.returns_bind] at he
    obtain ⟨-, -, folded, hfolded, he⟩ := he
    obtain rfl := hmultiplies.unique ⟨fuel, hfolded⟩
    exact ⟨e, he⟩
  | @spread c n d _ a k hplain hneg hwhole hfinite ha =>
    simp only [powerRule, hplain, hneg, hwhole, hfinite, Bool.false_eq_true, if_false, if_true,
      Reducing.returns_bind, Reducing.returns_mapList] at he
    obtain ⟨-, -, n', hn, d', hd, -⟩ := he
    have hall : ∀ a ∈ n ++ d, (powerRule fuel a (.real (Scalar.ofInt k))).Halts :=
      forall_of_forall₂ (List.rel_append hn hd).flip fun b _ a hb => ⟨b, hb⟩
    exact hall a ha
  | collect hplain hneg hwhole hfinite hn hd =>
    simp only [powerRule, hplain, hneg, hwhole, hfinite, Bool.false_eq_true, if_false, if_true,
      Reducing.returns_bind, Reducing.returns_mapList] at he
    obtain ⟨-, -, n', hn', d', hd', he⟩ := he
    obtain rfl := results_unique hn hn' (fun _ _ h => ⟨fuel, h⟩) fun _ _ _ => Raises.unique
    obtain rfl := results_unique hd hd' (fun _ _ h => ⟨fuel, h⟩) fun _ _ _ => Raises.unique
    exact ⟨e, he⟩

/-- The calls that the cancellation makes stay within the rest of its bound. -/
theorem haltsWithin_of_cancel {f : Fraction α} (h : Makes (cancel f) callee)
    (hcaller : (Reduction.cancel (fuel + 1) f).Halts) : callee.HaltsWithin fuel := by
  obtain ⟨g, hg⟩ := hcaller
  -- the power that is left for the base, and the cancellation that goes on with it
  have restored {common : Common α} {side : Side} {exponent : Expr α}
      (hcommon : common? f.denominator f.numerator = some common) (hleaves : common.Leaves side exponent) :
      ∃ factor, (powerRule fuel common.base exponent).Returns factor ∧
        (Reduction.cancel fuel (absorb side (f.without common) factor).value).Returns g := by
    cases hleaves with
    | above hu hl hpos =>
      simp only [Reduction.cancel, hcommon, hu, hl, hpos, if_true, Reducing.returns_bind,
        Reducing.returns_liftM] at hg
      obtain ⟨-, -, factor, hfactor, _, rfl, hg⟩ := hg
      exact ⟨factor, hfactor, hg⟩
    | below hu hl hpos hneg =>
      simp only [Reduction.cancel, hcommon, hu, hl, hpos, hneg, Bool.false_eq_true, if_false, if_true,
        Reducing.returns_bind, Reducing.returns_liftM] at hg
      obtain ⟨-, -, factor, hfactor, _, rfl, hg⟩ := hg
      exact ⟨factor, hfactor, hg⟩
    | symbolic hsymbolic =>
      simp only [Reduction.cancel, hcommon, Reducing.returns_bind] at hg
      obtain ⟨-, -, hg⟩ := hg
      split at hg
      · rename_i hu hl
        obtain hnone | hnone := hsymbolic
        · rw [hu] at hnone
          cases hnone
        · rw [hl] at hnone
          cases hnone
      · simp only [Reducing.returns_bind, Reducing.returns_liftM] at hg
        obtain ⟨_, rfl, factor, hfactor, _, rfl, hg⟩ := hg
        exact ⟨factor, hfactor, hg⟩
  cases h with
  | leave hcommon hleaves =>
    obtain ⟨factor, hfactor, -⟩ := restored hcommon hleaves
    exact ⟨factor, hfactor⟩
  | restore hcommon hleaves hraises =>
    obtain ⟨factor, hfactor, hg⟩ := restored hcommon hleaves
    obtain rfl := hraises.unique ⟨fuel, hfactor⟩
    exact ⟨g, hg⟩
  | drop hcommon hu hl hpos hneg =>
    simp only [Reduction.cancel, hcommon, hu, hl, hpos, hneg, Bool.false_eq_true, if_false,
      Reducing.returns_bind] at hg
    obtain ⟨-, -, hg⟩ := hg
    exact ⟨g, hg⟩

/-- The calls that the pass that applies all rules makes stay within the rest of its bound. -/
theorem haltsWithin_of_simplify {e : Expr α} (h : Makes (simplify e) callee)
    (hcaller : (Reduction.simplify (fuel + 1) e).Halts) : callee.HaltsWithin fuel := by
  obtain ⟨s, hs⟩ := hcaller
  cases h with
  | @child _ a ha =>
    have all {es es' : List (Expr α)}
        (h : List.Forall₂ (fun a b => (Reduction.simplify fuel a).Returns b) es es') :
        ∀ a ∈ es, (Reduction.simplify fuel a).Halts :=
      forall_of_forall₂ h.flip fun b _ a hb => ⟨b, hb⟩
    cases e with
    | sum as =>
      simp only [Reduction.simplify, Reducing.returns_bind, Reducing.returns_mapList] at hs
      obtain ⟨as', has, -⟩ := hs
      exact all has a ha
    | product c n d =>
      simp only [Reduction.simplify, Reducing.returns_bind, Reducing.returns_mapList] at hs
      obtain ⟨n', hn, d', hd, -⟩ := hs
      exact all (List.rel_append hn hd) a ha
    | power base exponent =>
      simp only [Reduction.simplify, Reducing.returns_bind] at hs
      obtain ⟨base', hbase, exponent', hexponent, -⟩ := hs
      exact all (.cons hbase (.cons hexponent .nil)) a ha
    | log base body =>
      simp only [Reduction.simplify, Reducing.returns_bind] at hs
      obtain ⟨base', hbase, body', hbody, -⟩ := hs
      exact all (.cons hbase (.cons hbody .nil)) a ha
    | trig function body =>
      simp only [Reduction.simplify, Reducing.returns_bind] at hs
      obtain ⟨body', hbody, -⟩ := hs
      exact all (.cons hbody .nil) a ha
    | var name => cases ha
    | number n => cases ha
  | multiply hn hd =>
    simp only [Reduction.simplify, Reducing.returns_bind, Reducing.returns_mapList] at hs
    obtain ⟨n', hn', d', hd', hs⟩ := hs
    obtain rfl := results_unique hn hn' (fun _ _ h => ⟨fuel, h⟩) fun _ _ _ => Simplifies.unique
    obtain rfl := results_unique hd hd' (fun _ _ h => ⟨fuel, h⟩) fun _ _ _ => Simplifies.unique
    exact ⟨s, hs⟩
  | raise hbase hexponent =>
    simp only [Reduction.simplify, Reducing.returns_bind] at hs
    obtain ⟨base', hbase', exponent', hexponent', hs⟩ := hs
    obtain rfl := hbase.unique ⟨fuel, hbase'⟩
    obtain rfl := hexponent.unique ⟨fuel, hexponent'⟩
    exact ⟨s, hs⟩

/-- A call that stays within a bound makes only calls that stay within a smaller one. -/
theorem haltsWithin_of_makes {caller : Call α} (h : Makes caller callee)
    (hcaller : caller.HaltsWithin (fuel + 1)) : callee.HaltsWithin fuel := by
  cases caller with
  | power base exponent => exact haltsWithin_of_power h hcaller
  | cancel f => exact haltsWithin_of_cancel h hcaller
  | simplify e => exact haltsWithin_of_simplify h hcaller
  | product c n d =>
    cases h with
    | gather =>
      obtain ⟨e, he⟩ := hcaller
      simp only [productRule, Reducing.returns_bind, Reducing.returns_liftM] at he
      obtain ⟨_, rfl, _, rfl, f, hf, -⟩ := he
      exact ⟨f, hf⟩

/-- A bound of zero is too small for every call. -/
theorem not_haltsWithin_zero (call : Call α) : ¬ call.HaltsWithin 0 := by
  intro h
  cases call with
  | power base exponent =>
    obtain ⟨e, he⟩ := h
    rw [powerRule] at he
    exact Reducing.not_returns_exhausted he
  | cancel f =>
    obtain ⟨g, hg⟩ := h
    rw [Reduction.cancel] at hg
    exact Reducing.not_returns_exhausted hg
  | product c n d =>
    obtain ⟨e, he⟩ := h
    rw [productRule] at he
    exact Reducing.not_returns_exhausted he
  | simplify e =>
    obtain ⟨s, hs⟩ := h
    rw [Reduction.simplify] at hs
    exact Reducing.not_returns_exhausted hs

/-- No chain of calls goes on forever from a call that stays within a bound. -/
theorem acc_of_haltsWithin {call : Call α} (h : call.HaltsWithin fuel) :
    Acc (fun callee caller : Call α => caller.Makes callee) call := by
  induction fuel generalizing call with
  | zero => exact (not_haltsWithin_zero call h).elim
  | succ fuel ih => exact .intro call fun callee hmakes => ih (haltsWithin_of_makes hmakes h)

/-- Every call stays within some bound. -/
theorem exists_haltsWithin [Scalar.Signed α] (call : Call α) : ∃ fuel, call.HaltsWithin fuel := by
  cases call with
  | power base exponent => exact ⟨_, (suffices_all _ _).power .twice (le_refl _) (le_refl _)⟩
  | cancel f => exact ⟨_, (suffices_all _ _).cancel (le_refl _) (le_refl _)⟩
  | product c n d => exact ⟨_, (suffices_all _ _).product (le_refl _) (le_refl _)⟩
  | simplify e => exact ⟨_, (suffices_all _ _).simplify (le_refl _) (le_refl _)⟩

end Call

/-- Simplification always ends. The rules for powers and products, the cancellation and the pass that
applies all rules make no chain of nested calls that goes on forever, whatever they are called with. So
each of them, and each function that combines factors with their help, comes to one result with its steps
under all bounds from one on; for a whole expression that is the bound for the number of its nodes. -/
theorem rewriting_ends :
    (WellFounded fun callee caller : Call Float => caller.Makes callee) ∧
    (∀ base exponent : Expr Float, Reducing.Ends fun fuel => powerRule fuel base exponent) ∧
    (∀ f : Fraction Float, Reducing.Ends fun fuel => cancel fuel f) ∧
    (∀ (c : Coefficient Float) n d, Reducing.Ends fun fuel => productRule fuel c n d) ∧
    (∀ e : Expr Float, ∃ found, ∀ fuel, nestingBound e.size ≤ fuel → simplify fuel e = .lift found) ∧
    (∀ factors : List (Expr Float), Reducing.Ends fun fuel => mergeFactors fuel factors) ∧
    ∀ e : Expr Float, ∃ found, ∀ fuel, nestingBound e.size ≤ fuel → merge fuel e = .lift found := by
  refine ⟨⟨fun call => ?_⟩, fun base exponent => ?_, fun f => ?_, fun c n d => ?_, fun e => ?_,
    fun factors => ?_, fun e => ?_⟩
  · obtain ⟨fuel, h⟩ := call.exists_haltsWithin
    exact Call.acc_of_haltsWithin h
  · obtain ⟨fuel, h⟩ := (Call.power base exponent).exists_haltsWithin
    exact ⟨fuel, Reducing.ends_of_halts h fun hle => (keptRules hle).power base exponent⟩
  · obtain ⟨fuel, h⟩ := (Call.cancel f).exists_haltsWithin
    exact ⟨fuel, Reducing.ends_of_halts h fun hle => (keptRules hle).cancel f⟩
  · obtain ⟨fuel, h⟩ := (Call.product c n d).exists_haltsWithin
    exact ⟨fuel, Reducing.ends_of_halts h fun hle => (keptRules hle).product c n d⟩
  · exact Reducing.ends_of_halts (simplified_halts e) fun hle => (keptRules hle).simplify e
  · exact ⟨_, Reducing.ends_of_halts (halts_mergeFactors (le_refl _) (le_refl _)) fun hle =>
      kept_mergeFactors hle factors⟩
  · exact Reducing.ends_of_halts (merged_halts e) fun hle => kept_merge hle e

end SymbolicAlgebra.Reduction
