import SymbolicAlgebra.Proofs.Expr.Collapsed
import SymbolicAlgebra.Proofs.Reduction.Calls
import SymbolicAlgebra.Proofs.Scalar.LowestTerms

/-!
# What a pass collapses

The rules collapse a sum of fewer than two addends, a product without factors and a product that is but
one factor. They do so for every node that they make, with one exception: the opposite of an exponent,
which is subtracted where a base is cancelled, is taken as it is. If an addend of that exponent is the
opposite of a single factor, then this factor becomes a product of its own, with the coefficient one. In
passes that subtract no such exponent there is nothing left to collapse.
-/

namespace SymbolicAlgebra

namespace Reduction

open SymbolicAlgebra.Expr Fraction

variable {α : Type} [Scalar α] {q : Coefficient α → Prop}

/-- A sum of collapsed addends is collapsed. -/
theorem collapsed_sumRule {addends : List (Expr α)}
    (h : ∀ e ∈ addends, ∀ a ∈ e.addends, a.Collapsed q ∧ a.isSum = false) :
    (sumRule addends).value.Collapsed q := by
  rw [sumRule_value]
  have hterms : ∀ a ∈ sort (sumTerms (addends.flatMap Expr.addends)),
      a.Collapsed q ∧ a.isSum = false := by
    intro a ha
    obtain ha | ⟨v, rfl, -⟩ := mem_sumTerms ((sort_perm _).mem_iff.mp ha)
    · obtain ⟨e, he, ha⟩ := List.mem_flatMap.mp (mem_keptAddends.mp ha).1
      exact h e he a ha
    · exact ⟨collapsed_number _, rfl⟩
  generalize sort (sumTerms (addends.flatMap Expr.addends)) = terms at hterms
  fun_cases collapseSum terms with
  | case1 => exact collapsed_number _
  | case2 e => exact (hterms e List.mem_cons_self).1
  | case3 es hnil hsingle =>
    refine collapsed_sum.mpr ⟨⟨?_, fun a ha => (hterms a ha).2⟩, fun a ha => (hterms a ha).1⟩
    rcases terms with _ | ⟨a, _ | ⟨b, rest⟩⟩
    · exact (hnil rfl).elim
    · exact (hsingle a rfl).elim
    · exact Nat.le_add_left 2 rest.length

/-- A power that follows from its parts is collapsed. -/
theorem collapsed_plainPower {base exponent : Expr α} {found : Traced (Expr α)}
    (h : plainPower? base exponent = some found) (hbase : base.Collapsed q)
    (hexponent : exponent.Collapsed q) : found.value.Collapsed q := by
  have outcome := powerOutcome h
  generalize found.value = e at outcome
  cases outcome with
  | exponentZero _ => exact collapsed_number _
  | exponentOne _ => exact hbase
  | baseOne _ => exact collapsed_number _
  | literal _ => exact collapsed_number _
  | logarithm _ => exact (collapsed_log.mp hexponent).2

/-- The rule for logarithms collapses them. -/
theorem collapsed_logRule {base body : Expr α} (hbase : base.Collapsed q) (hbody : body.Collapsed q) :
    (logRule base body).value.Collapsed q := by
  have outcome := logOutcome base body
  generalize (logRule base body).value = e at outcome
  cases outcome with
  | self _ => exact collapsed_number _
  | bodyOne _ => exact collapsed_number _
  | power _ => exact (collapsed_power.mp hbody).2
  | literal _ _ _ => exact collapsed_number _
  | stays _ => exact collapsed_log.mpr ⟨hbase, hbody⟩

/-- The rule for trigonometric functions collapses them. -/
theorem collapsed_trigRule {f : Trig} {body : Expr α} (hbody : body.Collapsed q) :
    (trigRule f body).value.Collapsed q := by
  have outcome := trigOutcome f body
  generalize (trigRule f body).value = e at outcome
  cases outcome with
  | zero _ => cases f <;> exact collapsed_number _
  | pi _ => cases f <;> exact collapsed_number _
  | stays => exact collapsed_trig.mpr hbody

section Products

variable (hq : ∀ c : Coefficient α, c.isOne = false → q c)
include hq

/-- What an addend scales is collapsed with any other coefficient. -/
theorem collapsed_rescaled (c : Coefficient α) {a : Expr α} (h : a.Collapsed q) :
    (ofScaleParts c a.scaleParts.2).Collapsed q := by
  have alone {key : Expr α} (hkey : key.Collapsed q) (hproduct : key.isProduct = false) :
      (ofScaleParts c key).Collapsed q := by
    fun_cases ofScaleParts c key with
    | case1 => exact collapsed_number _
    | case2 => exact collapsed_number _
    | case3 => cases hproduct
    | case4 => exact hkey
    | case5 _ _ _ hone => exact collapsed_scaled (hq c (Bool.eq_false_iff.mpr hone)) hkey hproduct
  fun_cases scaleParts a with
  | case1 v => exact alone (collapsed_number _) rfl
  | case2 k e =>
    obtain ⟨⟨-, -, hflat⟩, hbelow⟩ := collapsed_product.mp h
    exact alone (hbelow e (by simp)) (hflat e (by simp))
  | case3 k n d hsingle =>
    obtain ⟨⟨hsome, -, hflat⟩, hbelow⟩ := collapsed_product.mp h
    have hproduct : (product c n d).Collapsed q :=
      collapsed_product.mpr ⟨⟨hsome, fun x hn hd => (hsingle x hn hd).elim, hflat⟩, hbelow⟩
    rw [ofScaleParts]
    split
    · exact collapsed_number _
    · split
      · exact collapsed_number _
      · exact hproduct
  | case4 _ hreal hsingle hproduct =>
    refine alone h ?_
    cases a with
    | product k n d => exact (hproduct k n d rfl).elim
    | _ => rfl

/-- A product of collapsed factors is collapsed. -/
theorem collapsed_finish {f : Fraction α} (h : f.Has (Collapsed q)) : f.finish.value.Collapsed q := by
  cases hc : f.coefficient.isZero with
  | true =>
    rw [Fraction.finish, if_pos hc]
    exact collapsed_number _
  | false =>
    rw [Fraction.finish_eq hc]
    have habove : ∀ e ∈ sort f.numerator, e.Collapsed q ∧ e.isProduct = false :=
      fun e he => (h.1 e ((sort_perm _).mem_iff.mp he)).imp_right And.left
    have hbelow : ∀ e ∈ sort f.divisors, e.Collapsed q ∧ e.isProduct = false := by
      intro e he
      replace he := (sort_perm _).mem_iff.mp he
      rw [Fraction.divisors] at he
      split at he
      · obtain rfl := List.mem_singleton.mp he
        exact ⟨collapsed_number _, rfl⟩
      · exact (h.2 e he).imp_right And.left
    generalize sort f.numerator = n at habove
    generalize sort f.divisors = d at hbelow
    have hall : ∀ e ∈ n ++ d, e.Collapsed q ∧ e.isProduct = false :=
      List.forall_mem_append.mpr ⟨habove, hbelow⟩
    fun_cases Fraction.assemble f.coefficient n d with
    | case1 addends hone => exact (habove _ List.mem_cons_self).1
    | case2 addends hone =>
      refine collapsed_sumRule fun e he => ?_
      obtain ⟨a, ha, rfl⟩ := List.mem_map.mp he
      obtain ⟨hcollapsed, -⟩ := (habove _ List.mem_cons_self).1.addends a ha
      exact (collapsed_rescaled hq _ hcollapsed).addends
    | case3 n d hsum =>
      rw [Traced.pure_value]
      have made (hsome : n ≠ [] ∨ d ≠ []) (hsingle : ∀ x, n = [x] → d = [] → q f.coefficient) :
          (product f.coefficient n d).Collapsed q :=
        collapsed_product.mpr ⟨⟨hsome, hsingle, fun x hx => (hall x hx).2⟩, fun x hx => (hall x hx).1⟩
      fun_cases collapse f.coefficient n d with
      | case1 => exact collapsed_number _
      | case2 e hone => exact (hall e List.mem_cons_self).1
      | case3 e hone =>
        exact made (.inl (List.cons_ne_nil e [])) fun _ _ _ => hq _ (Bool.eq_false_iff.mpr hone)
      | case4 n d hnone hsingle =>
        refine made ?_ fun x hn hd => (hsingle x hn hd).elim
        by_contra hempty
        simp only [not_or, not_not] at hempty
        exact hnone hempty.1 hempty.2

end Products

/-- Wherever the call subtracts exponents to cancel a base, one of them no literal, the addends of the
opposite of the subtracted one have a certain coefficient. -/
def Call.Opposes (q : Coefficient α → Prop) (call : Call α) : Prop :=
  ∀ f common, Relation.ReflTransGen Call.Makes call (.cancel f) →
    common? f.denominator f.numerator = some common →
    common.upper.real? = none ∨ common.lower.real? = none → common.lower.Opposable q

/-- What is so wherever a call subtracts exponents is so in the calls that it makes. -/
theorem Call.Opposes.of_makes {caller callee : Call α} (h : caller.Opposes q)
    (hmakes : Makes caller callee) : callee.Opposes q :=
  fun f common hreach => h f common (.head hmakes hreach)

/-- All rules collapse what they make of collapsed arguments, and the pass that applies them what it makes
of anything, if the exponents that they subtract allow it. -/
theorem collapsed_closed [Scalar.Signed α] (hq : ∀ c : Coefficient α, c.isOne = false → q c) :
    Closed (α := α)
      (fun base exponent e => Raises base exponent e ∧ ((Call.power base exponent).Opposes q →
        base.Collapsed q → exponent.Collapsed q → e.Collapsed q))
      (fun f g => Reduces f g ∧ ((Call.cancel f).Opposes q → f.Has (Collapsed q) → g.Has (Collapsed q)))
      (fun c n d e => Multiplies c n d e ∧ ((Call.product c n d).Opposes q →
        (∀ x ∈ n, x.Collapsed q) → (∀ x ∈ d, x.Collapsed q) → e.Collapsed q))
      (fun e e' => Simplifies e e' ∧ ((Call.simplify e).Opposes q → e'.Collapsed q)) where
  plain h := ⟨results_closed.plain h, fun _ => collapsed_plainPower h⟩
  relocate hplain hneg hpositive hmoved he := by
    refine ⟨results_closed.relocate hplain hneg hpositive.1 hmoved.1 he.1, fun hcall hbase _ => ?_⟩
    have hexponent := hpositive.2 (hcall.of_makes (.unsign hplain hneg))
    have hpower := hmoved.2 (hcall.of_makes (.relocate hplain hneg hpositive.1)) hbase hexponent
    exact he.2 (hcall.of_makes (.invert hplain hneg hpositive.1 hmoved.1)) (by simp) (by simpa using hpower)
  nest hplain hneg hwhole hfolded he := by
    refine ⟨results_closed.nest hplain hneg hwhole hfolded.1 he.1, fun hcall hbase hexponent => ?_⟩
    obtain ⟨hinner, hinside⟩ := collapsed_power.mp hbase
    have hproduct := hfolded.2 (hcall.of_makes (.fold hplain hneg hwhole))
      (by simpa using ⟨hinside, hexponent⟩) (by simp)
    exact he.2 (hcall.of_makes (.nest hplain hneg hwhole hfolded.1)) hinner hproduct
  spread hplain hneg hwhole hfinite hn hd he := by
    have hn' := hn.imp fun _ _ h => h.1
    have hd' := hd.imp fun _ _ h => h.1
    refine ⟨results_closed.spread hplain hneg hwhole hfinite hn' hd' he.1, fun hcall hbase _ => ?_⟩
    obtain ⟨above, below⟩ := Collapsed.factors _ _ _ hbase
    refine he.2 (hcall.of_makes (.collect hplain hneg hwhole hfinite hn' hd')) ?_ ?_
    · exact forall_of_forall₂ hn fun a ha _ h => h.2
        (hcall.of_makes (.spread hplain hneg hwhole hfinite (List.mem_append_left _ ha))) (above a ha)
        (collapsed_number _)
    · exact forall_of_forall₂ hd fun a ha _ h => h.2
        (hcall.of_makes (.spread hplain hneg hwhole hfinite (List.mem_append_right _ ha))) (below a ha)
        (collapsed_number _)
  remain hplain hneg hunraised :=
    ⟨results_closed.remain hplain hneg hunraised, fun _ hbase hexponent =>
      collapsed_power.mpr ⟨hbase, hexponent⟩⟩
  done hcommon := ⟨results_closed.done hcommon, fun _ hf => hf⟩
  cancelAbove hcommon hu hl hpos hfactor hg := by
    refine ⟨results_closed.cancelAbove hcommon hu hl hpos hfactor.1 hg.1, fun hcall hf => ?_⟩
    have hleaves := Common.Leaves.above hu hl hpos
    obtain ⟨rest, hbase, -⟩ := hf.without Collapsed.powerParts hcommon
    have hpower := hfactor.2 (hcall.of_makes (.leave hcommon hleaves)) hbase (collapsed_number _)
    exact hg.2 (hcall.of_makes (.restore hcommon hleaves hfactor.1))
      (rest.absorb Collapsed.factors .above _ hpower)
  cancelBelow hcommon hu hl hneg hfactor hg := by
    refine ⟨results_closed.cancelBelow hcommon hu hl hneg hfactor.1 hg.1, fun hcall hf => ?_⟩
    have hleaves := Common.Leaves.below hu hl (not_pos_of_neg hneg) hneg
    obtain ⟨rest, hbase, -⟩ := hf.without Collapsed.powerParts hcommon
    have hpower := hfactor.2 (hcall.of_makes (.leave hcommon hleaves)) hbase (collapsed_number _)
    exact hg.2 (hcall.of_makes (.restore hcommon hleaves hfactor.1))
      (rest.absorb Collapsed.factors .below _ hpower)
  cancelBoth hcommon hu hl hpos hneg hg := by
    refine ⟨results_closed.cancelBoth hcommon hu hl hpos hneg hg.1, fun hcall hf => ?_⟩
    exact hg.2 (hcall.of_makes (.drop hcommon hu hl hpos hneg)) (hf.without Collapsed.powerParts hcommon).1
  cancelSymbolic hcommon hsymbolic hfactor hg := by
    refine ⟨results_closed.cancelSymbolic hcommon hsymbolic hfactor.1 hg.1, fun hcall hf => ?_⟩
    have hleaves := Common.Leaves.symbolic hsymbolic
    obtain ⟨rest, hbase, hupper, hlower⟩ := hf.without Collapsed.powerParts hcommon
    -- the only expression that is made without its rule: the opposite of the lower exponent
    have hopposite := hlower.neg_addends (hq _ Coefficient.isOne_minusOne)
      (hcall _ _ .refl hcommon hsymbolic)
    have hdifference := collapsed_sumRule (List.forall_mem_cons.mpr
      ⟨hupper.addends, List.forall_mem_singleton.mpr hopposite⟩)
    have hpower := hfactor.2 (hcall.of_makes (.leave hcommon hleaves)) hbase hdifference
    exact hg.2 (hcall.of_makes (.restore hcommon hleaves hfactor.1))
      (rest.absorb Collapsed.factors .above _ hpower)
  multiply {c} _ _ _ hf := by
    refine ⟨results_closed.multiply hf.1, fun hcall hn hd => ?_⟩
    have hgathered := Fraction.Has.gathered Collapsed.factors c hn hd
    exact collapsed_finish hq (hf.2 (hcall.of_makes .gather) hgathered)
  sum h := by
    refine ⟨results_closed.sum (h.imp fun _ _ h => h.1), fun hcall => collapsed_sumRule ?_⟩
    intro e he
    refine (forall_of_forall₂ h (fun a ha _ h => h.2 (hcall.of_makes (.child ha))) e he).addends
  fraction hn hd he := by
    have hn' := hn.imp fun _ _ h => h.1
    have hd' := hd.imp fun _ _ h => h.1
    refine ⟨results_closed.fraction hn' hd' he.1, fun hcall => ?_⟩
    refine he.2 (hcall.of_makes (.multiply hn' hd')) ?_ ?_
    · exact forall_of_forall₂ hn fun a ha _ h =>
        h.2 (hcall.of_makes (.child (List.mem_append_left _ ha)))
    · exact forall_of_forall₂ hd fun a ha _ h =>
        h.2 (hcall.of_makes (.child (List.mem_append_right _ ha)))
  raise hbase hexponent he := by
    refine ⟨results_closed.raise hbase.1 hexponent.1 he.1, fun hcall => ?_⟩
    exact he.2 (hcall.of_makes (.raise hbase.1 hexponent.1))
      (hbase.2 (hcall.of_makes (.child List.mem_cons_self)))
      (hexponent.2 (hcall.of_makes (.child (by simp [children]))))
  log hbase hbody :=
    ⟨results_closed.log hbase.1 hbody.1, fun hcall => collapsed_logRule
      (hbase.2 (hcall.of_makes (.child List.mem_cons_self)))
      (hbody.2 (hcall.of_makes (.child (by simp [children]))))⟩
  trig hbody :=
    ⟨results_closed.trig hbody.1, fun hcall =>
      collapsed_trigRule (hbody.2 (hcall.of_makes (.child List.mem_cons_self)))⟩
  var name := ⟨results_closed.var name, fun _ => everywhere_of_leaf rfl trivial⟩
  number n := ⟨results_closed.number n, fun _ => collapsed_number n⟩

/-- Where a call itself cancels nothing the exponents that it subtracts are those of the calls in it. -/
theorem Call.opposes_of_callees {call : Call α} (hself : ∀ f, call ≠ .cancel f)
    (h : ∀ callee, Makes call callee → callee.Opposes q) : call.Opposes q := by
  intro f common hreach
  obtain hsame | ⟨callee, hmakes, hrest⟩ := hreach.cases_head
  · exact (hself f hsame).elim
  · exact h callee hmakes f common hrest

/-- No call is made for a variable. -/
theorem opposes_simplify_var (name : String) : (Call.simplify (var name : Expr α)).Opposes q := by
  refine Call.opposes_of_callees nofun fun callee hmakes => ?_
  cases hmakes with
  | child ha => cases ha

/-- No call is made for a power of a variable to an exponent that is not negative. -/
theorem opposes_power_var (name : String) {exponent : Expr α} (h : exponent.isNegative = false) :
    (Call.power (var name) exponent).Opposes q :=
  Call.opposes_of_callees nofun fun callee hmakes =>
    absurd hmakes (Call.not_makes_power_var name h callee)

/-- No call is made for a fraction without a common base. -/
theorem opposes_cancel_apart {f : Fraction α} (h : common? f.denominator f.numerator = none) :
    (Call.cancel f).Opposes q := by
  intro g common hreach hcommon
  obtain hsame | ⟨callee, hmakes, -⟩ := hreach.cases_head
  · cases hsame
    rw [h] at hcommon
    cases hcommon
  · exact absurd hmakes (Call.not_makes_cancel_apart h callee)

/-- What is subtracted where a base is cancelled, and in the calls for the power that it leaves and for the
rest of the fraction, is all that is subtracted. -/
theorem opposes_cancel_symbolic {f : Fraction α} {common : Common α} {factor : Expr α}
    (hcommon : common? f.denominator f.numerator = some common)
    (hsymbolic : common.upper.real? = none ∨ common.lower.real? = none)
    (hlower : common.lower.Opposable q)
    (hpower : (Call.power common.base (sumRule [common.upper, common.lower.neg]).value).Opposes q)
    (hfactor : Raises common.base (sumRule [common.upper, common.lower.neg]).value factor)
    (hrest : (Call.cancel (absorb .above (f.without common) factor).value).Opposes q) :
    (Call.cancel f).Opposes q := by
  have hnot {u l : α} (hu : common.upper.real? = some u) (hl : common.lower.real? = some l) : False := by
    rw [hu, hl] at hsymbolic
    cases hsymbolic <;> contradiction
  intro g shared hreach hshared hdifference
  obtain hsame | ⟨callee, hmakes, hbelow⟩ := hreach.cases_head
  · cases hsame
    cases hcommon.symm.trans hshared
    exact hlower
  · refine (?_ : callee.Opposes q) g shared hbelow hshared hdifference
    cases hmakes with
    | leave hfound hleaves =>
      cases hcommon.symm.trans hfound
      cases hleaves with
      | above hu hl => exact (hnot hu hl).elim
      | below hu hl => exact (hnot hu hl).elim
      | symbolic => exact hpower
    | restore hfound hleaves hraises =>
      cases hcommon.symm.trans hfound
      cases hleaves with
      | above hu hl => exact (hnot hu hl).elim
      | below hu hl => exact (hnot hu hl).elim
      | symbolic =>
        obtain rfl := hfactor.unique hraises
        exact hrest
    | drop hfound hu hl =>
      cases hcommon.symm.trans hfound
      exact (hnot hu hl).elim

/-- For a product only exponents are subtracted that its cancellation subtracts. -/
theorem opposes_product {c : Coefficient α} {n d : List (Expr α)}
    (h : (Call.cancel (gather c n d)).Opposes q) : (Call.product c n d).Opposes q := by
  refine Call.opposes_of_callees nofun fun callee hmakes => ?_
  cases hmakes with
  | gather => exact h

/-- In a pass over a power exponents are subtracted in the passes over its parts and by the rule. -/
theorem opposes_simplify_power {base exponent base' exponent' : Expr α}
    (hbase : (Call.simplify base).Opposes q) (hexponent : (Call.simplify exponent).Opposes q)
    (hbase' : Simplifies base base') (hexponent' : Simplifies exponent exponent')
    (h : (Call.power base' exponent').Opposes q) : (Call.simplify (power base exponent)).Opposes q := by
  refine Call.opposes_of_callees nofun fun callee hmakes => ?_
  cases hmakes with
  | child ha =>
    simp only [children, List.mem_cons, List.not_mem_nil, or_false] at ha
    obtain rfl | rfl := ha
    · exact hbase
    · exact hexponent
  | raise hb he =>
    obtain rfl := hbase'.unique hb
    obtain rfl := hexponent'.unique he
    exact h

/-- In a pass over a product exponents are subtracted in the passes over its factors and by the rule. -/
theorem opposes_simplify_product {c : Coefficient α} {n d n' d' : List (Expr α)}
    (hfactors : ∀ x ∈ n ++ d, (Call.simplify x).Opposes q) (hn : List.Forall₂ Simplifies n n')
    (hd : List.Forall₂ Simplifies d d') (h : (Call.product c n' d').Opposes q) :
    (Call.simplify (product c n d)).Opposes q := by
  refine Call.opposes_of_callees nofun fun callee hmakes => ?_
  cases hmakes with
  | child ha => exact hfactors _ ha
  | multiply hn' hd' =>
    obtain rfl := results_unique hn hn' (fun _ _ h => h) fun _ _ _ => Simplifies.unique
    obtain rfl := results_unique hd hd' (fun _ _ h => h) fun _ _ _ => Simplifies.unique
    exact h

/-- One is the sum of one alone. -/
theorem total_one : total [(Scalar.one : Float)] = Scalar.one := by
  rw [total, List.mergeSort_singleton]
  rfl

/-- One minus a variable, with its addends sorted. -/
theorem sumRule_one_neg (name : String) : (sumRule [one, (var name : Expr Float).neg]).value =
    sum [(var name).neg, one] := by
  have hsorted : [(var name : Expr Float).neg, one].Pairwise fun a b => a.order b ≠ .gt := by
    rw [List.pairwise_pair]
    exact nofun
  have hterms : sumTerms [one, (var name : Expr Float).neg] = [(var name).neg, one] := by
    have hliterals : [one, (var name : Expr Float).neg].filterMap Expr.real? = [Scalar.one] := rfl
    simp only [sumTerms, hliterals, total_one]
    rfl
  rw [sumRule_value]
  change collapseSum (sort (sumTerms [one, (var name : Expr Float).neg])) = _
  rw [hterms, sort_of_sorted hsorted]
  rfl

/-- The difference of one and one minus a variable is the variable as a product. -/
theorem sumRule_one_neg_one (name : String) :
    (sumRule [one, (sum [(var name).neg, one] : Expr Float).neg]).value =
      product (-.minusOne) [var name] [] := by
  have htotal : total [(Scalar.one : Float), -Scalar.one] = total [-Scalar.one, Scalar.one] := by
    refine total_congr (.swap ..) fun a ha b hb => ?_
    simp only [List.mem_cons, List.not_mem_nil, or_false] at ha hb
    obtain rfl | rfl := ha <;> obtain rfl | rfl := hb <;> first | exact fun _ => rfl | exact nofun
  have hzero : total [(-Scalar.one : Float), Scalar.one] = Scalar.zero := by
    rw [total, List.mergeSort_of_pairwise (by rw [List.pairwise_pair]; rfl)]
    rfl
  have hterms : sumTerms [one, product (-.minusOne) [var name] [], real (-Scalar.one : Float)] =
      [product (-.minusOne) [var name] []] := by
    have hliterals : [one, product (-.minusOne) [var name] [],
      real (-Scalar.one : Float)].filterMap Expr.real? = [Scalar.one, -Scalar.one] := rfl
    simp only [sumTerms, hliterals, htotal, hzero]
    rfl
  rw [sumRule_value]
  change collapseSum (sort (sumTerms [one, product (-.minusOne) [var name] [], real (-Scalar.one : Float)])) = _
  rw [hterms, sort, List.mergeSort_singleton]
  rfl

/-- The pass makes nothing else of the opposite of a variable. -/
theorem simplifies_neg_var (name : String) :
    Simplifies (var name : Expr Float).neg (var name).neg :=
  results_closed.fraction (.cons (results_closed.var name) .nil) .nil (multiplies_var rfl name)

end Reduction

namespace Expr

open Reduction Fraction

/-- One pass leaves no sum of fewer than two addends and no product without factors. If it subtracts no
exponent, to cancel a base, an addend of which is the opposite of a single factor, then it leaves no single
factor as a product with the coefficient one either. -/
theorem simplified_collapsed (e : Expr Float) : ∃ e', (simplified e).Returns e' ∧
    (∀ x ∈ e'.postOrder, ¬ x.Lacking) ∧
    ((Call.simplify e).Opposes (fun c => c.isOne = false) → ∀ x ∈ e'.postOrder, ¬ x.LoneFactor) := by
  obtain ⟨e', he'⟩ := simplified_halts e
  refine ⟨e', he', fun x hx hlacking => ?_, fun hcall x hx hlone => ?_⟩
  · have hcollapsed := ((collapsed_closed (q := fun _ : Coefficient Float => True)
      fun _ _ => trivial).simplify_returns he').2 fun _ _ _ _ _ _ _ _ _ _ => trivial
    cases x with
    | sum as => exact absurd (hcollapsed _ hx).1 (Nat.not_le.mpr hlacking)
    | product c n d =>
      obtain hn | hd := (hcollapsed _ hx).1
      · exact hn hlacking.1
      · exact hd hlacking.2
    | _ => exact hlacking
  · have hcollapsed := ((collapsed_closed fun _ hone => hone).simplify_returns he').2 hcall
    cases x with
    | product c n d =>
      obtain ⟨hone, ⟨y, hn⟩, hd⟩ := hlone
      have hcoefficient : c.isOne = false := (hcollapsed _ hx).2.1 y hn hd
      rw [hone] at hcoefficient
      cases hcoefficient
    | _ => exact hlone

/-- The quotient of a variable and its power to another variable is simplified to a power, the exponent of
which is a difference, and there is nothing left to collapse. -/
theorem simplified_collapsed_quotient :
    let e : Expr Float := dividedBy (var "z") (power (var "z") (var "y"))
    (Call.simplify e).Opposes (fun c => c.isOne = false) ∧
      ∃ e', (simplified e).Returns e' ∧ (∀ x ∈ e'.postOrder, ¬ x.Lacking) ∧
        ∀ x ∈ e'.postOrder, ¬ x.LoneFactor := by
  intro e
  have hvar (name : String) : Simplifies (var name : Expr Float) (var name) := results_closed.var name
  have hpower := results_closed.raise (hvar "z") (hvar "y") (raises_var "z" rfl rfl)
  have hraises : Raises (var "z") (sumRule [one, (var "y" : Expr Float).neg]).value
      (power (var "z") (sum [(var "y").neg, one])) := by
    rw [sumRule_one_neg]
    exact raises_var "z" rfl rfl
  have hopposable : (var "y" : Expr Float).Opposable fun c => c.isOne = false := by
    intro a ha c x hx
    obtain rfl : a = var "y" := List.mem_singleton.mp ha
    cases hx
  have hshared : common? [power (var "z") (var "y" : Expr Float)] [var "z"] =
    some ⟨var "z", one, var "y", [], []⟩ := rfl
  have hleft : (Call.power (var "z") (sumRule [one, (var "y" : Expr Float).neg]).value).Opposes
      fun c => c.isOne = false := by
    rw [sumRule_one_neg]
    exact opposes_power_var "z" rfl
  have hcancel : (Call.cancel (gather .one [var "z"] [power (var "z") (var "y" : Expr Float)])).Opposes
      fun c => c.isOne = false :=
    opposes_cancel_symbolic hshared (.inr rfl) hopposable hleft hraises (opposes_cancel_apart rfl)
  have hraised : (Call.simplify (power (var "z") (var "y" : Expr Float))).Opposes
      fun c => c.isOne = false :=
    opposes_simplify_power (opposes_simplify_var "z") (opposes_simplify_var "y") (hvar "z") (hvar "y")
      (opposes_power_var "z" rfl)
  have hcall : (Call.simplify e).Opposes fun c => c.isOne = false :=
    opposes_simplify_product (List.forall_mem_cons.mpr
      ⟨opposes_simplify_var "z", List.forall_mem_singleton.mpr hraised⟩) (.cons (hvar "z") .nil)
      (.cons hpower .nil) (opposes_product hcancel)
  obtain ⟨e', he', hfilled, hsingle⟩ := simplified_collapsed e
  exact ⟨hcall, e', he', hfilled, hsingle hcall⟩

/-- If the divisor is the power to one minus the other variable, then this variable is left as a product of
one factor with the coefficient one. -/
theorem simplified_lone_factor :
    let e : Expr Float := dividedBy (var "z") (power (var "z") (sum [one, (var "y").neg]))
    ∃ e', (simplified e).Returns e' ∧ ∃ x ∈ e'.postOrder, x.LoneFactor := by
  intro e
  let s : Expr Float := sum [(var "y").neg, one]
  let lone : Expr Float := product (-.minusOne) [var "y"] []
  have hz := results_closed.var (α := Float) "z"
  have hone : Simplifies (one : Expr Float) one := results_closed.number _
  have hs := results_closed.sum (.cons hone (.cons (simplifies_neg_var "y") .nil))
  rw [sumRule_one_neg] at hs
  have hpower := results_closed.raise hz hs (raises_var "z" rfl rfl)
  have hcancel : Reduces (gather .one [var "z"] [power (var "z") s])
      { coefficient := .one, numerator := [power (var "z") lone] } := by
    have hdone : Reduces { coefficient := .one, numerator := [power (var "z") lone] }
        { coefficient := .one, numerator := [power (var "z") lone] } := results_closed.done rfl
    have hraises : Raises (var "z") (sumRule [one, s.neg]).value (power (var "z") lone) := by
      rw [sumRule_one_neg_one]
      exact raises_var "z" rfl rfl
    have hshared : common? [power (var "z") s] [var "z"] = some ⟨var "z", one, s, [], []⟩ := rfl
    exact results_closed.cancelSymbolic hshared (.inr rfl) hraises hdone
  have hproduct := results_closed.multiply hcancel
  rw [finish_single rfl rfl] at hproduct
  have hsimplifies := results_closed.fraction (.cons hz .nil) (.cons hpower .nil) hproduct
  have hlone : lone ∈ (power (var "z") lone).postOrder :=
    mem_postOrder.mpr (.inr ⟨lone, by simp [children], mem_postOrder.mpr (.inl rfl)⟩)
  exact ⟨_, hsimplifies.simplified_returns, lone, hlone, rfl, ⟨_, rfl⟩, rfl⟩

end Expr

end SymbolicAlgebra
