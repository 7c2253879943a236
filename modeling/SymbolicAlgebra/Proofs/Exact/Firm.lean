import SymbolicAlgebra.Proofs.Exact.Soundness
import SymbolicAlgebra.Proofs.Exact.Violation

/-!
# Simplification keeps sums and bases finite

The rules move powers of zero across fraction lines, where they may stand for infinity. Yet wherever
sums and the bases of powers mean real numbers, those of the result do: only a product can become
infinite, and it is neither added to anything nor raised to a power that stays one.
-/

namespace SymbolicAlgebra.Expr

open Exact Projective

variable {b : Bindings Exact}

/-- A sum means a real number, and so does the base of a power. -/
def FirmNode (b : Bindings Exact) : Expr Exact → Prop
  | sum as => ((sum as).meaning b).IsFinite
  | power base _ => (base.meaning b).IsFinite
  | _ => True

/-- All sums and all bases of powers mean real numbers. -/
def Firm (b : Bindings Exact) (e : Expr Exact) : Prop := e.Everywhere (FirmNode b)

/-- The expression, its sums and the bases of its powers mean real numbers. -/
structure Solid (b : Bindings Exact) (e : Expr Exact) : Prop where
  firm : e.Firm b
  isFinite : (e.meaning b).IsFinite

section Parts

variable {base exponent body : Expr Exact} {c : Coefficient Exact} {as n d : List (Expr Exact)}

/-- A sum is firm where its addends are and mean real numbers. -/
theorem firm_sum : (sum as).Firm b ↔ ∀ a ∈ as, a.Solid b := by
  rw [Firm, everywhere_iff, FirmNode, meaning_sum, isFinite_sum, List.forall_mem_map]
  exact ⟨fun h a ha => ⟨h.2 a ha, h.1 a ha⟩,
    fun h => ⟨fun a ha => (h a ha).isFinite, fun a ha => (h a ha).firm⟩⟩

/-- A product is firm where its factors and divisors are. -/
theorem firm_product :
    (product c n d).Firm b ↔ (∀ x ∈ n, x.Firm b) ∧ ∀ x ∈ d, x.Firm b := by
  rw [Firm, everywhere_iff, children, List.forall_mem_append]
  exact and_iff_right trivial

/-- A power is firm where its operands are and the base means a real number. -/
theorem firm_power : (power base exponent).Firm b ↔ base.Solid b ∧ exponent.Firm b := by
  rw [Firm, everywhere_iff, children, List.forall_mem_cons, List.forall_mem_singleton]
  exact ⟨fun h => ⟨⟨h.2.1, h.1⟩, h.2.2⟩, fun h => ⟨h.1.isFinite, h.1.firm, h.2⟩⟩

/-- A logarithm is firm where its operands are. -/
theorem firm_log : (log base body).Firm b ↔ base.Firm b ∧ body.Firm b := everywhere_log trivial

/-- A trigonometric function is firm where its argument is. -/
theorem firm_trig {f : Trig} : (trig f body).Firm b ↔ body.Firm b := everywhere_trig trivial

/-- A literal is firm. -/
theorem firm_number (v : Number Exact) : (number v).Firm b := everywhere_of_leaf rfl trivial

/-- What is defined is firm. -/
theorem Defined.firm {e : Expr Exact} (h : e.Defined b) : e.Firm b := by
  have hfinite {x : Expr Exact} (hx : x.Defined b) : (x.meaning b).IsFinite := by
    obtain ⟨r, hr⟩ := hx.root
    exact ⟨r, meaning_of_defined x hx hr⟩
  intro x hx
  have hdefined : x.Defined b := Everywhere.node h hx
  cases x with
  | sum as => exact hfinite hdefined
  | power base exponent => exact hfinite (hdefined.child (by simp [children]))
  | _ => trivial

/-- Only products and powers can be infinite. -/
theorem Firm.isFinite {e : Expr Exact} (h : e.Firm b) (hmeaning : e.meaning b ≠ absent)
    (hproduct : e.isProduct = false) (hpower : ∀ base exponent, e ≠ power base exponent) :
    (e.meaning b).IsFinite := by
  cases e with
  | sum as => exact h.root
  | product c n d => cases hproduct
  | power base exponent => exact (hpower base exponent rfl).elim
  | log base body => exact (isFinite_of_log hmeaning).2.2
  | trig f body => exact (isFinite_of_apply hmeaning).2
  | var name => exact isFinite_ofExact hmeaning
  | number v => exact isFinite_ofExact hmeaning

/-- A factor is the power of a solid base to a solid exponent. -/
theorem Firm.powerParts {e : Expr Exact} (h : e.Firm b) (hmeaning : e.meaning b ≠ absent)
    (hproduct : e.isProduct = false) : e.powerParts.1.Solid b ∧ e.powerParts.2.Solid b := by
  have hone : (one : Expr Exact).Solid b := ⟨firm_number _, by simp [Projective.one_eq]⟩
  cases e with
  | power base exponent =>
    obtain ⟨hbase, hexponent⟩ := firm_power.mp h
    rw [meaning] at hmeaning
    exact ⟨hbase, hexponent, (isFinite_of_power hmeaning).2⟩
  | _ => exact ⟨⟨h, h.isFinite hmeaning hproduct (by rintro _ _ ⟨⟩)⟩, hone⟩

mutual

/-- The opposite of an expression is firm. -/
theorem Firm.neg {e : Expr Exact} (h : e.Firm b) : e.neg.Firm b := by
  have opposite {e : Expr Exact} (h : e.Firm b) : (scaled .minusOne e).Firm b :=
    firm_product.mpr ⟨List.forall_mem_singleton.mpr h, by simp⟩
  cases e with
  | sum as =>
    rw [Expr.neg, firm_sum, negList_eq_map, List.forall_mem_map]
    exact solid_neg_of_mem as (firm_sum.mp h)
  | product c n d => exact firm_product.mpr (firm_product.mp h)
  | number v =>
    cases v with
    | real v => exact firm_number _
    | constant k => exact opposite h
  | _ => exact opposite h

/-- The opposites of a list's members are solid. -/
theorem solid_neg_of_mem (es : List (Expr Exact)) (h : ∀ e ∈ es, e.Solid b) :
    ∀ e ∈ es, e.neg.Solid b := by
  cases es with
  | nil => simp
  | cons e es =>
    rw [List.forall_mem_cons] at h ⊢
    refine ⟨⟨h.1.firm.neg, ?_⟩, solid_neg_of_mem es h.2⟩
    rw [meaning_neg]
    exact (isFinite_finite _).mul h.1.isFinite

end

/-- The opposite of a solid expression is solid. -/
theorem Solid.neg {e : Expr Exact} (h : e.Solid b) : e.neg.Solid b :=
  solid_neg_of_mem [e] (List.forall_mem_singleton.mpr h) e List.mem_cons_self

/-- What the coefficient of an expression scales is firm. -/
theorem Firm.scaleParts {e : Expr Exact} (h : e.Firm b) : e.scaleParts.2.Firm b := by
  fun_cases Expr.scaleParts e with
  | case1 v => exact firm_number _
  | case2 c e => exact (firm_product.mp h).1 e List.mem_cons_self
  | case3 c n d => exact firm_product.mpr (firm_product.mp h)
  | case4 => exact h

/-- Putting a coefficient before an expression keeps it firm. -/
theorem Firm.ofScaleParts {key : Expr Exact} (h : key.Firm b) (c : Coefficient Exact) :
    (ofScaleParts c key).Firm b := by
  fun_cases Expr.ofScaleParts c key with
  | case1 => exact firm_number _
  | case2 => exact firm_number _
  | case3 => exact firm_product.mpr (firm_product.mp h)
  | case4 => exact h
  | case5 => exact firm_product.mpr ⟨List.forall_mem_singleton.mpr h, by simp⟩

end Parts

end SymbolicAlgebra.Expr

namespace SymbolicAlgebra.Reduction

open Exact Projective SymbolicAlgebra.Expr

variable {b : Bindings Exact}

/-- The sum of solid expressions is solid. -/
theorem solid_sumRule {addends : List (Expr Exact)} (h : ∀ e ∈ addends, e.Solid b) :
    (sumRule addends).value.Solid b := by
  have hfinite : ((sumRule addends).value.meaning b).IsFinite := by
    refine IsFinite.mono (isFinite_sum.mpr ?_) (meaning_sumRule addends)
    rw [List.forall_mem_map]
    exact fun e he => (h e he).isFinite
  refine ⟨?_, hfinite⟩
  have hterms : ∀ a ∈ sort (sumTerms (addends.flatMap Expr.addends)), a.Firm b := by
    intro a ha
    obtain ha | ⟨v, rfl, -⟩ := mem_sumTerms ((sort_perm _).mem_iff.mp ha)
    · obtain ⟨e, he, ha⟩ := List.mem_flatMap.mp (mem_keptAddends.mp ha).1
      cases e with
      | sum as => exact (firm_sum.mp (h _ he).firm a ha).firm
      | _ => exact List.mem_singleton.mp ha ▸ (h _ he).firm
    · exact firm_number _
  rw [sumRule_value] at hfinite ⊢
  generalize sort (sumTerms (addends.flatMap Expr.addends)) = terms at hfinite hterms
  revert hfinite
  fun_cases collapseSum terms with
  | case1 => exact fun _ => firm_number _
  | case2 e => exact fun _ => hterms e List.mem_cons_self
  | case3 => exact fun hfinite => everywhere_iff.mpr ⟨hfinite, hterms⟩

/-- A power that follows from its parts is firm if they are. -/
theorem firm_plainPower {base exponent : Expr Exact} {found : Traced (Expr Exact)}
    (h : plainPower? base exponent = some found) (hbase : base.Firm b)
    (hexponent : exponent.Firm b) : found.value.Firm b := by
  have outcome := powerOutcome h
  generalize found.value = e at outcome
  cases outcome with
  | exponentZero _ => exact firm_number _
  | exponentOne _ => exact hbase
  | baseOne _ => exact firm_number _
  | literal _ => exact firm_number _
  | logarithm _ => exact (firm_log.mp hexponent).2

/-- Logarithms are firm if their parts are. -/
theorem firm_logRule {base body : Expr Exact} (hbase : base.Firm b) (hbody : body.Firm b) :
    (logRule base body).value.Firm b := by
  have outcome := logOutcome base body
  generalize (logRule base body).value = e at outcome
  cases outcome with
  | self _ => exact firm_number _
  | bodyOne _ => exact firm_number _
  | power _ => exact (firm_power.mp hbody).2
  | literal _ _ _ => exact firm_number _
  | stays _ => exact firm_log.mpr ⟨hbase, hbody⟩

/-- Functions of what is firm are firm. -/
theorem firm_trigRule {f : Trig} {body : Expr Exact} (hbody : body.Firm b) :
    (trigRule f body).value.Firm b := by
  have outcome := trigOutcome f body
  generalize (trigRule f body).value = e at outcome
  cases outcome with
  | zero _ => cases f <;> exact firm_number _
  | pi _ => cases f <;> exact firm_number _
  | stays => exact firm_trig.mpr hbody

/-- The factors of a firm product are firm. -/
theorem factors_firm (c : Coefficient Exact) (n d : List (Expr Exact))
    (h : (product c n d).Firm b) : (∀ x ∈ n, x.Firm b) ∧ ∀ x ∈ d, x.Firm b := firm_product.mp h

/-- A common base of firm factors is solid, and so are its exponents. -/
theorem solid_common {f : Fraction Exact} {common : Fraction.Common Exact} (hf : f.Has (Firm b))
    (hmeaning : f.meaning b ≠ absent)
    (h : Fraction.common? f.denominator f.numerator = some common) :
    (f.without common).Has (Firm b) ∧
      common.base.Solid b ∧ common.upper.Solid b ∧ common.lower.Solid b := by
  obtain ⟨habove, hbelow⟩ := ne_absent_of_mul (ne_absent_of_mul hmeaning).1
  have hfactors : f.Has fun e => e.Firm b ∧ e.meaning b ≠ absent ∧ e.isProduct = false := by
    refine ⟨fun e he => ?_, fun e he => ?_⟩
    · obtain ⟨hfirm, hfactor⟩ := hf.1 e he
      have hne := ne_absent_of_mem_prod (ne_absent_of_mul habove).2 (List.mem_map_of_mem he)
      exact ⟨⟨hfirm, hne, hfactor.1⟩, hfactor⟩
    · obtain ⟨hfirm, hfactor⟩ := hf.2 e he
      have hne := ne_absent_of_mem_prod (inv_eq_absent.not.mp hbelow) (List.mem_map_of_mem he)
      exact ⟨⟨hfirm, hne, hfactor.1⟩, hfactor⟩
  obtain ⟨hrest, hparts⟩ := hfactors.without (fun e he => he.1.powerParts he.2.1 he.2.2) h
  refine ⟨⟨fun e he => ?_, fun e he => ?_⟩, hparts⟩
  · exact (hrest.1 e he).imp_left And.left
  · exact (hrest.2 e he).imp_left And.left

/-- Finishing a product of firm factors makes a firm expression. -/
theorem firm_finish {f : Fraction Exact} (hf : f.Has (Firm b)) (hplain : f.Has Plain)
    (hmeaning : f.meaning b ≠ absent) : f.finish.value.Firm b := by
  cases hc : f.coefficient.isZero with
  | true =>
    rw [Fraction.finish, if_pos hc]
    exact firm_number _
  | false =>
    rw [Fraction.finish_eq hc]
    have habove : ∀ e ∈ sort f.numerator, e.Firm b ∧ e.Plain := by
      intro e he
      rw [(sort_perm _).mem_iff] at he
      exact ⟨(hf.1 e he).1, (hplain.1 e he).1⟩
    have hbelow : ∀ e ∈ sort f.divisors, e.Firm b := by
      intro e he
      rw [(sort_perm _).mem_iff, Fraction.divisors] at he
      split at he
      · obtain rfl := List.mem_singleton.mp he
        exact firm_number _
      · exact (hf.2 e he).1
    have hcoefficient : f.coefficient.meaning.IsFinite :=
      isFinite_ofExact (ne_absent_of_mul (ne_absent_of_mul (ne_absent_of_mul hmeaning).1).1).1
    generalize sort f.numerator = n at habove
    generalize sort f.divisors = d at hbelow
    have outcome := Fraction.assembly f.coefficient n d
    generalize (Fraction.assemble f.coefficient n d).value = e at outcome
    cases outcome with
    | sum _ => exact (habove _ List.mem_cons_self).1
    | @distributed addends =>
      obtain ⟨hfirm, hsum⟩ := habove _ List.mem_cons_self
      refine (solid_sumRule ?_).firm
      rw [Fraction.distribute, List.forall_mem_map]
      intro a ha
      have hsolid := firm_sum.mp hfirm a ha
      refine ⟨hsolid.firm.scaleParts.ofScaleParts _, ?_⟩
      exact (hcoefficient.mul hsolid.isFinite).mono
        (Fraction.meaning_multiple _ (hereditary_plain.sum.mp hsum a ha))
    | number => exact firm_number _
    | factor _ => exact (habove _ List.mem_cons_self).1
    | product _ => exact firm_product.mpr ⟨fun e he => (habove e he).1, hbelow⟩

/-- The base is finite, or the exponent is one that is multiplied into powers and products, so that no
power of an infinite base is left. -/
def Raisable (b : Bindings Exact) (base exponent : Expr Exact) : Prop :=
  (base.meaning b).IsFinite ∨ exponent.isNegative = false ∧ ∃ k, wholeExponent? exponent = some k

/-- A power that no rule applies to is firm. -/
theorem firm_remain {base exponent : Expr Exact} (hplain : plainPower? base exponent = none)
    (hneg : exponent.isNegative = false)
    (hunraised : ∀ k, wholeExponent? exponent = some k → Unraised k base) (hbase : base.Firm b)
    (hexponent : exponent.Firm b) (hmeaning : (base.meaning b).power (exponent.meaning b) ≠ absent)
    (hraisable : Raisable b base exponent) : (power base exponent).Firm b := by
  have hbaseMeaning : base.meaning b ≠ absent := (isFinite_of_power hmeaning).1
  refine firm_power.mpr ⟨⟨hbase, ?_⟩, hexponent⟩
  obtain hfinite | ⟨-, k, hwhole⟩ := hraisable
  · exact hfinite
  · have hstays := hunraised k hwhole
    cases base with
    | power inner inside => exact hstays.elim
    | product c n d =>
      obtain ⟨m, hm, rfl, -⟩ := exists_natCast_of_wholeExponent? (b := b) hplain hneg hwhole
      rw [meaning_product] at hbaseMeaning
      obtain ⟨r, hr⟩ : c.meaning.IsFinite :=
        isFinite_ofExact (ne_absent_of_mul (ne_absent_of_mul hbaseMeaning).1).1
      have hvalue : c.value = .number r := ofExact_injective hr
      rw [Unraised, Coefficient.value_zpow c hm, hvalue, npow_number] at hstays
      cases hstays
    | _ => exact hbase.isFinite hbaseMeaning rfl (by rintro _ _ ⟨⟩)

/-- The last expression is firm if the plain ones before it are and have a power. -/
def FirmPower (b : Bindings Exact) (base exponent e : Expr Exact) : Prop :=
  base.Plain → exponent.Plain → base.Firm b → exponent.Firm b →
    (base.meaning b).power (exponent.meaning b) ≠ absent → Raisable b base exponent → e.Firm b

/-- The last product in the making has firm factors if the first has a meaning and plain factors that
are firm. -/
def FirmFraction (b : Bindings Exact) (f g : Fraction Exact) : Prop :=
  f.Has Plain → f.Has (Firm b) → f.meaning b ≠ absent → g.Has (Firm b)

/-- The expression is firm if the plain factors before it are and have a product. -/
def FirmProduct (b : Bindings Exact) (c : Coefficient Exact) (n d : List (Expr Exact))
    (e : Expr Exact) : Prop :=
  (∀ x ∈ n, x.Plain) → (∀ x ∈ d, x.Plain) → (∀ x ∈ n, x.Firm b) → (∀ x ∈ d, x.Firm b) →
    c.meaning * (n.map (meaning b)).prod * (d.map (meaning b)).prod⁻¹ ≠ absent → e.Firm b

/-- The last expression is firm if the first is and has a meaning. -/
def FirmResult (b : Bindings Exact) (e e' : Expr Exact) : Prop :=
  e.Firm b → e.meaning b ≠ absent → e'.Firm b

/-- Absorbing the power that a common base leaves keeps the factors of a product firm. -/
theorem firm_restore {f : Fraction Exact} {common : Fraction.Common Exact} {side : Side}
    {exponent factor : Expr Exact} (hkept : KeepsPower b common.base exponent factor)
    (hfirm : FirmPower b common.base exponent factor)
    (h : Fraction.common? f.denominator f.numerator = some common)
    (hcommon : f.meaning b ≤ (f.without common).meaning b *
      side.factor ((common.base.meaning b).power (exponent.meaning b)))
    (hplain : f.Has Plain) (hf : f.Has (Firm b)) (hmeaning : f.meaning b ≠ absent)
    (hexponentPlain : exponent.Plain) (hexponent : exponent.Firm b) :
    let restored := (Fraction.absorb side (f.without common) factor).value
    restored.Has Plain ∧ restored.Has (Firm b) ∧ restored.meaning b ≠ absent := by
  obtain ⟨hrestPlain, hbasePlain, -⟩ := hplain.without hereditary_plain.powerParts h
  obtain ⟨hrest, hbase, -⟩ := solid_common hf hmeaning h
  have hpower : (common.base.meaning b).power (exponent.meaning b) ≠ absent :=
    Side.ne_absent_of_factor (ne_absent_of_mul (ne_absent_of_le hcommon hmeaning)).2
  obtain ⟨hfactor, hfactorPlain⟩ := hkept hbasePlain hexponentPlain
  have hfactorFirm :=
    hfirm hbasePlain hexponentPlain hbase.firm hexponent hpower (.inl hbase.isFinite)
  exact ⟨hrestPlain.absorb (fun _ _ _ => hereditary_plain.factors) side _ hfactorPlain,
    hrest.absorb factors_firm side _ hfactorFirm,
    ne_absent_of_le (Fraction.meaning_restore hcommon hfactor) hmeaning⟩

/-- The rules make firm results of firm parts that are plain, wherever these have a meaning; those for
logarithms do so where they round nothing. -/
theorem firm_closed : ClosedButLogs
    (fun base exponent e => KeepsPower b base exponent e ∧ FirmPower b base exponent e)
    (fun f g => KeepsFraction b f g ∧ FirmFraction b f g)
    (fun c n d e => KeepsProduct b c n d e ∧ FirmProduct b c n d e)
    (fun e e' => KeepsMeaning b e e' ∧ FirmResult b e e') where
  plain h := ⟨sound_closed.plain h, fun _ _ hbase hexponent _ _ => firm_plainPower h hbase hexponent⟩
  relocate {base exponent positive moved e} hplain hneg hpositive hmoved he := by
    refine ⟨sound_closed.relocate hplain hneg hpositive.1 hmoved.1 he.1,
      fun hbasePlain _ hbase hexponent hmeaning hraisable => ?_⟩
    -- no negative exponent is multiplied into a base
    have hfinite : (base.meaning b).IsFinite := by
      obtain h | ⟨h, -⟩ := hraisable
      · exact h
      · rw [hneg] at h
        cases h
    obtain ⟨⟨hkept, hpositivePlain⟩, hpositive⟩ := hpositive
    have hopposite : exponent.neg.Solid b := .neg ⟨hexponent, (isFinite_of_power hmeaning).2⟩
    have hpower : (base.meaning b).power (positive.meaning b) ≠ absent := by
      refine ne_absent_of_le (power_mono le_rfl hkept) ?_
      rw [meaning_neg, power_neg]
      exact inv_eq_absent.not.mpr hmeaning
    obtain ⟨hmovedMeaning, hmovedPlain⟩ := hmoved.1 hbasePlain hpositivePlain
    have hmovedFirm := hmoved.2 hbasePlain hpositivePlain hbase
      (hpositive hopposite.firm hopposite.isFinite.ne_absent) hpower (.inl hfinite)
    have hrelocated := ne_absent_of_le (meaning_relocate hkept hmovedMeaning) hmeaning
    exact he.2 (by simp) (by simpa using hmovedPlain) (by simp) (by simpa using hmovedFirm)
      (by simpa using hrelocated)
  nest {inner inside exponent folded e k} hplain hneg hwhole hfolded he := by
    refine ⟨sound_closed.nest hplain hneg hwhole hfolded.1 he.1,
      fun hbasePlain hexponentPlain hbase hexponent hmeaning _ => ?_⟩
    obtain ⟨hinnerPlain, hinsidePlain⟩ := hereditary_plain.power.mp hbasePlain
    obtain ⟨hinner, hinside⟩ := firm_power.mp hbase
    obtain ⟨hpower, hexponentFinite⟩ := isFinite_of_power hmeaning
    rw [meaning] at hpower
    have hproduct : inside.meaning b * exponent.meaning b ≠ absent :=
      ((isFinite_of_power hpower).2.mul hexponentFinite).ne_absent
    have hparts : ∀ x ∈ [inside, exponent], x.Plain := by simpa using ⟨hinsidePlain, hexponentPlain⟩
    obtain ⟨hfoldedMeaning, hfoldedPlain⟩ := hfolded.1 hparts (by simp)
    have hfoldedFirm := hfolded.2 hparts (by simp) (by simpa using ⟨hinside, hexponent⟩) (by simp)
      (by simpa using hproduct)
    have hnested := meaning_nest hplain hneg hwhole (by simpa using hfoldedMeaning)
    exact he.2 hinnerPlain hfoldedPlain hinner.firm hfoldedFirm (ne_absent_of_le hnested hmeaning)
      (.inl hinner.isFinite)
  spread {c n d n' d' exponent e k} hplain hneg hwhole hfinite hn hd he := by
    -- the factors may be infinite here, which only a whole exponent allows
    refine ⟨sound_closed.spread hplain hneg hwhole hfinite (hn.imp fun _ _ h => h.1)
      (hd.imp fun _ _ h => h.1) he.1, fun hbasePlain hexponentPlain hbase hexponent hmeaning _ => ?_⟩
    rw [real_of_wholeExponent? hwhole] at hn hd
    obtain ⟨m, hm, -, hexponentMeaning⟩ := exists_natCast_of_wholeExponent? (b := b) hplain hneg hwhole
    have hpowers {es es' : List (Expr Exact)}
        (hes : ∀ x ∈ es, x ∈ (product c n d).children ∧ x.Plain ∧ x.Firm b)
        (h : List.Forall₂ (fun x y => KeepsPower b x exponent y ∧ FirmPower b x exponent y) es es') :
        List.Forall₂ (fun x y => (x.meaning b).power (exponent.meaning b) ≤ y.meaning b ∧
          y.Plain ∧ y.Firm b) es es' := by
      refine ((List.forall₂_and_left _ _).mpr ⟨hes, h⟩).imp ?_
      rintro x y ⟨⟨hx, hxPlain, hxFirm⟩, hkept, hfirm⟩
      obtain ⟨hy, hyPlain⟩ := hkept hxPlain hexponentPlain
      refine ⟨hy, hyPlain, hfirm hxPlain hexponentPlain hxFirm hexponent ?_ (.inr ⟨hneg, k, hwhole⟩)⟩
      rw [hexponentMeaning]
      exact power_natCast_ne_absent
        (meaning_ne_absent_of_mem_children (isFinite_of_power hmeaning).1 hx) hm
    obtain ⟨abovePlain, belowPlain⟩ := hereditary_plain.factors hbasePlain
    obtain ⟨above, below⟩ := firm_product.mp hbase
    have hn' := hpowers
      (fun x hx => ⟨List.mem_append_left _ hx, abovePlain x hx, above x hx⟩) hn
    have hd' := hpowers
      (fun x hx => ⟨List.mem_append_right _ hx, belowPlain x hx, below x hx⟩) hd
    have hspread := meaning_spread hplain hneg hwhole (hn'.imp fun _ _ h => h.1)
      (hd'.imp fun _ _ h => h.1)
    exact he.2 (forall_of_forall₂ hn' fun _ _ _ h => h.2.1) (forall_of_forall₂ hd' fun _ _ _ h => h.2.1)
      (forall_of_forall₂ hn' fun _ _ _ h => h.2.2) (forall_of_forall₂ hd' fun _ _ _ h => h.2.2)
      (ne_absent_of_le hspread hmeaning)
  remain hplain hneg hunraised :=
    ⟨sound_closed.remain hplain hneg hunraised, fun _ _ => firm_remain hplain hneg hunraised⟩
  done h := ⟨sound_closed.done h, fun _ hf _ => hf⟩
  cancelAbove h hu hl hpos hfactor hg := by
    refine ⟨sound_closed.cancelAbove h hu hl hpos hfactor.1 hg.1, fun hplain hf hmeaning => ?_⟩
    obtain ⟨hrestPlain, hrest, hne⟩ := firm_restore hfactor.1 hfactor.2 h
      (Fraction.meaning_common_above h hu hl) hplain hf hmeaning (hereditary_plain.real _)
      (firm_number _)
    exact hg.2 hrestPlain hrest hne
  cancelBelow h hu hl hneg hfactor hg := by
    refine ⟨sound_closed.cancelBelow h hu hl hneg hfactor.1 hg.1, fun hplain hf hmeaning => ?_⟩
    obtain ⟨hrestPlain, hrest, hne⟩ := firm_restore hfactor.1 hfactor.2 h
      (Fraction.meaning_common_below h hu hl) hplain hf hmeaning (hereditary_plain.real _)
      (firm_number _)
    exact hg.2 hrestPlain hrest hne
  cancelBoth h hu hl hpos hneg hg := by
    refine ⟨sound_closed.cancelBoth h hu hl hpos hneg hg.1, fun hplain hf hmeaning => ?_⟩
    exact hg.2 (hplain.without hereditary_plain.powerParts h).1 (solid_common hf hmeaning h).1
      (ne_absent_of_le (Fraction.meaning_without h hu hl hpos hneg) hmeaning)
  cancelSymbolic {f g common factor} h hsymbolic hfactor hg := by
    refine ⟨sound_closed.cancelSymbolic h hsymbolic hfactor.1 hg.1, fun hplain hf hmeaning => ?_⟩
    obtain ⟨-, -, hupperPlain, hlowerPlain⟩ := hplain.without hereditary_plain.powerParts h
    obtain ⟨-, -, hupper, hlower⟩ := solid_common hf hmeaning h
    have hdifference : ∀ x ∈ [common.upper, common.lower.neg], x.Solid b := by
      simpa using ⟨hupper, hlower.neg⟩
    obtain ⟨hrestPlain, hrest, hne⟩ := firm_restore hfactor.1 hfactor.2 h
      (Fraction.meaning_common_symbolic h) hplain hf hmeaning
      (hereditary_plain.difference hupperPlain hlowerPlain) (solid_sumRule hdifference).firm
    exact hg.2 hrestPlain hrest hne
  multiply {c n d f} hf := by
    refine ⟨sound_closed.multiply hf.1, fun hnPlain hdPlain hn hd hmeaning => ?_⟩
    have hplain := Fraction.Has.gathered (fun _ _ _ => hereditary_plain.factors) c hnPlain hdPlain
    have hgathered := ne_absent_of_le (Fraction.meaning_gather c n d) hmeaning
    obtain ⟨hkept, hfPlain⟩ := hf.1 hplain
    exact firm_finish (hf.2 hplain (.gathered factors_firm c hn hd) hgathered) hfPlain
      (ne_absent_of_le hkept hgathered)
  sum {addends addends'} h := by
    refine ⟨sound_closed.sum (h.imp fun _ _ h => h.1), fun hsum _ => (solid_sumRule ?_).firm⟩
    refine forall_of_forall₂ h fun a ha a' h => ?_
    have hsolid := firm_sum.mp hsum a ha
    exact ⟨h.2 hsolid.firm hsolid.isFinite.ne_absent, hsolid.isFinite.mono h.1.1⟩
  fraction {c n d n' d' e} hn hd he := by
    have hn' := hn.imp fun _ _ h => h.1
    have hd' := hd.imp fun _ _ h => h.1
    refine ⟨sound_closed.fraction hn' hd' he.1, fun hproduct hmeaning => ?_⟩
    obtain ⟨habove, hbelow⟩ := firm_product.mp hproduct
    have hkept := meaning_product_le (c := c) (hn'.imp fun _ _ h => h.1) (hd'.imp fun _ _ h => h.1)
    refine he.2 (forall_of_forall₂ hn' fun _ _ _ h => h.2) (forall_of_forall₂ hd' fun _ _ _ h => h.2)
      (forall_of_forall₂ hn fun a ha _ h => h.2 (habove a ha) ?_)
      (forall_of_forall₂ hd fun a ha _ h => h.2 (hbelow a ha) ?_) (ne_absent_of_le hkept hmeaning)
    · exact meaning_ne_absent_of_mem_children hmeaning (List.mem_append_left _ ha)
    · exact meaning_ne_absent_of_mem_children hmeaning (List.mem_append_right _ ha)
  raise {base exponent base' exponent' e} hbase hexponent he := by
    refine ⟨sound_closed.raise hbase.1 hexponent.1 he.1, fun hpower hmeaning => ?_⟩
    obtain ⟨hsolid, hfirm⟩ := firm_power.mp hpower
    rw [meaning] at hmeaning
    have hkept := power_mono hbase.1.1 hexponent.1.1
    exact he.2 hbase.1.2 hexponent.1.2 (hbase.2 hsolid.firm hsolid.isFinite.ne_absent)
      (hexponent.2 hfirm (isFinite_of_power hmeaning).2.ne_absent) (ne_absent_of_le hkept hmeaning)
      (.inl (hsolid.isFinite.mono hbase.1.1))
  trig {f body body'} hbody := by
    refine ⟨sound_closed.trig hbody.1, fun htrig hmeaning => ?_⟩
    rw [meaning] at hmeaning
    exact firm_trigRule (hbody.2 (firm_trig.mp htrig) (isFinite_of_apply hmeaning).1.ne_absent)
  var name := ⟨sound_closed.var name, fun h _ => h⟩
  number v := ⟨sound_closed.number v, fun h _ => h⟩

/-- The rule for logarithms keeps what they mean and makes firm results of firm parts, wherever these have a
logarithm that it does not round. -/
theorem firm_log_step {base body base' body' : Expr Exact}
    (hbase : KeepsMeaning b base base' ∧ FirmResult b base base')
    (hbody : KeepsMeaning b body body' ∧ FirmResult b body body')
    (hunrounded : (Operation.log base' body').Unrounded) :
    KeepsMeaning b (.log base body) (logRule base' body').value ∧
      FirmResult b (.log base body) (logRule base' body').value := by
  refine ⟨hbase.1.log hbody.1 hunrounded, fun hlog hmeaning => ?_⟩
  obtain ⟨hbaseFirm, hbodyFirm⟩ := firm_log.mp hlog
  rw [meaning] at hmeaning
  obtain ⟨hbaseFinite, hbodyFinite, -⟩ := isFinite_of_log hmeaning
  exact firm_logRule (hbase.2 hbaseFirm hbaseFinite.ne_absent)
    (hbody.2 hbodyFirm hbodyFinite.ne_absent)

/-- The power rule makes a firm expression of a solid base and a firm exponent that are plain and have a power,
as long as it rounds no logarithm. -/
theorem firm_powerRule {fuel : ℕ} {base exponent e : Expr Exact}
    (h : (powerRule fuel base exponent).Returns e) (hunrounded : (Call.power base exponent).Unrounded)
    (hbasePlain : base.Plain) (hexponentPlain : exponent.Plain) (hbase : base.Solid b)
    (hexponent : exponent.Firm b) (hmeaning : (base.meaning b).power (exponent.meaning b) ≠ absent) :
    e.Firm b :=
  (((firm_closed.throughout firm_log_step).power_returns h).2 hunrounded).2 hbasePlain hexponentPlain
    hbase.firm hexponent hmeaning (.inl hbase.isFinite)

/-- Simplification makes a firm expression of a firm one that has a meaning, as long as it rounds no
logarithm. -/
theorem firm_simplify {fuel : ℕ} {e e' : Expr Exact} (h : (simplify fuel e).Returns e')
    (hunrounded : (Call.simplify e).Unrounded) (hfirm : e.Firm b) (hmeaning : e.meaning b ≠ absent) :
    e'.Firm b :=
  (((firm_closed.throughout firm_log_step).simplify_returns h).2 hunrounded).2 hfirm hmeaning

end SymbolicAlgebra.Reduction
