import SymbolicAlgebra.Proofs.Exact.Firm
import SymbolicAlgebra.Proofs.Reduction.Merge

/-!
# Combination keeps what expressions mean

Terms that scale the same are added by adding their coefficients, and powers of the same base are
multiplied by adding their exponents. Both keep what an expression means as long as no coefficient is
dropped and no logarithm is rounded on the way, and so they keep sums and the bases of powers finite.
-/

namespace SymbolicAlgebra.Reduction

open Exact Projective SymbolicAlgebra.Expr

variable {b : Bindings Exact}

/-- What terms mean all together. -/
noncomputable def termsMeaning (b : Bindings Exact) (terms : List (Coefficient Exact × Expr Exact)) :
    Projective :=
  (terms.map fun term => term.1.meaning * term.2.meaning b).sum

/-- Multiples of the same are added by adding the coefficients. -/
theorem meaning_mul_add_le (c c' : Coefficient Exact) (p : Projective) :
    c.meaning * p + c'.meaning * p ≤ (c + c').meaning * p := by
  rw [Coefficient.meaning_add]
  cases hc : c.value with
  | missing =>
    rw [Coefficient.meaning, hc, ofExact_missing, absent_mul, absent_add]
    exact absent_le
  | number r =>
    cases hc' : c'.value with
    | missing =>
      rw [Coefficient.meaning, Coefficient.meaning, hc', ofExact_missing, absent_mul, add_absent]
      exact absent_le
    | number s =>
      rw [Coefficient.meaning, Coefficient.meaning, hc, hc']
      exact finite_mul_add_le r s p

/-- Adding a term adds what it means. -/
theorem termsMeaning_addTerm (c : Coefficient Exact) (key : Expr Exact)
    (terms : List (Coefficient Exact × Expr Exact)) :
    termsMeaning b terms + c.meaning * key.meaning b ≤ termsMeaning b (addTerm c key terms) := by
  induction terms with
  | nil => simp [termsMeaning, addTerm]
  | cons term terms ih =>
    obtain ⟨c₀, key₀⟩ := term
    rw [addTerm]
    split
    · rename_i hkey
      simp only [termsMeaning, List.map_cons, List.sum_cons]
      rw [← meaning_eq_of_beq hkey, add_right_comm]
      exact add_le_add_left (meaning_mul_add_le _ _ _) _
    · simp only [termsMeaning, List.map_cons, List.sum_cons] at ih ⊢
      rw [add_assoc]
      exact add_le_add_right ih _

/-- The terms of addends mean what the addends mean. -/
theorem sum_le_likeTerms (addends : List (Expr Exact)) :
    (addends.map (meaning b)).sum ≤ termsMeaning b (likeTerms addends) := by
  have hfold (terms : List (Coefficient Exact × Expr Exact)) :
      termsMeaning b terms + (addends.map (meaning b)).sum ≤ termsMeaning b
        (addends.foldl (fun terms e => addTerm e.scaleParts.1 e.scaleParts.2 terms) terms) := by
    induction addends generalizing terms with
    | nil => simp
    | cons e addends ih =>
      rw [List.map_cons, List.sum_cons, ← add_assoc, ← meaning_scaleParts e]
      exact (add_le_add_left (termsMeaning_addTerm _ _ _) _).trans (ih _)
  have hempty := hfold []
  rwa [termsMeaning, List.map_nil, List.sum_nil, zero_add] at hempty

/-- Combining addends keeps what they mean if none of them scales what has a coefficient. -/
theorem meaning_mergeAddends {addends : List (Expr Exact)}
    (h : ∀ e ∈ addends, e.scaleParts.2.Unscaled) :
    (addends.map (meaning b)).sum ≤ ((mergeAddends addends).value.map (meaning b)).sum := by
  refine (sum_le_likeTerms addends).trans ?_
  rw [termsMeaning, mergeAddends, List.map_map]
  refine List.Forall₂.sum_le_sum ?_
  rw [List.forall₂_map_left_iff, List.forall₂_map_right_iff, List.forall₂_same]
  have hterms := forall_likeTerms (Q := fun _ key => key.Unscaled) (fun _ _ _ _ h _ => h) h
  exact fun term hterm => meaning_ofScaleParts _ (hterms term hterm)

/-- What the powers of a base to some exponents mean all together. -/
noncomputable def powersMeaning (b : Bindings Exact) (base : Expr Exact)
    (exponents : List (Expr Exact)) : Projective :=
  (exponents.map fun x => (base.meaning b).power (x.meaning b)).prod

/-- What groups of factors mean all together. -/
noncomputable def groupsMeaning (b : Bindings Exact)
    (groups : List (Expr Exact × List (Expr Exact))) : Projective :=
  (groups.map fun group => powersMeaning b group.1 group.2).prod

/-- Adding an exponent to its base multiplies by the power. -/
theorem groupsMeaning_addExponent (base exponent : Expr Exact)
    (groups : List (Expr Exact × List (Expr Exact))) :
    groupsMeaning b (addExponent base exponent groups) =
      groupsMeaning b groups * (base.meaning b).power (exponent.meaning b) := by
  induction groups with
  | nil => simp [groupsMeaning, powersMeaning, addExponent]
  | cons group groups ih =>
    obtain ⟨base₀, exponents⟩ := group
    rw [addExponent]
    split
    · rename_i hbase
      simp only [groupsMeaning, powersMeaning, List.map_cons, List.prod_cons, List.map_append,
        List.prod_append, List.map_nil, List.prod_nil, mul_one]
      rw [meaning_eq_of_beq hbase, mul_right_comm]
    · simp only [groupsMeaning, List.map_cons, List.prod_cons] at ih ⊢
      rw [ih, mul_assoc]

/-- The groups of factors mean what the factors mean. -/
theorem prod_eq_likeFactors (factors : List (Expr Exact)) :
    (factors.map (meaning b)).prod = groupsMeaning b (likeFactors factors) := by
  have hfold (groups : List (Expr Exact × List (Expr Exact))) :
      groupsMeaning b (factors.foldl
        (fun groups e => addExponent e.powerParts.1 e.powerParts.2 groups) groups) =
        groupsMeaning b groups * (factors.map (meaning b)).prod := by
    induction factors generalizing groups with
    | nil => simp
    | cons e factors ih =>
      rw [List.foldl_cons, ih, groupsMeaning_addExponent, power_powerParts, List.map_cons,
        List.prod_cons, mul_assoc]
  have hempty := hfold []
  rw [likeFactors, hempty]
  simp [groupsMeaning]

/-- The powers of a base mean its power to the sum of the exponents, if there are any. -/
theorem powersMeaning_le (base : Expr Exact) {exponents : List (Expr Exact)} (h : exponents ≠ []) :
    powersMeaning b base exponents ≤
      (base.meaning b).power (exponents.map (meaning b)).sum := by
  induction exponents with
  | nil => exact (h rfl).elim
  | cons x exponents ih =>
    cases exponents with
    | nil => simp [powersMeaning]
    | cons y exponents =>
      rw [powersMeaning, List.map_cons, List.prod_cons, List.map_cons (f := meaning b),
        List.sum_cons]
      exact (mul_le_mul_right (ih (by simp)) _).trans (power_mul_power_le _ _ _)

/-- Combining the powers of one base keeps what they mean, if there are plain parts to combine and no
logarithm is rounded. -/
theorem meaning_gatherPower {fuel : ℕ} {base e : Expr Exact} {exponents : List (Expr Exact)}
    (hne : exponents ≠ []) (h : (gatherPower fuel base exponents).Returns e)
    (hplain : 2 ≤ exponents.length → base.Plain ∧ ∀ x ∈ exponents, x.Plain)
    (hunrounded : 2 ≤ exponents.length → (Call.power base (sumRule exponents).value).Unrounded) :
    powersMeaning b base exponents ≤ e.meaning b := by
  cases gatherOutcome hne h with
  | bare hone =>
    rw [Exact.one_eq] at hone
    simp [powersMeaning, meaning_of_isReal hone]
  | single => simp [powersMeaning, meaning]
  | several hlength h =>
    obtain ⟨hbase, hexponents⟩ := hplain hlength
    refine (powersMeaning_le base hne).trans ((power_mono le_rfl (meaning_sumRule _)).trans ?_)
    exact meaning_powerRule hbase (hereditary_plain.sumRule hexponents) h (hunrounded hlength)

/-- No logarithm is rounded where these factors are combined. -/
def UnroundedGroups (factors : List (Expr Exact)) : Prop :=
  ∀ group ∈ likeFactors factors, 2 ≤ group.2.length →
    (Call.power group.1 (sumRule group.2).value).Unrounded

/-- Combining factors keeps what they mean, if there are plain parts to combine and no logarithm is
rounded. -/
theorem meaning_mergeFactors {fuel : ℕ} {factors es : List (Expr Exact)}
    (h : (mergeFactors fuel factors).Returns es) (hplain : PlainGroups factors)
    (hunrounded : UnroundedGroups factors) :
    (factors.map (meaning b)).prod ≤ (es.map (meaning b)).prod := by
  rw [prod_eq_likeFactors, groupsMeaning]
  refine List.Forall₂.prod_le_prod' ?_
  rw [List.forall₂_map_left_iff, List.forall₂_map_right_iff]
  exact forall₂_imp_of_mem (returns_mergeFactors.mp h) fun group hgroup _ he =>
    meaning_gatherPower (ne_nil_of_mem_likeFactors hgroup) he (hplain group hgroup)
      (hunrounded group hgroup)

/-- Combination drops no coefficient of the expression and rounds no logarithm. -/
structure Faithful (fuel : ℕ) (e : Expr Exact) : Prop where
  lossless : Lossless fuel e
  unrounded : ∀ op, MergePerforms fuel e op → op.Unrounded

/-- Combination is faithful to the parts of what it is faithful to. -/
theorem Faithful.child {fuel : ℕ} {e a : Expr Exact} (h : Faithful fuel e) (ha : a ∈ e.children) :
    Faithful fuel a :=
  ⟨h.lossless.child ha, fun op hop => h.unrounded op (.child ha hop)⟩

/-- No logarithm is rounded where the factors of a product are combined that combination is faithful to. -/
theorem Faithful.groups {fuel : ℕ} {c : Coefficient Exact} {n d es es' : List (Expr Exact)}
    (h : Faithful fuel (product c n d)) (hside : es = n ∨ es = d)
    (hmerged : (mergeList fuel es).Returns es') : UnroundedGroups es' :=
  fun _ hgroup htwo _ op hreach hop => h.unrounded op (.raise hside hmerged hgroup htwo hreach hop)

/-- Combination keeps what an expression means if it is faithful to it. -/
theorem meaning_merge {fuel : ℕ} (e : Expr Exact) {e' : Expr Exact}
    (h : (merge fuel e).Returns e') (hfaithful : Faithful fuel e) :
    e.meaning b ≤ e'.meaning b := by
  refine merge_induction (r := fun e e' => Faithful fuel e → e.meaning b ≤ e'.meaning b)
    (fun e e' step hfaithful => ?_) e h hfaithful
  have hnode := hfaithful.lossless.root
  have all {es es' : List (Expr Exact)} (hes : ∀ a ∈ es, a ∈ e.children)
      (h : List.Forall₂ (fun a a' => (merge fuel a).Returns a' ∧
        (Faithful fuel a → a.meaning b ≤ a'.meaning b)) es es') :
      (mergeList fuel es).Returns es' ∧
        List.Forall₂ (fun a a' => a.meaning b ≤ a'.meaning b) es es' :=
    ⟨returns_mergeList.mpr (h.imp fun _ _ h => h.1),
      forall₂_imp_of_mem h fun a ha _ h => h.2 (hfaithful.child (hes a ha))⟩
  cases step with
  | @sum as merged has =>
    obtain ⟨hmerged, hbelow⟩ := all (fun a ha => ha) has
    rw [meaning_sum, meaning_sum]
    exact (List.Forall₂.sum_le_sum (map_le_map hbelow)).trans
      (meaning_mergeAddends (hnode merged hmerged))
  | @product c n d n' d' n'' d'' hn hd hn' hd' =>
    obtain ⟨hmergedAbove, habove⟩ := all (fun a ha => List.mem_append_left d ha) hn
    obtain ⟨hmergedBelow, hbelow⟩ := all (fun a ha => List.mem_append_right n ha) hd
    rw [meaning_product, meaning_product]
    refine mul_le_mul' (mul_le_mul_right ?_ _) (inv_mono ?_)
    · exact (List.Forall₂.prod_le_prod' (map_le_map habove)).trans
        (meaning_mergeFactors hn' (hnode.1 n' hmergedAbove) (hfaithful.groups (.inl rfl) hmergedAbove))
    · exact (List.Forall₂.prod_le_prod' (map_le_map hbelow)).trans
        (meaning_mergeFactors hd' (hnode.2 d' hmergedBelow) (hfaithful.groups (.inr rfl) hmergedBelow))
  | power hbase hexponent =>
    rw [meaning, meaning]
    exact power_mono (hbase.2 (hfaithful.child (by simp [children])))
      (hexponent.2 (hfaithful.child (by simp [children])))
  | log hbase hbody =>
    rw [meaning, meaning]
    exact log_mono (hbase.2 (hfaithful.child (by simp [children])))
      (hbody.2 (hfaithful.child (by simp [children])))
  | trig hbody =>
    rw [meaning, meaning]
    exact apply_mono (hbody.2 (hfaithful.child (by simp [children])))
  | var => exact le_refl _
  | number => exact le_refl _

/-- Combination keeps products and makes no other expression one. -/
theorem isProduct_merge {fuel : ℕ} {e e' : Expr Exact} (h : (merge fuel e).Returns e') :
    e'.isProduct = e.isProduct := by
  cases mergeStep h <;> rfl

/-- Combining firm factors, none of them a product, makes firm ones. -/
theorem firm_mergeFactors {fuel : ℕ} {factors es : List (Expr Exact)}
    (h : (mergeFactors fuel factors).Returns es) (hplain : PlainGroups factors)
    (hunrounded : UnroundedGroups factors)
    (hfactors : ∀ e ∈ factors, e.Firm b ∧ e.isProduct = false)
    (hmeaning : (factors.map (meaning b)).prod ≠ absent) : ∀ e ∈ es, e.Firm b := by
  have hgroups := forall_likeFactors (K := Solid b) fun e he =>
    (hfactors e he).1.powerParts (ne_absent_of_mem_prod hmeaning (List.mem_map_of_mem he))
      (hfactors e he).2
  rw [prod_eq_likeFactors, groupsMeaning] at hmeaning
  refine forall_of_forall₂ (returns_mergeFactors.mp h) fun group hgroup e he => ?_
  have hpowers := ne_absent_of_mem_prod hmeaning (List.mem_map_of_mem hgroup)
  obtain ⟨hne, hbase, hexponents⟩ := hgroups group hgroup
  replace hplain := hplain group hgroup
  replace hunrounded := hunrounded group hgroup
  have outcome := gatherOutcome hne he
  obtain ⟨base, exponents⟩ := group
  cases outcome with
  | bare _ => exact hbase.firm
  | single => exact firm_power.mpr ⟨hbase, (List.forall_mem_singleton.mp hexponents).firm⟩
  | several hlength h =>
    obtain ⟨hbasePlain, hexponentsPlain⟩ := hplain hlength
    have hgathered :=
      (powersMeaning_le (b := b) base hne).trans (power_mono le_rfl (meaning_sumRule exponents))
    exact firm_powerRule h (hunrounded hlength) hbasePlain (hereditary_plain.sumRule hexponentsPlain)
      hbase (solid_sumRule hexponents).firm (ne_absent_of_le hgathered hpowers)

/-- The factors of a normal product are no products. -/
theorem isProduct_factor {c : Coefficient Exact} {n d : List (Expr Exact)}
    (h : (product c n d).Normal) : ∀ x ∈ n ++ d, x.isProduct = false := by
  obtain ⟨hnode, -⟩ := normal_product.mp h
  rw [List.forall_mem_append]
  refine ⟨fun x hx => (hnode.factors x hx).1, fun x hx => ?_⟩
  obtain hd | rfl := hnode.divisors
  · exact (hd x hx).1
  · obtain rfl := List.mem_singleton.mp hx
    rfl

/-- Combination makes a firm expression of a firm one in normal form if it is faithful to it. -/
theorem firm_merge {fuel : ℕ} (e : Expr Exact) {e' : Expr Exact} (h : (merge fuel e).Returns e')
    (hfaithful : Faithful fuel e) (hnormal : e.Normal) (hfirm : e.Firm b)
    (hmeaning : e.meaning b ≠ absent) : e'.Firm b := by
  refine merge_induction (r := fun e e' => Faithful fuel e → e.Normal → e.Firm b →
    e.meaning b ≠ absent → e.meaning b ≤ e'.meaning b → e'.Firm b)
    (fun e e' step hfaithful hnormal hfirm hmeaning hkept => ?_) e h hfaithful hnormal hfirm hmeaning
    (meaning_merge e h hfaithful)
  have hnode := hfaithful.lossless.root
  have below {a a' : Expr Exact} (ha : a ∈ e.children) (h : (merge fuel a).Returns a' ∧
      (Faithful fuel a → a.Normal → a.Firm b → a.meaning b ≠ absent →
        a.meaning b ≤ a'.meaning b → a'.Firm b)) : a.meaning b ≤ a'.meaning b ∧ a'.Firm b := by
    have hkept := meaning_merge (b := b) a h.1 (hfaithful.child ha)
    exact ⟨hkept, h.2 (hfaithful.child ha) (hnormal.child ha) (hfirm.child ha)
      (meaning_ne_absent_of_mem_children hmeaning ha) hkept⟩
  cases step with
  | @sum as as' has =>
    have hmerged : ∀ a ∈ as', a.Firm b :=
      forall_of_forall₂ has fun a ha a' h => (below ha h).2
    have hterms := forall_likeTerms (Q := fun _ key => key.Firm b) (fun _ _ _ _ h _ => h)
      fun a ha => (hmerged a ha).scaleParts
    have hfinite : ((sum as).meaning b).IsFinite := hfirm.root
    refine everywhere_iff.mpr ⟨hfinite.mono hkept, ?_⟩
    rw [children, mergeAddends, List.forall_mem_map]
    exact fun term hterm => (hterms term hterm).ofScaleParts _
  | @product c n d n' d' n'' d'' hn hd hn' hd' =>
    have single := isProduct_factor hnormal
    have side {es es' es'' : List (Expr Exact)} (hside : es = n ∨ es = d)
        (hes : ∀ a ∈ es, a ∈ n ++ d) (h : List.Forall₂ (fun a a' => (merge fuel a).Returns a' ∧
          (Faithful fuel a → a.Normal → a.Firm b → a.meaning b ≠ absent →
            a.meaning b ≤ a'.meaning b → a'.Firm b)) es es')
        (hes'' : (mergeFactors fuel es').Returns es'')
        (hplain : ∀ merged, (mergeList fuel es).Returns merged → PlainGroups merged)
        (hprod : (es.map (meaning b)).prod ≠ absent) : ∀ x ∈ es'', x.Firm b := by
      have hparts := (List.forall₂_and_left _ _).mpr ⟨hes, h⟩
      have hmerged := returns_mergeList.mpr (h.imp fun _ _ h => h.1)
      refine firm_mergeFactors hes'' (hplain es' hmerged) (hfaithful.groups hside hmerged) ?_ ?_
      · refine forall_of_forall₂ h fun a ha a' h => ⟨(below (hes a ha) h).2, ?_⟩
        rw [isProduct_merge h.1]
        exact single a (hes a ha)
      · exact ne_absent_of_le (List.Forall₂.prod_le_prod'
          (map_le_map (hparts.imp fun _ _ h => (below h.1 h.2).1))) hprod
    rw [meaning_product] at hmeaning
    obtain ⟨habove, hbelow⟩ := ne_absent_of_mul hmeaning
    exact firm_product.mpr
      ⟨side (.inl rfl) (fun a ha => List.mem_append_left d ha) hn hn' hnode.1 (ne_absent_of_mul habove).2,
        side (.inr rfl) (fun a ha => List.mem_append_right n ha) hd hd' hnode.2
          (inv_eq_absent.not.mp hbelow)⟩
  | power hbase hexponent =>
    obtain ⟨hbaseKept, hbaseFirm⟩ := below (by simp [children]) hbase
    exact firm_power.mpr ⟨⟨hbaseFirm, (firm_power.mp hfirm).1.isFinite.mono hbaseKept⟩,
      (below (by simp [children]) hexponent).2⟩
  | log hbase hbody =>
    exact firm_log.mpr ⟨(below (by simp [children]) hbase).2, (below (by simp [children]) hbody).2⟩
  | trig hbody => exact firm_trig.mpr (below (by simp [children]) hbody).2
  | var => exact hfirm
  | number => exact hfirm

end SymbolicAlgebra.Reduction
