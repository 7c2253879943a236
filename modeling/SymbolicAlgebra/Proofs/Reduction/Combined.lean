import SymbolicAlgebra.Proofs.Reduction.Restored
import SymbolicAlgebra.Proofs.Reduction.Unlike

/-!
# Nothing left to combine

The combining pass gives back a stable expression in which there is nothing to combine. Addends among
which there is something to combine are combined by one pass: once they are added up again, what they
scale is different.
-/

namespace SymbolicAlgebra.Reduction

open SymbolicAlgebra.Expr

variable {α : Type} [Scalar α]

/-- There is nothing to combine in a sum of different terms in which there is nothing to combine. -/
theorem unlike_sum {as : List (Expr α)} :
    Unlike (.sum as) ↔ UnlikeTerms as ∧ ∀ a ∈ as, Unlike a := everywhere_iff

/-- There is nothing to combine in a product of powers of different bases in which there is nothing to
combine. -/
theorem unlike_product {c : Coefficient α} {n d : List (Expr α)} :
    Unlike (.product c n d) ↔
      (UnlikeFactors n ∧ UnlikeFactors d) ∧ (∀ e ∈ n, Unlike e) ∧ ∀ e ∈ d, Unlike e := by
  rw [Unlike, everywhere_iff]
  simp only [children, List.forall_mem_append]
  rfl

/-- There is nothing to combine in a number. -/
theorem unlike_number (v : Number α) : Unlike (.number v) := everywhere_of_leaf rfl trivial

/-- There is nothing to combine in a variable. -/
theorem unlike_var (name : String) : Unlike (.var name : Expr α) := everywhere_of_leaf rfl trivial

/-- A term that scales something new is put at the end. -/
theorem addTerm_of_unlike {c : Coefficient α} {key : Expr α} {terms : List (Coefficient α × Expr α)}
    (h : ∀ term ∈ terms, (term.2 == key) = false) : addTerm c key terms = terms ++ [(c, key)] := by
  induction terms with
  | nil => rfl
  | cons term terms ih =>
    obtain ⟨c₀, key₀⟩ := term
    rw [List.forall_mem_cons] at h
    rw [addTerm, h.1, if_neg Bool.false_ne_true, ih h.2, List.cons_append]

/-- An exponent of a new base makes a group at the end. -/
theorem addExponent_of_unlike {base exponent : Expr α} {groups : List (Expr α × List (Expr α))}
    (h : ∀ group ∈ groups, (group.1 == base) = false) :
    addExponent base exponent groups = groups ++ [(base, [exponent])] := by
  induction groups with
  | nil => rfl
  | cons group groups ih =>
    obtain ⟨base₀, exponents⟩ := group
    rw [List.forall_mem_cons] at h
    rw [addExponent, h.1, if_neg Bool.false_ne_true, ih h.2, List.cons_append]

/-- Addends that scale different expressions are terms of their own. -/
theorem likeTerms_of_unlike {as : List (Expr α)} (h : UnlikeTerms as) :
    likeTerms as = as.map scaleParts := by
  induction as using List.reverseRecOn with
  | nil => rfl
  | append_singleton as a ih =>
    obtain ⟨has, -, hlast⟩ := List.pairwise_append.mp h
    have hnew : ∀ term ∈ as.map scaleParts, (term.2 == a.scaleParts.2) = false := by
      simpa using hlast
    rw [likeTerms_append_singleton, ih has, addTerm_of_unlike hnew, List.map_append,
      List.map_singleton]

/-- Factors that are powers of different bases are groups of their own. -/
theorem likeFactors_of_unlike {es : List (Expr α)} (h : UnlikeFactors es) :
    likeFactors es = es.map fun e => (e.powerParts.1, [e.powerParts.2]) := by
  induction es using List.reverseRecOn with
  | nil => rfl
  | append_singleton es e ih =>
    obtain ⟨hes, -, hlast⟩ := List.pairwise_append.mp h
    have hnew : ∀ group ∈ es.map (fun e => (e.powerParts.1, [e.powerParts.2])),
        (group.1 == e.powerParts.1) = false := by
      simpa using hlast
    rw [likeFactors_append_singleton, ih hes, addExponent_of_unlike hnew, List.map_append,
      List.map_singleton]

/-- The terms that addends are combined to scale different expressions. -/
theorem pairwise_likeTerms (as : List (Expr α)) :
    (likeTerms as).Pairwise fun term term' => (term.2 == term'.2) = false := by
  suffices h : ((likeTerms as).map Prod.snd).Pairwise fun key key' => (key == key') = false from
    List.pairwise_map.mp h
  induction as using List.reverseRecOn with
  | nil => exact .nil
  | append_singleton as a ih =>
    rw [likeTerms_append_singleton]
    obtain ⟨hnew, hunlike⟩ | ⟨-, hold⟩ := addTerm_cases a.scaleParts.1 a.scaleParts.2 (likeTerms as)
    · rw [hnew, List.map_append, List.pairwise_append]
      refine ⟨ih, List.pairwise_singleton _ _, ?_⟩
      intro key hkey x hx
      obtain rfl := List.mem_singleton.mp hx
      obtain ⟨term, hterm, rfl⟩ := List.mem_map.mp hkey
      exact hunlike term hterm
    · rw [hold]
      exact ih

/-- There is nothing to combine in what an expression scales. -/
theorem unlike_scaleParts {e : Expr α} (h : Unlike e) : Unlike e.scaleParts.2 := by
  fun_cases scaleParts e with
  | case1 v => exact unlike_number _
  | case2 c x => exact (unlike_product.mp h).2.1 x List.mem_cons_self
  | case3 c n d _ => exact unlike_product.mpr (unlike_product.mp h)
  | case4 _ _ _ _ => exact h

/-- There is nothing to combine in an expression times a coefficient if there is not without it. -/
theorem unlike_ofScaleParts (c : Coefficient α) {key : Expr α} (h : Unlike key) :
    Unlike (ofScaleParts c key) := by
  fun_cases ofScaleParts c key with
  | case1 _ => exact unlike_number _
  | case2 _ _ => exact unlike_number _
  | case3 _ _ n d => exact unlike_product.mpr (unlike_product.mp h)
  | case4 _ _ => exact h
  | case5 _ _ _ _ =>
    exact unlike_product.mpr ⟨⟨List.pairwise_singleton _ _, .nil⟩, by simpa using h, by simp⟩

/-- A product that is no single factor scales the product without its coefficient. -/
theorem scaleParts_product {n d : List (Expr α)} (h : ∀ e, n = [e] → d = [] → False)
    (c : Coefficient α) : (product c n d).scaleParts = (c, .product .one n d) := by
  rcases n with _ | ⟨e, _ | ⟨e', n⟩⟩
  · rfl
  · cases d with
    | nil => exact (h e rfl rfl).elim
    | cons x d => rfl
  · rfl

/-- A factor times a coefficient scales the factor. -/
theorem scaleParts_ofScaleParts_factor {c : Coefficient α} {key : Expr α}
    (hproduct : key.isProduct = false) (hliteral : key.real? = none) (hc : c.isZero = false) :
    (ofScaleParts c key).scaleParts.2 = key := by
  have hreal (v : α) : key.isReal v = false := by
    rw [isReal, hliteral]
  have hself : key.scaleParts.2 = key := by
    cases key with
    | product c n d => cases hproduct
    | number v =>
      cases v with
      | real v => cases hliteral
      | constant k => rfl
    | _ => rfl
  fun_cases ofScaleParts c key with
  | case1 =>
    rename_i hzero
    exact (Bool.eq_false_iff.mp hc hzero).elim
  | case2 =>
    rename_i hone
    exact (Bool.eq_false_iff.mp (hreal _) hone).elim
  | case3 => cases hproduct
  | case4 => exact hself
  | case5 => rfl

/-- An addend that is no literal scales no literal. -/
theorem real?_scaleParts {a : Expr α} (h : StableAddend a) (hliteral : a.real? = none) :
    a.scaleParts.2.real? = none := by
  fun_cases scaleParts a with
  | case1 v => cases hliteral
  | case2 c x => exact ((stable_product.mp h.1).1.factors x List.mem_cons_self).2
  | case3 c n d _ => rfl
  | case4 _ _ _ _ => exact hliteral

section Unital

variable [Scalar.Unital α]

/-- An addend with another coefficient scales the same, unless it has become a number. -/
theorem scaleParts_ofScaleParts {a : Expr α} (h : StableAddend a) {c : Coefficient α}
    (hliteral : (ofScaleParts c a.scaleParts.2).real? = none) :
    (ofScaleParts c a.scaleParts.2).scaleParts.2 = a.scaleParts.2 := by
  have hc : c.isZero = false := by
    rw [Bool.eq_false_iff]
    intro hc
    rw [ofScaleParts.eq_def, if_pos hc] at hliteral
    cases hliteral
  fun_cases scaleParts a with
  | case1 v =>
    rw [scaleParts, ofScaleParts.eq_def, hc, isReal_one] at hliteral
    cases hliteral
  | case2 k x =>
    obtain ⟨hproduct, hreal⟩ := (stable_product.mp h.1).1.factors x List.mem_cons_self
    exact scaleParts_ofScaleParts_factor hproduct hreal hc
  | case3 k n d hsingle =>
    have hscaled : ofScaleParts c (.product .one n d) = .product c n d := by
      rw [ofScaleParts, hc]
      rfl
    dsimp only
    rw [hscaled, scaleParts_product hsingle]
  | case4 _ hreal hsingle hproduct =>
    refine scaleParts_ofScaleParts_factor ?_ ?_ hc
    · cases a with
      | product c n d => exact (hproduct c n d rfl).elim
      | _ => rfl
    · cases a with
      | number v =>
        cases v with
        | real v => exact (hreal v rfl).elim
        | constant k => rfl
      | _ => rfl

omit [Scalar.Unital α] in
/-- What is no literal does not count as equal to one. -/
theorem beq_one_of_real?_none {e : Expr α} (h : e.real? = none) : (e == .one) = false := by
  rw [Bool.eq_false_iff, ne_eq, beq_iff]
  intro hsame
  have hrank := rank_eq_of_order_eq hsame
  cases e with
  | number v =>
    cases v with
    | real v => cases h
    | constant k => cases hsame
  | _ => cases hrank

omit [Scalar.Unital α] in
/-- What is added up has every property of the addends that all numbers have. -/
theorem forall_sort_sumTerms {K : Expr α → Prop} {as : List (Expr α)} (has : ∀ a ∈ as, K a)
    (hnumber : ∀ v, K (.number v)) : ∀ a ∈ sort (sumTerms as), K a := by
  intro a ha
  obtain hkept | ⟨v, rfl, -⟩ := mem_sumTerms ((sort_perm _).mem_iff.mp ha)
  · exact has a (mem_keptAddends.mp hkept).1
  · exact hnumber _

omit [Scalar.Unital α] in
/-- The addends of a sum that the rule for sums makes have every property of the addends that all
numbers have. -/
theorem forall_addends_sumRule {K : Expr α → Prop} {as : List (Expr α)}
    (has : ∀ a ∈ as, a.isSum = false ∧ K a) (hnumber : ∀ v, K (.number v)) :
    ∀ a ∈ (sumRule as).value.addends, K a := by
  have hterms : ∀ a ∈ sort (sumTerms as), a.isSum = false ∧ K a :=
    forall_sort_sumTerms has fun v => ⟨rfl, hnumber v⟩
  rw [sumRule_value, flatMap_addends fun a ha => (has a ha).1]
  generalize sort (sumTerms as) = terms at hterms
  rcases terms with _ | ⟨a, _ | ⟨b, rest⟩⟩
  · exact List.forall_mem_singleton.mpr (hnumber _)
  · obtain ⟨hsum, ha⟩ := hterms a List.mem_cons_self
    rw [collapseSum, addends_of_not_sum hsum]
    exact List.forall_mem_singleton.mpr ha
  · exact fun e he => (hterms e he).2

/-- There is nothing to combine in a sum of addends that scale different expressions. -/
theorem unlike_sumRule {as : List (Expr α)} (has : ∀ a ∈ as, StableAddend a ∧ Unlike a)
    (hkept : UnlikeTerms (keptAddends as)) : Unlike (sumRule as).value := by
  have hterms : UnlikeTerms (sumTerms as) := by
    rw [sumTerms]
    split
    · exact hkept
    · refine List.pairwise_append.mpr ⟨hkept, List.pairwise_singleton _ _, ?_⟩
      intro a ha x hx
      obtain rfl := List.mem_singleton.mp hx
      obtain ⟨hmem, hliteral, -⟩ := mem_keptAddends.mp ha
      exact beq_one_of_real?_none (real?_scaleParts (has a hmem).1 hliteral)
  have hsorted : UnlikeTerms (sort (sumTerms as)) :=
    (sort_perm (sumTerms as)).symm.pairwise hterms fun h => by rw [beq_comm, h]
  have hall : ∀ a ∈ sort (sumTerms as), Unlike a :=
    forall_sort_sumTerms (fun a ha => (has a ha).2) unlike_number
  rw [sumRule_value, flatMap_addends fun a ha => (has a ha).1.2]
  generalize sort (sumTerms as) = terms at hsorted hall
  rcases terms with _ | ⟨a, _ | ⟨b, rest⟩⟩
  · exact unlike_number _
  · exact hall a List.mem_cons_self
  · exact unlike_sum.mpr ⟨hsorted, hall⟩

/-- There is nothing to combine among addends that are combined and added up. -/
theorem unlike_sumRule_mergeAddends {as : List (Expr α)}
    (has : ∀ a ∈ as, StableAddend a ∧ Unlike a) :
    Unlike (sumRule (mergeAddends as).value).value := by
  refine unlike_sumRule ?_ ?_
  · intro e he
    obtain ⟨⟨c, key⟩, hterm, rfl⟩ := List.mem_map.mp he
    obtain ⟨a, ha, rfl⟩ := mem_likeTerms hterm
    exact ⟨ofScaleParts_stable (has a ha).1 c, unlike_ofScaleParts c (unlike_scaleParts (has a ha).2)⟩
  · rw [keptAddends, List.filter_filter, UnlikeTerms, List.pairwise_filter]
    refine List.pairwise_map.mpr ((pairwise_likeTerms as).imp_of_mem ?_)
    rintro ⟨c, key⟩ ⟨c', key'⟩ hterm hterm' hne hkept hkept'
    obtain ⟨a, ha, rfl⟩ := mem_likeTerms hterm
    obtain ⟨a', ha', rfl⟩ := mem_likeTerms hterm'
    simp only [Bool.and_eq_true, Option.isNone_iff_eq_none] at hkept hkept'
    dsimp only
    rw [scaleParts_ofScaleParts (has a ha).1 hkept.2, scaleParts_ofScaleParts (has a' ha').1 hkept'.2]
    exact hne

/-- Addends that scale different expressions are given back. -/
theorem mergeAddends_of_unlike {as : List (Expr α)}
    (has : ∀ a ∈ as, StableAddend a ∧ a.isZero = false) (h : UnlikeTerms as) :
    (mergeAddends as).value = as := by
  rw [mergeAddends, likeTerms_of_unlike h, List.map_map]
  refine (List.map_congr_left fun a ha => ?_).trans (List.map_id as)
  exact ofScaleParts_scaleParts (has a ha).1 (has a ha).2

/-- Factors that are powers of different bases are given back. -/
theorem mergeFactors_of_unlike {es : List (Expr α)} (hes : ∀ e ∈ es, Stable e)
    (h : UnlikeFactors es) (fuel : Nat) : (mergeFactors fuel es).Returns es := by
  rw [returns_mergeFactors, likeFactors_of_unlike h, List.forall₂_map_left_iff, List.forall₂_same]
  intro e he
  rw [gatherPower, Reducing.returns_pure]
  exact (hes e he).powerParts

end Unital

mutual

/-- The combining pass gives back a stable expression with nothing to combine. -/
theorem merge_returns [Scalar.Unital α] {e : Expr α} (hstable : Stable e) (h : Unlike e) (fuel : Nat) :
    (merge fuel e).Returns e := by
  cases e with
  | sum as =>
    obtain ⟨hterms, hall⟩ := unlike_sum.mp h
    have hnormal := (normal_sum.mp hstable.normal).1
    have hstable := (stable_sum.mp hstable).2
    simp only [merge, Reducing.returns_bind, Reducing.returns_pure, Reducing.returns_liftM]
    refine ⟨as, mergeList_returns hstable hall fuel, _, rfl, ?_⟩
    rw [mergeAddends_of_unlike (fun a ha =>
      ⟨⟨hstable a ha, hnormal.flat a ha⟩, hnormal.nonzero a ha⟩) hterms]
  | product c n d =>
    obtain ⟨⟨hn, hd⟩, hnAll, hdAll⟩ := unlike_product.mp h
    obtain ⟨-, hnStable, hdStable⟩ := stable_product.mp hstable
    simp only [merge, Reducing.returns_bind, Reducing.returns_pure]
    exact ⟨n, mergeList_returns hnStable hnAll fuel, d, mergeList_returns hdStable hdAll fuel,
      n, mergeFactors_of_unlike hnStable hn fuel, d, mergeFactors_of_unlike hdStable hd fuel, rfl⟩
  | power base exponent =>
    obtain ⟨-, hbase, hexponent⟩ := stable_power.mp hstable
    simp only [merge, Reducing.returns_bind, Reducing.returns_pure]
    exact ⟨base, merge_returns hbase (h.child (by simp [children])) fuel, exponent,
      merge_returns hexponent (h.child (by simp [children])) fuel, rfl⟩
  | log base body =>
    obtain ⟨-, hbase, hbody⟩ := stable_log.mp hstable
    simp only [merge, Reducing.returns_bind, Reducing.returns_pure]
    exact ⟨base, merge_returns hbase (h.child (by simp [children])) fuel, body,
      merge_returns hbody (h.child (by simp [children])) fuel, rfl⟩
  | trig f body =>
    simp only [merge, Reducing.returns_bind, Reducing.returns_pure]
    exact ⟨body, merge_returns (stable_trig.mp hstable).2 (h.child (by simp [children])) fuel, rfl⟩
  | var name => rw [merge, Reducing.returns_pure]
  | number v => rw [merge, Reducing.returns_pure]

/-- The combining pass gives back stable expressions with nothing to combine in them. -/
theorem mergeList_returns [Scalar.Unital α] {es : List (Expr α)} (hstable : ∀ e ∈ es, Stable e)
    (h : ∀ e ∈ es, Unlike e) (fuel : Nat) : (mergeList fuel es).Returns es := by
  cases es with
  | nil => rw [mergeList, Reducing.returns_pure]
  | cons e es =>
    rw [List.forall_mem_cons] at hstable h
    simp only [mergeList, Reducing.returns_bind, Reducing.returns_pure]
    exact ⟨e, merge_returns hstable.1 h.1 fuel, es, mergeList_returns hstable.2 h.2 fuel, rfl⟩

end

/-- A round gives back a stable expression with nothing to combine. -/
theorem round_self [Scalar.Unital α] {e : Expr α} (hstable : Stable e) (h : Unlike e) : Round e e e e :=
  ⟨hstable.simplified_returns, merge_returns hstable h _, hstable.simplified_returns⟩

/-- Where there is nothing to combine below the addends of what an expression is simplified to, a round
leaves nothing to combine at all. -/
theorem exists_round [Scalar.Unital α] {e first : Expr α} (hfirst : (simplified e).Returns first)
    (hstable : Stable first) (h : ∀ a ∈ first.addends, Unlike a) :
    ∃ second third, Round e first second third ∧ Stable third ∧ Unlike third := by
  cases hsum : first.isSum with
  | false =>
    rw [addends_of_not_sum hsum, List.forall_mem_singleton] at h
    exact ⟨first, first, ⟨hfirst, merge_returns hstable h _, hstable.simplified_returns⟩, hstable, h⟩
  | true =>
    obtain ⟨as, rfl⟩ : ∃ as, first = .sum as := by
      cases first with
      | sum as => exact ⟨as, rfl⟩
      | _ => cases hsum
    have hadd : ∀ a ∈ as, StableAddend a ∧ Unlike a := fun a ha => ⟨hstable.addends a ha, h a ha⟩
    have hcombined : ∀ a ∈ (mergeAddends as).value, StableAddend a := by
      intro a ha
      obtain ⟨⟨c, key⟩, hterm, rfl⟩ := List.mem_map.mp ha
      obtain ⟨b, hb, rfl⟩ := mem_likeTerms hterm
      exact ofScaleParts_stable (hadd b hb).1 c
    refine ⟨.sum (mergeAddends as).value, (sumRule (mergeAddends as).value).value, ⟨hfirst, ?_, ?_⟩,
      sumRule_stable ?_, unlike_sumRule_mergeAddends hadd⟩
    · simp only [merged, merge, Reducing.returns_bind, Reducing.returns_pure, Reducing.returns_liftM]
      exact ⟨as, mergeList_returns (stable_sum.mp hstable).2 h _, _, rfl, rfl⟩
    · exact (restores_sum (List.forall₂_same.mpr fun a ha => (hcombined a ha).1.restores)).simplified
    · exact fun a ha => (hcombined a ha).1.addends

end SymbolicAlgebra.Reduction
