import SymbolicAlgebra.Proofs.Reduction.Hereditary

/-!
# Combinations taken apart

The terms and the groups of factors that the combining pass makes, what becomes of a node, and when the
pass keeps what it combines. Whatever holds of each node so is shown for whole expressions by one
induction. A term is lost when its coefficient is put before a product with a coefficient of its own,
which is then dropped; the pass meets such products only where it has combined factors before.
-/

namespace SymbolicAlgebra.Reduction

open SymbolicAlgebra.Expr

variable {α : Type} [Scalar α]

/-- What relates the coefficients of addends to what they scale relates those of the terms made of them,
if it allows adding coefficients. -/
theorem forall_likeTerms {Q : Coefficient α → Expr α → Prop} {addends : List (Expr α)}
    (hsum : ∀ c₀ key₀ c key, Q c₀ key₀ → Q c key → Q (c₀ + c) key₀)
    (h : ∀ e ∈ addends, Q e.scaleParts.1 e.scaleParts.2) :
    ∀ term ∈ likeTerms addends, Q term.1 term.2 := by
  have hadd (c : Coefficient α) (key : Expr α) (hkey : Q c key) (terms : List (Coefficient α × Expr α))
      (hterms : ∀ term ∈ terms, Q term.1 term.2) :
      ∀ term ∈ addTerm c key terms, Q term.1 term.2 := by
    induction terms with
    | nil => simpa [addTerm] using hkey
    | cons term terms ih =>
      obtain ⟨c₀, key₀⟩ := term
      rw [List.forall_mem_cons] at hterms
      rw [addTerm]
      split
      · rw [List.forall_mem_cons]
        exact ⟨hsum _ _ _ _ hterms.1 hkey, hterms.2⟩
      · rw [List.forall_mem_cons]
        exact ⟨hterms.1, ih hterms.2⟩
  have hfold (terms : List (Coefficient α × Expr α)) (hterms : ∀ term ∈ terms, Q term.1 term.2) :
      ∀ term ∈ addends.foldl (fun terms e => addTerm e.scaleParts.1 e.scaleParts.2 terms) terms,
        Q term.1 term.2 := by
    induction addends generalizing terms with
    | nil => exact hterms
    | cons e addends ih =>
      rw [List.forall_mem_cons] at h
      exact ih h.2 _ (hadd _ _ h.1 terms hterms)
  exact hfold [] (by simp)

/-- What a term scales is what an addend scales. -/
theorem mem_likeTerms {as : List (Expr α)} {term : Coefficient α × Expr α}
    (h : term ∈ likeTerms as) : ∃ a ∈ as, term.2 = a.scaleParts.2 :=
  forall_likeTerms (Q := fun _ key => ∃ a ∈ as, key = a.scaleParts.2) (fun _ _ _ _ h _ => h)
    (fun a ha => ⟨a, ha, rfl⟩) term h

/-- The bases and exponents of factors are those of the groups made of them, and every group has an
exponent. -/
theorem forall_likeFactors {K : Expr α → Prop} {factors : List (Expr α)}
    (h : ∀ e ∈ factors, K e.powerParts.1 ∧ K e.powerParts.2) :
    ∀ group ∈ likeFactors factors, group.2 ≠ [] ∧ K group.1 ∧ ∀ x ∈ group.2, K x := by
  have hadd (base exponent : Expr α) (hbase : K base) (hexponent : K exponent)
      (groups : List (Expr α × List (Expr α)))
      (hgroups : ∀ group ∈ groups, group.2 ≠ [] ∧ K group.1 ∧ ∀ x ∈ group.2, K x) :
      ∀ group ∈ addExponent base exponent groups,
        group.2 ≠ [] ∧ K group.1 ∧ ∀ x ∈ group.2, K x := by
    induction groups with
    | nil => simpa [addExponent] using ⟨hbase, hexponent⟩
    | cons group groups ih =>
      obtain ⟨base₀, exponents⟩ := group
      rw [List.forall_mem_cons] at hgroups
      rw [addExponent]
      split
      · obtain ⟨⟨hne, hbase₀, hexponents⟩, hrest⟩ := hgroups
        rw [List.forall_mem_cons]
        refine ⟨⟨by simp, hbase₀, ?_⟩, hrest⟩
        rw [List.forall_mem_append, List.forall_mem_singleton]
        exact ⟨hexponents, hexponent⟩
      · rw [List.forall_mem_cons]
        exact ⟨hgroups.1, ih hgroups.2⟩
  have hfold (groups : List (Expr α × List (Expr α)))
      (hgroups : ∀ group ∈ groups, group.2 ≠ [] ∧ K group.1 ∧ ∀ x ∈ group.2, K x) :
      ∀ group ∈ factors.foldl (fun groups e => addExponent e.powerParts.1 e.powerParts.2 groups)
        groups, group.2 ≠ [] ∧ K group.1 ∧ ∀ x ∈ group.2, K x := by
    induction factors generalizing groups with
    | nil => exact hgroups
    | cons e factors ih =>
      rw [List.forall_mem_cons] at h
      exact ih h.2 _ (hadd _ _ h.1.1 h.1.2 groups hgroups)
  exact hfold [] (by simp)

/-- Every group made of factors has an exponent. -/
theorem ne_nil_of_mem_likeFactors {factors : List (Expr α)} {group : Expr α × List (Expr α)}
    (h : group ∈ likeFactors factors) : group.2 ≠ [] :=
  (forall_likeFactors (K := fun _ => True) (fun _ _ => ⟨trivial, trivial⟩) group h).1

/-- A combination of the powers of one base: the only one of them, or the power to the sum of all
exponents. -/
inductive GatherOutcome (fuel : Nat) (base : Expr α) : List (Expr α) → Expr α → Prop
  | bare {exponent : Expr α} :
    exponent.isReal Scalar.one = true → GatherOutcome fuel base [exponent] base
  | single {exponent : Expr α} : GatherOutcome fuel base [exponent] (.power base exponent)
  | several {exponents : List (Expr α)} {e : Expr α} :
    2 ≤ exponents.length → (powerRule fuel base (sumRule exponents).value).Returns e →
    GatherOutcome fuel base exponents e

/-- What combining the powers of one base returns is one of these. -/
theorem gatherOutcome {fuel : Nat} {base : Expr α} {exponents : List (Expr α)} {e : Expr α}
    (hne : exponents ≠ []) (h : (gatherPower fuel base exponents).Returns e) :
    GatherOutcome fuel base exponents e := by
  match exponents, hne with
  | [exponent], _ =>
    rw [gatherPower, Reducing.returns_pure] at h
    subst h
    split
    · rename_i hone
      exact .bare hone
    · exact .single
  | x :: y :: exponents, _ =>
    simp only [gatherPower, Reducing.returns_bind, Reducing.returns_liftM] at h
    obtain ⟨_, rfl, h⟩ := h
    exact .several (by simp) h

/-- Factors are combined group by group. -/
theorem returns_mergeFactors {fuel : Nat} {factors es : List (Expr α)} :
    (mergeFactors fuel factors).Returns es ↔
      List.Forall₂ (fun group e => (gatherPower fuel group.1 group.2).Returns e)
        (likeFactors factors) es := by
  simp only [mergeFactors, Reducing.returns_bind, Reducing.returns_mapList]
  constructor
  · rintro ⟨-, -, h⟩
    exact h
  · intro h
    exact ⟨(), ⟨_, rfl, rfl⟩, h⟩

/-- The expressions of a list are combined one by one. -/
theorem returns_mergeList {fuel : Nat} {es es' : List (Expr α)} :
    (mergeList fuel es).Returns es' ↔
      List.Forall₂ (fun e e' => (merge fuel e).Returns e') es es' := by
  induction es generalizing es' with
  | nil =>
    rw [mergeList, Reducing.returns_pure, List.forall₂_nil_left_iff]
    exact eq_comm
  | cons e es ih =>
    simp only [mergeList, Reducing.returns_bind, Reducing.returns_pure, ih]
    constructor
    · rintro ⟨e', he, es', hes, rfl⟩
      exact .cons he hes
    · rintro (_ | ⟨he, hes⟩)
      exact ⟨_, he, _, hes, rfl⟩

/-- What the combining pass makes of an expression out of what is made of its children, which are related
to that as given. -/
inductive MergeStep (fuel : Nat) (r : Expr α → Expr α → Prop) : Expr α → Expr α → Prop
  | sum {as as' : List (Expr α)} :
    List.Forall₂ r as as' → MergeStep fuel r (.sum as) (.sum (mergeAddends as').value)
  | product {c : Coefficient α} {n d n' d' n'' d'' : List (Expr α)} :
    List.Forall₂ r n n' → List.Forall₂ r d d' → (mergeFactors fuel n').Returns n'' →
    (mergeFactors fuel d').Returns d'' → MergeStep fuel r (.product c n d) (.product c n'' d'')
  | power {base exponent base' exponent' : Expr α} :
    r base base' → r exponent exponent' →
    MergeStep fuel r (.power base exponent) (.power base' exponent')
  | log {base body base' body' : Expr α} :
    r base base' → r body body' → MergeStep fuel r (.log base body) (.log base' body')
  | trig {f : Trig} {body body' : Expr α} :
    r body body' → MergeStep fuel r (.trig f body) (.trig f body')
  | var {x : String} : MergeStep fuel r (.var x) (.var x)
  | number {v : Number α} : MergeStep fuel r (.number v) (.number v)

/-- The combining pass combines the children and then the like parts of the node. -/
theorem mergeStep {fuel : Nat} {e e' : Expr α} (h : (merge fuel e).Returns e') :
    MergeStep fuel (fun child child' => (merge fuel child).Returns child') e e' := by
  cases e with
  | sum as =>
    simp only [merge, Reducing.returns_bind, Reducing.returns_pure, Reducing.returns_liftM] at h
    obtain ⟨as', has, _, rfl, rfl⟩ := h
    exact .sum (returns_mergeList.mp has)
  | product c n d =>
    simp only [merge, Reducing.returns_bind, Reducing.returns_pure] at h
    obtain ⟨n', hn, d', hd, n'', hn', d'', hd', rfl⟩ := h
    exact .product (returns_mergeList.mp hn) (returns_mergeList.mp hd) hn' hd'
  | power base exponent =>
    simp only [merge, Reducing.returns_bind, Reducing.returns_pure] at h
    obtain ⟨base', hbase, exponent', hexponent, rfl⟩ := h
    exact .power hbase hexponent
  | log base body =>
    simp only [merge, Reducing.returns_bind, Reducing.returns_pure] at h
    obtain ⟨base', hbase, body', hbody, rfl⟩ := h
    exact .log hbase hbody
  | trig f body =>
    simp only [merge, Reducing.returns_bind, Reducing.returns_pure] at h
    obtain ⟨body', hbody, rfl⟩ := h
    exact .trig hbody
  | var name =>
    rw [merge, Reducing.returns_pure] at h
    exact h ▸ .var
  | number v =>
    rw [merge, Reducing.returns_pure] at h
    exact h ▸ .number

/-- Children may be related in any way that follows for them. -/
theorem MergeStep.imp {fuel : Nat} {r s : Expr α → Expr α → Prop} {e e' : Expr α}
    (h : MergeStep fuel r e e') (himp : ∀ child ∈ e.children, ∀ child', r child child' → s child child') :
    MergeStep fuel s e e' := by
  have all {es es' : List (Expr α)} (hes : ∀ a ∈ es, a ∈ e.children) (h : List.Forall₂ r es es') :
      List.Forall₂ s es es' :=
    ((List.forall₂_and_left _ _).mpr ⟨hes, h⟩).imp fun a a' h => himp a h.1 a' h.2
  cases h with
  | sum has => exact .sum (all (fun a ha => ha) has)
  | product hn hd hn' hd' =>
    exact .product (all (fun a ha => List.mem_append_left _ ha) hn)
      (all (fun a ha => List.mem_append_right _ ha) hd) hn' hd'
  | power hbase hexponent =>
    exact .power (himp _ (by simp [children]) _ hbase) (himp _ (by simp [children]) _ hexponent)
  | log hbase hbody =>
    exact .log (himp _ (by simp [children]) _ hbase) (himp _ (by simp [children]) _ hbody)
  | trig hbody => exact .trig (himp _ (by simp [children]) _ hbody)
  | var => exact .var
  | number => exact .number

/-- What relates an expression to what is made of it if it does so for the children relates everything
to what the combining pass returns. -/
theorem merge_induction {fuel : Nat} {r : Expr α → Expr α → Prop}
    (step : ∀ e e', MergeStep fuel (fun child child' =>
      (merge fuel child).Returns child' ∧ r child child') e e' → r e e')
    (e : Expr α) {e' : Expr α} (h : (merge fuel e).Returns e') : r e e' :=
  step e e' ((mergeStep h).imp fun child _ _ hchild => ⟨hchild, merge_induction step child hchild⟩)
termination_by e.size
decreasing_by exact size_lt_of_mem_children ‹_›

/-- What is in every product of its factors is kept by the combining pass too. -/
theorem Hereditary.mergeFactors {C : Coefficient α → Prop} {K : Expr α → Prop}
    (hK : Hereditary C K) {fuel : Nat} {factors es : List (Expr α)} (hfactors : ∀ e ∈ factors, K e)
    (h : (mergeFactors fuel factors).Returns es) : ∀ e ∈ es, K e := by
  have hgroups := forall_likeFactors fun e he => hK.powerParts e (hfactors e he)
  refine forall_of_forall₂ (returns_mergeFactors.mp h) fun group hgroup e he => ?_
  obtain ⟨hne, hbase, hexponents⟩ := hgroups group hgroup
  have outcome := gatherOutcome hne he
  generalize group.2 = exponents at outcome hexponents
  cases outcome with
  | bare _ => exact hbase
  | single => exact hK.power.mpr ⟨hbase, List.forall_mem_singleton.mp hexponents⟩
  | several _ h => exact hK.closed.power_returns h hbase (hK.sumRule hexponents)

/-- The combining pass keeps a hereditary property that all products of such factors have. -/
theorem Hereditary.merge {C : Coefficient α → Prop} {K : Expr α → Prop} (hK : Hereditary C K)
    (hproduct : ∀ {c n d}, C c → (∀ x ∈ n, K x) → (∀ x ∈ d, K x) → K (.product c n d)) {fuel : Nat}
    (e : Expr α) {e' : Expr α} (h : (merge fuel e).Returns e') (he : K e) : K e' := by
  refine merge_induction (r := fun e e' => K e → K e') (fun e e' step he => ?_) e h he
  have all {es es' : List (Expr α)} (hes : ∀ a ∈ es, K a)
      (h : List.Forall₂ (fun a a' => (Reduction.merge fuel a).Returns a' ∧ (K a → K a')) es es') :
      ∀ a ∈ es', K a := forall_of_forall₂ h fun a ha a' h => h.2 (hes a ha)
  cases step with
  | sum has =>
    have hparts := forall_likeTerms (Q := fun c key => C c ∧ K key)
      (fun _ _ _ _ h₀ h => ⟨hK.arithmetic.add h₀.1 h.1, h₀.2⟩) fun a ha =>
        hK.scaleParts (all (hK.sum.mp he) has a ha)
    rw [hK.sum, mergeAddends, List.forall_mem_map]
    exact fun term hterm => hK.ofScaleParts (hparts term hterm).1 (hparts term hterm).2
  | product hn hd hn' hd' =>
    obtain ⟨above, below⟩ := hK.factors he
    exact hproduct (hK.coefficient he) (hK.mergeFactors (all above hn) hn')
      (hK.mergeFactors (all below hd) hd')
  | power hbase hexponent =>
    obtain ⟨he₁, he₂⟩ := hK.power.mp he
    exact hK.power.mpr ⟨hbase.2 he₁, hexponent.2 he₂⟩
  | log hbase hbody =>
    obtain ⟨he₁, he₂⟩ := hK.log.mp he
    exact hK.log.mpr ⟨hbase.2 he₁, hbody.2 he₂⟩
  | trig hbody => exact hK.trig.mpr (hbody.2 (hK.trig.mp he))
  | var => exact he
  | number => exact he

/-- The rule for powers meets only plain expressions when it combines these factors. -/
def PlainGroups (factors : List (Expr α)) : Prop :=
  ∀ group ∈ likeFactors factors, 2 ≤ group.2.length → group.1.Plain ∧ ∀ x ∈ group.2, x.Plain

/-- No coefficient is dropped where the combining pass combines the parts of this node. -/
def KeepsTerms (fuel : Nat) : Expr α → Prop
  | .sum as => ∀ merged, (mergeList fuel as).Returns merged → ∀ e ∈ merged, e.scaleParts.2.Unscaled
  | .product _ n d =>
    (∀ merged, (mergeList fuel n).Returns merged → PlainGroups merged) ∧
      ∀ merged, (mergeList fuel d).Returns merged → PlainGroups merged
  | _ => True

/-- No coefficient is dropped anywhere in the combining pass. -/
def Lossless (fuel : Nat) (e : Expr α) : Prop := e.Everywhere (KeepsTerms fuel)

end SymbolicAlgebra.Reduction
