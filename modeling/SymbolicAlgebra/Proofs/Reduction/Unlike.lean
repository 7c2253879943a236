import SymbolicAlgebra.Proofs.Reduction.Fixpoint
import SymbolicAlgebra.Proofs.Reduction.Merge

/-!
# Unlike terms and factors

Combining like terms or like factors takes weight away. So the combining pass gives back a stable
expression that it does not make lighter, and no addends of its sums scale the same and no factors
on one side of its products are powers of the same base.
-/

namespace SymbolicAlgebra.Reduction

open SymbolicAlgebra.Expr

variable {α : Type} [Scalar α]

/-- The addends scale different expressions. -/
def UnlikeTerms (as : List (Expr α)) : Prop :=
  as.Pairwise fun a b => (a.scaleParts.2 == b.scaleParts.2) = false

/-- The factors are powers of different bases. -/
def UnlikeFactors (es : List (Expr α)) : Prop :=
  es.Pairwise fun a b => (a.powerParts.1 == b.powerParts.1) = false

/-- There is nothing to combine at this node. -/
def UnlikeNode : Expr α → Prop
  | .sum as => UnlikeTerms as
  | .product _ n d => UnlikeFactors n ∧ UnlikeFactors d
  | _ => True

/-- There is nothing to combine at any node. -/
def Unlike (e : Expr α) : Prop := e.Everywhere UnlikeNode

/-- A term is new, or its coefficient is added to that of a term that is there. -/
theorem addTerm_cases (c : Coefficient α) (key : Expr α) (terms : List (Coefficient α × Expr α)) :
    (addTerm c key terms = terms ++ [(c, key)] ∧ ∀ term ∈ terms, (term.2 == key) = false) ∨
      ((∃ term ∈ terms, (term.2 == key) = true) ∧
        (addTerm c key terms).map Prod.snd = terms.map Prod.snd) := by
  induction terms with
  | nil => exact .inl ⟨rfl, by simp⟩
  | cons term terms ih =>
    obtain ⟨c₀, key₀⟩ := term
    rw [addTerm]
    split
    · rename_i hkey
      exact .inr ⟨⟨(c₀, key₀), List.mem_cons_self, hkey⟩, rfl⟩
    · rename_i hkey
      obtain ⟨hnew, hunlike⟩ | ⟨⟨term, hterm, hsame⟩, hold⟩ := ih
      · refine .inl ⟨by rw [hnew]; rfl, ?_⟩
        rw [List.forall_mem_cons]
        exact ⟨Bool.eq_false_iff.mpr hkey, hunlike⟩
      · exact .inr ⟨⟨term, List.mem_cons_of_mem _ hterm, hsame⟩,
          by rw [List.map_cons, hold, List.map_cons]⟩

/-- The last addend is added to the terms of those before it. -/
theorem likeTerms_append_singleton (as : List (Expr α)) (a : Expr α) :
    likeTerms (as ++ [a]) = addTerm a.scaleParts.1 a.scaleParts.2 (likeTerms as) := by
  rw [likeTerms, List.foldl_append]
  rfl

/-- Combining addends does not add to what they weigh for what they scale. -/
theorem sum_termWeight_likeTerms_le (as : List (Expr α)) :
    (((likeTerms as).map Prod.snd).map termWeight).sum ≤
      (as.map fun a => a.scaleParts.2.termWeight).sum := by
  induction as using List.reverseRecOn with
  | nil => exact le_refl _
  | append_singleton as a ih =>
    rw [likeTerms_append_singleton, List.map_append, List.sum_append, List.map_singleton,
      List.sum_singleton]
    obtain ⟨hnew, -⟩ | ⟨-, hold⟩ := addTerm_cases a.scaleParts.1 a.scaleParts.2 (likeTerms as)
    · rw [hnew, List.map_append, List.map_append, List.sum_append]
      exact Nat.add_le_add_right ih _
    · rw [hold]
      exact ih.trans (Nat.le_add_right _ _)

/-- Terms that scale different expressions are kept. Where at most one of them is a number, others weigh
less once they are combined, though not nothing. -/
theorem likeTerms_cases {as : List (Expr α)}
    (h : as.Pairwise fun a b => a.scaleParts.2.weight ≠ 0 ∨ b.scaleParts.2.weight ≠ 0) :
    (likeTerms as = as.map scaleParts ∧ UnlikeTerms as) ∨
      (0 < (((likeTerms as).map Prod.snd).map termWeight).sum ∧
        (((likeTerms as).map Prod.snd).map termWeight).sum <
          (as.map fun a => a.scaleParts.2.termWeight).sum) := by
  induction as using List.reverseRecOn with
  | nil => exact .inl ⟨rfl, .nil⟩
  | append_singleton as a ih =>
    have hle := sum_termWeight_likeTerms_le as
    obtain ⟨has, -, hlast⟩ := List.pairwise_append.mp h
    have hsum : ((as ++ [a]).map fun a => a.scaleParts.2.termWeight).sum =
        (as.map fun a => a.scaleParts.2.termWeight).sum + a.scaleParts.2.termWeight := by
      rw [List.map_append, List.sum_append, List.map_singleton, List.sum_singleton]
    rw [likeTerms_append_singleton, hsum]
    obtain ⟨hnew, hunlike⟩ | ⟨⟨term, hterm, hkey⟩, hold⟩ :=
      addTerm_cases a.scaleParts.1 a.scaleParts.2 (likeTerms as)
    · rw [hnew]
      obtain ⟨hsame, hpairwise⟩ | ⟨hpos, hlt⟩ := ih has
      · refine .inl ⟨by rw [hsame, List.map_append]; rfl, ?_⟩
        rw [UnlikeTerms, List.pairwise_append]
        refine ⟨hpairwise, List.pairwise_singleton _ _, fun b hb x hx => ?_⟩
        obtain rfl := List.mem_singleton.mp hx
        exact hunlike b.scaleParts (hsame ▸ List.mem_map_of_mem hb)
      · refine .inr ?_
        rw [List.map_append, List.map_append, List.sum_append]
        exact ⟨Nat.add_pos_left hpos _, Nat.add_lt_add_right hlt _⟩
    · -- the new addend scales what another one does, and not both are numbers
      obtain ⟨b, hb, hbKey⟩ := mem_likeTerms hterm
      have hsame := weight_eq_of_beq hkey
      have hweight : a.scaleParts.2.weight ≠ 0 := by
        have := hlast b hb a (List.mem_singleton_self a)
        rw [← hbKey, hsame] at this
        exact this.elim id id
      have hnew := one_le_termWeight hweight
      have hthere := one_le_termWeight (hsame ▸ hweight)
      have hmem := List.single_le_sum (by simp) _
        (List.mem_map_of_mem (f := termWeight) (List.mem_map_of_mem (f := Prod.snd) hterm))
      rw [hold]
      exact .inr (by omega)

/-- Combining addends does not add weight. -/
theorem mergeAddends_weight_le (as : List (Expr α)) :
    ((mergeAddends as).value.map weight).sum ≤
      (((likeTerms as).map Prod.snd).map termWeight).sum := by
  refine sum_le_of_forall₂ ?_
  rw [mergeAddends, List.forall₂_map_left_iff, List.forall₂_map_right_iff, List.forall₂_same]
  exact fun term _ => weight_ofScaleParts_le _ _

/-- An addend of a stable sum that scales a number is one. -/
theorem StableAddend.real?_of_weight {a : Expr α} (h : StableAddend a)
    (hzero : a.scaleParts.2.weight = 0) : a.real?.isSome = true := by
  obtain ⟨v, hv⟩ := weight_eq_zero.mp hzero
  clear hzero
  revert hv
  fun_cases scaleParts a with
  | case1 u => exact fun _ => rfl
  | case2 c x =>
    rintro rfl
    obtain ⟨shape, -⟩ := stable_product.mp h.1
    cases (shape.factors _ List.mem_cons_self).2
  | case3 c n d => exact fun hv => by cases hv
  | case4 e hreal => exact fun hv => (hreal v hv).elim

/-- Not more than one addend of a stable sum scales a number. -/
theorem pairwise_scaleParts {as : List (Expr α)} (hstable : ∀ a ∈ as, StableAddend a)
    (hliterals : as.countP (fun a => a.real?.isSome) ≤ 1) :
    as.Pairwise fun a b => a.scaleParts.2.weight ≠ 0 ∨ b.scaleParts.2.weight ≠ 0 := by
  rw [List.pairwise_iff_forall_sublist]
  intro a b hab
  rw [← not_and_or]
  rintro ⟨ha, hb⟩
  have haReal := (hstable a (hab.subset (by simp))).real?_of_weight ha
  have hbReal := (hstable b (hab.subset (by simp))).real?_of_weight hb
  have hcount := (hab.countP_le (p := fun a => a.real?.isSome)).trans hliterals
  simp [haReal, hbReal] at hcount

/-- A base is new, or an exponent is added to those of an equal one that is there. -/
theorem addExponent_cases (base exponent : Expr α) (groups : List (Expr α × List (Expr α))) :
    (addExponent base exponent groups = groups ++ [(base, [exponent])] ∧
      ∀ group ∈ groups, (group.1 == base) = false) ∨
    ∃ before base₀ exponents after, groups = before ++ (base₀, exponents) :: after ∧
      (base₀ == base) = true ∧
      addExponent base exponent groups = before ++ (base₀, exponents ++ [exponent]) :: after := by
  induction groups with
  | nil => exact .inl ⟨rfl, by simp⟩
  | cons group groups ih =>
    obtain ⟨base₀, exponents⟩ := group
    rw [addExponent]
    split
    · rename_i hbase
      exact .inr ⟨[], base₀, exponents, groups, rfl, hbase, rfl⟩
    · rename_i hbase
      obtain ⟨hnew, hunlike⟩ | ⟨before, base₁, exponents₁, after, rfl, hbase₁, hold⟩ := ih
      · refine .inl ⟨by rw [hnew]; rfl, ?_⟩
        rw [List.forall_mem_cons]
        exact ⟨Bool.eq_false_iff.mpr hbase, hunlike⟩
      · exact .inr ⟨(base₀, exponents) :: before, base₁, exponents₁, after, rfl, hbase₁,
          by rw [hold]; rfl⟩

/-- The last factor is added to the groups of those before it. -/
theorem likeFactors_append_singleton (es : List (Expr α)) (e : Expr α) :
    likeFactors (es ++ [e]) = addExponent e.powerParts.1 e.powerParts.2 (likeFactors es) := by
  rw [likeFactors, List.foldl_append]
  rfl

/-- The weight of the powers of one base, each standing alone. -/
def groupWeight (group : Expr α × List (Expr α)) : ℕ :=
  (group.2.map fun exponent => group.1.heft + exponent.weight).sum

/-- Factors with different bases are groups of their own; otherwise some group has two exponents. -/
theorem likeFactors_cases (es : List (Expr α)) :
    (likeFactors es = es.map (fun e => (e.powerParts.1, [e.powerParts.2])) ∧ UnlikeFactors es) ∨
      ∃ group ∈ likeFactors es, 2 ≤ group.2.length := by
  induction es using List.reverseRecOn with
  | nil => exact .inl ⟨rfl, .nil⟩
  | append_singleton es e ih =>
    have hnonempty : ∀ group ∈ likeFactors es, group.2 ≠ [] := fun _ hgroup =>
      ne_nil_of_mem_likeFactors hgroup
    rw [likeFactors_append_singleton]
    obtain ⟨hnew, hunlike⟩ | ⟨before, base₀, exponents, after, hgroups, hbase, hold⟩ :=
      addExponent_cases e.powerParts.1 e.powerParts.2 (likeFactors es)
    · rw [hnew]
      obtain ⟨hsame, hpairwise⟩ | ⟨group, hgroup, hlength⟩ := ih
      · refine .inl ⟨by rw [hsame, List.map_append]; rfl, ?_⟩
        rw [UnlikeFactors, List.pairwise_append]
        refine ⟨hpairwise, List.pairwise_singleton _ _, fun b hb x hx => ?_⟩
        obtain rfl := List.mem_singleton.mp hx
        exact hunlike (b.powerParts.1, [b.powerParts.2])
          (hsame ▸ List.mem_map_of_mem (f := fun e => (e.powerParts.1, [e.powerParts.2])) hb)
      · exact .inr ⟨group, List.mem_append_left _ hgroup, hlength⟩
    · rw [hgroups] at hnonempty
      have hpos := List.length_pos_iff.mpr (hnonempty (base₀, exponents) (by simp))
      refine .inr ⟨(base₀, exponents ++ [e.powerParts.2]), by simp [hold], ?_⟩
      rw [List.length_append, List.length_singleton]
      exact Nat.succ_le_succ hpos

/-- Some factors make some groups. -/
theorem likeFactors_ne_nil {es : List (Expr α)} (h : es ≠ []) : likeFactors es ≠ [] := by
  obtain ⟨hsame, -⟩ | ⟨group, hgroup, -⟩ := likeFactors_cases es
  · rw [hsame]
    simpa using h
  · exact List.ne_nil_of_mem hgroup

/-- The groups weigh as much as the factors that they are made of. -/
theorem sum_groupWeight (es : List (Expr α)) :
    ((likeFactors es).map groupWeight).sum = (es.map heft).sum := by
  induction es using List.reverseRecOn with
  | nil => rfl
  | append_singleton es e ih =>
    rw [likeFactors_append_singleton, List.map_append, List.sum_append, ← ih, List.map_singleton,
      List.sum_singleton, heft_powerParts]
    obtain ⟨hnew, -⟩ | ⟨before, base₀, exponents, after, hgroups, hbase, hold⟩ :=
      addExponent_cases e.powerParts.1 e.powerParts.2 (likeFactors es)
    · rw [hnew]
      simp [groupWeight]
    · rw [hold, hgroups]
      simp only [List.map_append, List.sum_append, List.map_cons, List.sum_cons, groupWeight,
        List.map_nil, List.sum_nil, heft_eq_of_beq hbase]
      omega

section Lawful

variable [Scalar.Lawful α]

/-- Combining the powers of one base takes weight away, unless there is only one. -/
theorem gatherPower_weight {fuel : Nat} {base e : Expr α} {exponents : List (Expr α)}
    (hne : exponents ≠ []) (h : (gatherPower fuel base exponents).Returns e) :
    e.heft ≤ groupWeight (base, exponents) ∧
      (e.heft = groupWeight (base, exponents) → ∃ exponent, exponents = [exponent] ∧
        e = if exponent.isReal Scalar.one then base else .power base exponent) := by
  match exponents, hne with
  | [exponent], _ =>
    rw [gatherPower, Reducing.returns_pure] at h
    subst h
    refine ⟨le_of_eq ?_, fun _ => ⟨exponent, rfl, rfl⟩⟩
    rw [groupWeight, List.map_singleton, List.sum_singleton]
    split
    · rename_i hone
      obtain ⟨v, rfl⟩ := literal_of_isReal hone
      rfl
    · exact heft_powerParts (.power base exponent)
  | x :: y :: exponents, _ =>
    simp only [gatherPower, Reducing.returns_bind, Reducing.returns_liftM] at h
    obtain ⟨_, rfl, h⟩ := h
    have hpower := weight_closed.power_returns h
    have hsum := weight_sumRule_le (x :: y :: exponents)
    have hbase := one_le_heft base
    have hrest : (exponents.map weight).sum ≤
        (exponents.map fun exponent => base.heft + exponent.weight).sum :=
      sum_le_of_forall₂ (List.forall₂_same.mpr fun _ _ => Nat.le_add_left _ _)
    have hlt : e.heft < groupWeight (base, x :: y :: exponents) := by
      simp only [groupWeight, List.map_cons, List.sum_cons] at hsum ⊢
      rw [heft]
      omega
    exact ⟨hlt.le, fun heq => (hlt.ne heq).elim⟩

end Lawful

section Unital

variable [Scalar.Unital α]

/-- A list whose members are related only to themselves is related only to itself. -/
theorem eq_of_forall₂ {β : Type} {r : β → β → Prop} {bs cs : List β} (h : List.Forall₂ r bs cs)
    (hr : ∀ b ∈ bs, ∀ c, r b c → c = b) : cs = bs := by
  induction h with
  | nil => rfl
  | cons h _ ih =>
    rw [List.forall_mem_cons] at hr
    rw [hr.1 _ h, ih hr.2]

/-- A stable factor is the power of its base to its exponent. -/
theorem Stable.powerParts {e : Expr α} (h : Stable e) :
    (if e.powerParts.2.isReal Scalar.one then e.powerParts.1
      else .power e.powerParts.1 e.powerParts.2) = e := by
  cases e with
  | power base exponent =>
    have hone := (normal_power.mp h.normal).1.notOne
    rw [Expr.powerParts, hone]
    rfl
  | _ => exact if_pos isReal_one

/-- Combining factors does not add weight, and it gives back stable factors that it does not make
lighter; their bases are different then. -/
theorem mergeFactors_weight {fuel : Nat} {es es' : List (Expr α)}
    (h : (mergeFactors fuel es).Returns es') :
    (es'.map heft).sum ≤ (es.map heft).sum ∧
      ((∀ e ∈ es, Stable e) → (es.map heft).sum ≤ (es'.map heft).sum →
        es' = es ∧ UnlikeFactors es) := by
  have hnonempty : ∀ group ∈ likeFactors es, group.2 ≠ [] := fun _ hgroup =>
    ne_nil_of_mem_likeFactors hgroup
  have hgathered := ((List.forall₂_and_left _ _).mpr
    ⟨hnonempty, returns_mergeFactors.mp h⟩).imp fun _ _ h => gatherPower_weight h.1 h.2
  have hle := sum_le_of_forall₂ (hgathered.imp fun _ _ h => h.1)
  rw [sum_groupWeight] at hle
  refine ⟨hle, fun hstable hsum => ?_⟩
  rw [← sum_groupWeight] at hsum
  have hsame := forall₂_eq_of_sum_le (hgathered.imp fun _ _ h => h.1) hsum
  have hsingles := (forall₂_and hgathered hsame).imp fun _ _ h => h.1.2 h.2
  obtain ⟨hgroups, hunlike⟩ | ⟨group, hgroup, hlength⟩ := likeFactors_cases es
  · refine ⟨?_, hunlike⟩
    rw [hgroups, List.forall₂_map_left_iff] at hsingles
    refine eq_of_forall₂ hsingles ?_
    rintro e he _ ⟨exponent, hexponent, rfl⟩
    obtain rfl := List.singleton_inj.mp hexponent
    exact (hstable e he).powerParts
  · have hall := forall_of_forall₂ (q := fun group => group.2.length = 1) hsingles.flip (by
      rintro _ - group ⟨exponent, hexponent, -⟩
      rw [hexponent]
      rfl)
    have := hall group hgroup
    omega

/-- What addends weigh for what they scale is no more than they weigh. -/
theorem sum_termWeight_le (as : List (Expr α)) :
    (as.map fun a => a.scaleParts.2.termWeight).sum ≤ (as.map weight).sum :=
  sum_le_of_forall₂ (List.forall₂_same.mpr fun a _ => termWeight_scaleParts_le a)

/-- Combining addends gives back those of a stable sum if it does not make it lighter; they scale
different expressions then. -/
theorem mergeAddends_same {as : List (Expr α)} (hstable : Stable (.sum as))
    (hsum : (as.map weight).sum ≤ max 1 ((mergeAddends as).value.map weight).sum) :
    (mergeAddends as).value = as ∧ UnlikeTerms as := by
  obtain ⟨hnormal, -⟩ := normal_sum.mp hstable.normal
  have haddends : ∀ a ∈ as, StableAddend a := fun a ha =>
    ⟨(stable_sum.mp hstable).2 a ha, hnormal.flat a ha⟩
  have hliterals := pairwise_scaleParts haddends hnormal.literals
  have hresult := mergeAddends_weight_le as
  have hkeys := sum_termWeight_le as
  obtain ⟨hsame, hunlike⟩ | ⟨hpos, hlt⟩ := likeTerms_cases hliterals
  · refine ⟨?_, hunlike⟩
    rw [mergeAddends, hsame, List.map_map, List.map_congr_left (g := id), List.map_id]
    exact fun a ha => ofScaleParts_scaleParts (haddends a ha) (hnormal.nonzero a ha)
  · omega

omit [Scalar.Unital α] in
/-- Combining some factors leaves some. -/
theorem mergeFactors_ne_nil {fuel : Nat} {es es' : List (Expr α)}
    (h : (mergeFactors fuel es).Returns es') (hes : es ≠ []) : es' ≠ [] := by
  rintro rfl
  have hgroups := List.forall₂_nil_right_iff.mp (returns_mergeFactors.mp h)
  exact likeFactors_ne_nil hes hgroups

end Unital

/-- What the combining pass makes of an expression that it does not make heavier, or a number only if it
is one. A stable expression that it does not make lighter is given back, and there is nothing to combine
in it. -/
structure Combines (e e' : Expr α) : Prop where
  le : e'.weight ≤ e.weight
  pos : e.weight ≠ 0 → e'.weight ≠ 0
  same : Stable e → e'.weight = e.weight → e' = e ∧ Unlike e

/-- Expressions of a list that keep their weights are given back. -/
theorem combines_same {es es' : List (Expr α)}
    (h : List.Forall₂ (fun e e' => Combines e e' ∧ e'.weight = e.weight) es es')
    (hstable : ∀ e ∈ es, Stable e) : es' = es ∧ ∀ e ∈ es, Unlike e := by
  induction h with
  | nil => exact ⟨rfl, by simp⟩
  | cons h _ ih =>
    rw [List.forall_mem_cons] at hstable
    obtain ⟨rfl, hunlike⟩ := h.1.same hstable.1 h.2
    obtain ⟨rfl, hall⟩ := ih hstable.2
    exact ⟨rfl, List.forall_mem_cons.mpr ⟨hunlike, hall⟩⟩

/-- So are those whose total weight is kept. -/
theorem combines_same_of_sum_weight {es es' : List (Expr α)} (h : List.Forall₂ Combines es es')
    (hstable : ∀ e ∈ es, Stable e) (hsum : (es.map weight).sum ≤ (es'.map weight).sum) :
    es' = es ∧ ∀ e ∈ es, Unlike e :=
  combines_same (forall₂_and h (forall₂_eq_of_sum_le (h.imp fun _ _ h => h.le) hsum)) hstable

/-- Expressions of a list weigh nothing together only if they did before. -/
theorem sum_weight_of_combines {es es' : List (Expr α)} (h : List.Forall₂ Combines es es')
    (hsum : (es'.map weight).sum = 0) : (es.map weight).sum = 0 := by
  induction h with
  | nil => rfl
  | cons h _ ih =>
    rw [List.map_cons, List.sum_cons] at hsum ⊢
    have hpos := h.pos
    have hrest := ih (by omega)
    omega

/-- An expression weighs no more once it is combined, also where literals are counted. -/
theorem Combines.heft_le {e e' : Expr α} (h : Combines e e') : e'.heft ≤ e.heft :=
  max_le_max_left 1 h.le

/-- If it weighs the same where literals are counted, it does so anyway. -/
theorem Combines.weight_eq {e e' : Expr α} (h : Combines e e') (hheft : e'.heft = e.heft) :
    e'.weight = e.weight := by
  have hle := h.le
  have hpos := h.pos
  rw [heft, heft] at hheft
  omega

/-- As many expressions are left of a list as there were. -/
theorem combines_ne_nil {es es' : List (Expr α)} (h : List.Forall₂ Combines es es')
    (hes : es ≠ []) : es' ≠ [] := by
  rintro rfl
  exact hes (List.forall₂_nil_right_iff.mp h)

/-- So are those whose total weight is kept where literals are counted. -/
theorem combines_same_of_sum_heft {es es' : List (Expr α)} (h : List.Forall₂ Combines es es')
    (hstable : ∀ e ∈ es, Stable e) (hsum : (es.map heft).sum ≤ (es'.map heft).sum) :
    es' = es ∧ ∀ e ∈ es, Unlike e :=
  combines_same ((forall₂_and h (forall₂_eq_of_sum_le (h.imp fun _ _ h => h.heft_le) hsum)).imp
    fun _ _ h => ⟨h.1, h.1.weight_eq h.2⟩) hstable

section Unital

variable [Scalar.Unital α]

/-- What a sum of combined addends is combined to is related so to the sum. -/
theorem combines_sum {as as' : List (Expr α)} (h : List.Forall₂ Combines as as') :
    Combines (.sum as) (.sum (mergeAddends as').value) := by
  have hle := sum_le_of_forall₂ (h.imp fun _ _ h => h.le)
  have hmerged := (mergeAddends_weight_le as').trans
    ((sum_termWeight_likeTerms_le as').trans (sum_termWeight_le as'))
  refine ⟨?_, fun _ => ?_, fun hstable heq => ?_⟩
  · rw [weight_sum, weight_sum]
    omega
  · rw [weight_sum]
    omega
  · rw [weight_sum, weight_sum] at heq
    have hpos := weight_sumRule_le as
    rw [(stable_sum.mp hstable).1, weight_sum] at hpos
    have hsome := mt (sum_weight_of_combines h)
    obtain ⟨rfl, hunlike⟩ := combines_same_of_sum_weight h (stable_sum.mp hstable).2 (by omega)
    obtain ⟨hsame, hterms⟩ := mergeAddends_same hstable (by omega)
    exact ⟨by rw [hsame], everywhere_iff.mpr ⟨hterms, hunlike⟩⟩

/-- What a product of combined factors is combined to is related so to the product. -/
theorem combines_product {fuel : Nat} {c : Coefficient α} {n d n' d' n'' d'' : List (Expr α)}
    (hn : List.Forall₂ Combines n n') (hd : List.Forall₂ Combines d d')
    (hnMerged : (mergeFactors fuel n').Returns n'') (hdMerged : (mergeFactors fuel d').Returns d'') :
    Combines (.product c n d) (.product c n'' d'') := by
  have hnLe := sum_le_of_forall₂ (hn.imp fun _ _ h => h.heft_le)
  have hdLe := sum_le_of_forall₂ (hd.imp fun _ _ h => h.heft_le)
  obtain ⟨hnMergedLe, hnSame⟩ := mergeFactors_weight hnMerged
  obtain ⟨hdMergedLe, hdSame⟩ := mergeFactors_weight hdMerged
  refine ⟨?_, fun _ => ?_, fun hstable heq => ?_⟩
  · rw [weight_product, weight_product]
    omega
  · rw [weight_product]
    omega
  · obtain ⟨shape, hnStable, hdStable⟩ := stable_product.mp hstable
    have hsome : 1 ≤ (n''.map heft).sum + (d''.map heft).sum := by
      obtain hne | hne := not_and_or.mp shape.nonempty
      · exact (one_le_sum_heft (mergeFactors_ne_nil hnMerged (combines_ne_nil hn hne))).trans
          (Nat.le_add_right _ _)
      · exact (one_le_sum_heft (mergeFactors_ne_nil hdMerged (combines_ne_nil hd hne))).trans
          (Nat.le_add_left _ _)
    rw [weight_product, weight_product] at heq
    obtain ⟨rfl, hnUnlike⟩ := combines_same_of_sum_heft hn hnStable (by omega)
    obtain ⟨rfl, hdUnlike⟩ := combines_same_of_sum_heft hd hdStable (by omega)
    obtain ⟨rfl, hnFactors⟩ := hnSame hnStable (by omega)
    obtain ⟨rfl, hdFactors⟩ := hdSame hdStable (by omega)
    refine ⟨rfl, everywhere_iff.mpr ⟨⟨hnFactors, hdFactors⟩, ?_⟩⟩
    rw [children, List.forall_mem_append]
    exact ⟨hnUnlike, hdUnlike⟩

/-- What the combining pass returns is related so to its argument. -/
theorem merge_combines {fuel : Nat} (e : Expr α) {e' : Expr α} (h : (merge fuel e).Returns e') :
    Combines e e' := by
  refine merge_induction (r := Combines) (fun e e' step => ?_) e h
  replace step := step.imp (s := Combines) fun _ _ _ h => h.2
  cases step with
  | sum has => exact combines_sum has
  | product hn hd hn' hd' => exact combines_product hn hd hn' hd'
  | @power base exponent base' exponent' hbase hexponent =>
    have hbaseLe := hbase.heft_le
    have hexponentLe := hexponent.le
    have hpos := one_le_heft base'
    refine ⟨?_, fun _ => ?_, fun hstable heq => ?_⟩
    · rw [weight_power, weight_power]
      omega
    · rw [weight_power]
      omega
    · rw [weight_power, weight_power] at heq
      obtain ⟨-, hbaseStable, hexponentStable⟩ := stable_power.mp hstable
      obtain ⟨rfl, hbaseUnlike⟩ := hbase.same hbaseStable (hbase.weight_eq (by omega))
      obtain ⟨rfl, hexponentUnlike⟩ := hexponent.same hexponentStable (by omega)
      refine ⟨rfl, everywhere_iff.mpr ⟨trivial, ?_⟩⟩
      rw [children, List.forall_mem_cons, List.forall_mem_singleton]
      exact ⟨hbaseUnlike, hexponentUnlike⟩
  | @log base body base' body' hbase hbody =>
    have hbaseLe := hbase.heft_le
    have hbodyLe := hbody.heft_le
    have hpos := one_le_heft base'
    refine ⟨?_, fun _ => ?_, fun hstable heq => ?_⟩
    · rw [weight_log, weight_log]
      omega
    · rw [weight_log]
      omega
    · rw [weight_log, weight_log] at heq
      obtain ⟨-, hbaseStable, hbodyStable⟩ := stable_log.mp hstable
      obtain ⟨rfl, hbaseUnlike⟩ := hbase.same hbaseStable (hbase.weight_eq (by omega))
      obtain ⟨rfl, hbodyUnlike⟩ := hbody.same hbodyStable (hbody.weight_eq (by omega))
      refine ⟨rfl, everywhere_iff.mpr ⟨trivial, ?_⟩⟩
      rw [children, List.forall_mem_cons, List.forall_mem_singleton]
      exact ⟨hbaseUnlike, hbodyUnlike⟩
  | @trig f body body' hbody =>
    have hpos := one_le_heft body'
    refine ⟨?_, fun _ => ?_, fun hstable heq => ?_⟩
    · rw [weight_trig, weight_trig]
      exact hbody.heft_le
    · rw [weight_trig]
      omega
    · rw [weight_trig, weight_trig] at heq
      obtain ⟨rfl, hbodyUnlike⟩ := hbody.same (stable_trig.mp hstable).2 (hbody.weight_eq heq)
      exact ⟨rfl, everywhere_iff.mpr ⟨trivial, List.forall_mem_singleton.mpr hbodyUnlike⟩⟩
  | var => exact ⟨le_refl _, id, fun _ _ => ⟨rfl, everywhere_of_leaf rfl trivial⟩⟩
  | number => exact ⟨le_refl _, id, fun _ _ => ⟨rfl, everywhere_of_leaf rfl trivial⟩⟩

/-- The combining pass does not add weight, and it gives back a stable expression that it does not
make lighter; there is nothing to combine in it then. -/
theorem merge_weight {fuel : Nat} {e e' : Expr α} (h : (merge fuel e).Returns e') :
    e'.weight ≤ e.weight ∧ (Stable e → e'.weight = e.weight → e' = e ∧ Unlike e) :=
  ⟨(merge_combines e h).le, (merge_combines e h).same⟩

end Unital

end SymbolicAlgebra.Reduction
