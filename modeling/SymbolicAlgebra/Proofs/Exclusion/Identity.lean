import SymbolicAlgebra.Proofs.Exclusion.Tidy

/-!
# Groups without look-alikes

Where clauses that count as equal are the same, a group that is added to exclusions is in them
afterwards, in its normal form. So exclusions have exactly the normal forms of the groups that were
added, and tidying them succeeds if it does for each group.
-/

namespace SymbolicAlgebra.Exclusions

variable {α : Type} [Scalar α]

/-- Among the clauses with a property those that count as equal are the same. -/
def Identified (p : Clause α → Prop) : Prop := ∀ c c', p c → p c' → (c == c') = true → c = c'

/-- The clause is one of a node of the given expressions. -/
def Contributed (stages : List (Expr α)) (c : Clause α) : Prop :=
  ∃ e ∈ stages, ∃ x ∈ e.postOrder, ∃ group ∈ groupsOf x, c ∈ group

/-- The clause is what a clause of a node of the given expressions is tidied to. -/
def Tidied (limits : Limits) (stages : List (Expr α)) (c : Clause α) : Prop :=
  ∃ raw, Contributed stages raw ∧ raw.tidy limits = .ok c

/-- Groups that count as equal are the same if their clauses are. -/
theorem eq_of_beq_of_identified {p : Clause α → Prop} (hp : Identified p)
    {group group' : List (Clause α)} (hgroup : ∀ c ∈ group, p c) (hgroup' : ∀ c ∈ group', p c)
    (h : (group == group') = true) : group = group' := by
  induction group generalizing group' with
  | nil =>
    cases group' with
    | nil => rfl
    | cons c' group' => cases h
  | cons c group ih =>
    cases group' with
    | nil => cases h
    | cons c' group' =>
      rw [List.cons_beq_cons, Bool.and_eq_true] at h
      rw [List.forall_mem_cons] at hgroup hgroup'
      rw [hp c c' hgroup.1 hgroup'.1 h.1, ih hgroup.2 hgroup'.2 h.2]

/-- Groups that are in exclusions stay there when one is added. -/
theorem mem_insert_of_mem {x : Exclusions α} {group : List (Clause α)} (h : group ∈ x.groups)
    (added : List (Clause α)) : group ∈ (x.insert added).groups := by
  rw [insert]
  split
  · exact h
  · exact List.mem_append_left _ h

/-- A group that is added is in the exclusions afterwards, in its normal form. -/
theorem mem_insert_self {p : Clause α → Prop} (hp : Identified p) {x : Exclusions α}
    (hx : x.ForallClauses p) {group : List (Clause α)} (hgroup : ∀ c ∈ group, p c) :
    normalGroup group ∈ (x.insert group).groups := by
  rw [insert]
  split
  · rename_i hcontains
    obtain ⟨kept, hkept, hsame⟩ := List.contains_iff_exists_mem_beq.mp hcontains
    have hnormal : ∀ c ∈ normalGroup group, p c := fun c hc => hgroup c (normalGroup_subset _ hc)
    rw [eq_of_beq_of_identified hp hnormal (hx kept hkept) hsame]
    exact hkept
  · exact List.mem_append_right _ (List.mem_singleton_self _)

/-- Groups that are in exclusions stay there when others are added. -/
theorem mem_insertAll_of_mem {x : Exclusions α} {group : List (Clause α)} (h : group ∈ x.groups)
    (added : List (List (Clause α))) : group ∈ (x.insertAll added).groups := by
  induction added generalizing x with
  | nil => exact h
  | cons g added ih => exact ih (mem_insert_of_mem h g)

/-- All groups that are added are in the exclusions afterwards, in their normal forms. -/
theorem normalGroup_mem_insertAll {p : Clause α → Prop} (hp : Identified p)
    {added : List (List (Clause α))} {x : Exclusions α} (hx : x.ForallClauses p)
    (hadded : ∀ group ∈ added, ∀ c ∈ group, p c) {group : List (Clause α)} (h : group ∈ added) :
    normalGroup group ∈ (x.insertAll added).groups := by
  induction added generalizing x with
  | nil => cases h
  | cons g added ih =>
    rw [List.forall_mem_cons] at hadded
    obtain rfl | h := List.mem_cons.mp h
    · exact mem_insertAll_of_mem (mem_insert_self hp hx hadded.1) added
    · exact ih (hx.insert hadded.1) hadded.2 h

/-- Exclusions have no other groups than those that were there and the normal forms of those that
were added. -/
theorem of_mem_insertAll {added : List (List (Clause α))} {x : Exclusions α}
    {group : List (Clause α)} (h : group ∈ (x.insertAll added).groups) :
    group ∈ x.groups ∨ ∃ g ∈ added, group = normalGroup g := by
  induction added generalizing x with
  | nil => exact .inl h
  | cons g added ih =>
    obtain h | ⟨g', hg', rfl⟩ := ih h
    · change group ∈ (x.insert g).groups at h
      rw [Exclusions.insert] at h
      split at h
      · exact .inl h
      · obtain h | h := List.mem_append.mp h
        · exact .inl h
        · exact .inr ⟨g, List.mem_cons_self, List.mem_singleton.mp h⟩
    · exact .inr ⟨g', List.mem_cons_of_mem g hg', rfl⟩

/-- Tidied groups were tidied one by one. -/
theorem tidyGroup_of_tidyGroups {limits : Limits} {groups tidied : List (List (Clause α))}
    (h : tidyGroups limits groups = .ok tidied) :
    ∀ group ∈ groups, ∃ kept, tidyGroup limits group = .ok kept ∧ kept.toList ⊆ tidied := by
  obtain ⟨found, hfound, rfl⟩ := forall₂_tidyGroups h
  refine Reduction.forall_of_forall₂ hfound.flip fun kept hkept group hgroup => ⟨kept, hgroup, ?_⟩
  exact fun c hc => List.mem_flatMap.mpr ⟨kept, hkept, hc⟩

/-- Groups that can be tidied one by one can be tidied together. -/
theorem exists_tidyGroups {limits : Limits} {groups : List (List (Clause α))}
    (h : ∀ group ∈ groups, ∃ kept, tidyGroup limits group = .ok kept) :
    ∃ tidied, tidyGroups limits groups = .ok tidied ∧
      ∀ kept ∈ tidied, ∃ group ∈ groups, tidyGroup limits group = .ok (some kept) := by
  induction groups with
  | nil => exact ⟨[], rfl, by simp⟩
  | cons group groups ih =>
    rw [List.forall_mem_cons] at h
    obtain ⟨⟨kept, hkept⟩, hrest⟩ := h
    obtain ⟨tidied, htidied, hall⟩ := ih hrest
    refine ⟨kept.toList ++ tidied, by rw [tidyGroups, hkept, htidied]; rfl, ?_⟩
    rw [List.forall_mem_append]
    refine ⟨fun c hc => ⟨group, List.mem_cons_self, ?_⟩, fun c hc => ?_⟩
    · rw [hkept, Option.mem_toList.mp hc]
    · obtain ⟨g, hg, hgc⟩ := hall c hc
      exact ⟨g, List.mem_cons_of_mem group hg, hgc⟩

/-- Tidying some of the groups succeeds if tidying all does, and what it leaves is left there too. -/
theorem tidy_subset {limits : Limits} {stages : List (Expr α)} {x x' y : Exclusions α}
    (hsame : Identified (Tidied limits stages)) (hx : x.ForallClauses (Contributed stages))
    (h : x.tidy limits = .ok y) (hsubset : x'.groups ⊆ x.groups) :
    ∃ y', x'.tidy limits = .ok y' ∧ y'.groups ⊆ y.groups := by
  rw [tidy] at h
  obtain ⟨tidied, htidied, h⟩ := Reduction.ok_of_bind h
  cases h
  have hgroups := tidyGroup_of_tidyGroups htidied
  have hsome : ∀ group ∈ x'.groups, ∃ kept, tidyGroup limits group = .ok kept :=
    fun group hgroup => (hgroups group (hsubset hgroup)).imp fun _ h => h.1
  obtain ⟨tidied', htidied', hkept⟩ := exists_tidyGroups hsome
  refine ⟨empty.insertAll tidied', by rw [tidy, htidied']; rfl, fun group hgroup => ?_⟩
  obtain hempty | ⟨kept, hmem, rfl⟩ := of_mem_insertAll hgroup
  · cases hempty
  · obtain ⟨g, hg, hgKept⟩ := hkept kept hmem
    obtain ⟨found, hfound, hfoundMem⟩ := hgroups g (hsubset hg)
    rw [hgKept] at hfound
    cases hfound
    refine normalGroup_mem_insertAll hsame (fun _ hgroup => by cases hgroup) ?_
      (hfoundMem (by simp))
    intro kept' hkept'
    have hsome : ∀ group ∈ x.groups, ∃ kept, tidyGroup limits group = .ok kept :=
      fun group hgroup => (hgroups group hgroup).imp fun _ h => h.1
    obtain ⟨tidied'', htidied'', hall⟩ := exists_tidyGroups hsome
    obtain rfl := Except.ok.inj (htidied.symm.trans htidied'')
    obtain ⟨g', hg', hgKept'⟩ := hall kept' hkept'
    exact forall_tidyGroup (fun c hc c' hc' => ⟨c, hx g' hg' c hc, hc'⟩) hgKept'

/-- Dropping repeats only drops clauses. -/
theorem dropRepeats_sublist (group : List (Clause α)) : (dropRepeats group).Sublist group := by
  fun_induction dropRepeats group with
  | case1 => exact .slnil
  | case2 c cs _ _ => exact List.singleton_sublist.mpr List.mem_cons_self
  | case3 c cs d ds hrest _ ih =>
    rw [hrest] at ih
    exact .cons_cons c ((List.sublist_cons_self d ds).trans ih)
  | case4 c cs d ds hrest _ ih =>
    rw [hrest] at ih
    exact .cons_cons c ih

/-- Nothing is dropped where no clause is equal to the one before it. -/
theorem dropRepeats_of_isChain {group : List (Clause α)}
    (h : group.IsChain fun c d => (c == d) = false) : dropRepeats group = group := by
  induction group with
  | nil => rfl
  | cons c group ih =>
    cases group with
    | nil => rfl
    | cons d group =>
      obtain ⟨hcd, htail⟩ := List.isChain_cons_cons.mp h
      rw [dropRepeats, ih htail]
      simp [hcd]

variable [Scalar.Lawful α]

/-- Where repeats are dropped no clause is equal to the one before it. -/
theorem isChain_dropRepeats (group : List (Clause α)) :
    (dropRepeats group).IsChain fun c d => (c == d) = false := by
  fun_induction dropRepeats group with
  | case1 => exact .nil
  | case2 c cs _ _ => exact .singleton c
  | case3 c cs d ds hrest hsame ih =>
    rw [hrest] at ih
    cases ds with
    | nil => exact .singleton c
    | cons e ds =>
      obtain ⟨hde, htail⟩ := List.isChain_cons_cons.mp ih
      refine List.isChain_cons_cons.mpr ⟨?_, htail⟩
      -- what is equal to the first of two different clauses is not equal to the second
      rw [← Bool.not_eq_true, Clause.beq_iff] at hde ⊢
      have hcd := Clause.beq_iff.mp hsame
      exact fun hce => hde (Std.TransCmp.eq_trans (Std.OrientedCmp.eq_symm hcd) hce)
  | case4 c cs d ds hrest hne ih =>
    rw [hrest] at ih
    exact List.isChain_cons_cons.mpr ⟨Bool.eq_false_iff.mpr hne, ih⟩

/-- A group in normal form is its own normal form. -/
theorem normalGroup_normalGroup (group : List (Clause α)) :
    normalGroup (normalGroup group) = normalGroup group := by
  have hsorted := pairwise_mergeSort_cmp Clause.order group
  have hagain := List.mergeSort_of_pairwise (hsorted.sublist (dropRepeats_sublist _))
  rw [normalGroup, normalGroup, hagain, dropRepeats_of_isChain (isChain_dropRepeats _)]

section Stages

variable {stages : List (Expr α)}

omit [Scalar.Lawful α] in
/-- What is collected from expressions is made of clauses of their nodes. -/
theorem forallClauses_collectAll : (Expr.collectAll stages).ForallClauses (Contributed stages) :=
  .collectAll fun e he x hx group hgroup _ hc => ⟨e, he, x, hx, group, hgroup, hc⟩

/-- The nodes of expressions contribute their groups in normal form. -/
theorem mem_collectAll (hsame : Identified (Contributed stages)) {e x : Expr α}
    {group : List (Clause α)} (he : e ∈ stages) (hx : x ∈ e.postOrder) (hgroup : group ∈ groupsOf x) :
    normalGroup group ∈ (Expr.collectAll stages).groups := by
  have hclauses : ∀ g ∈ e.postOrder.flatMap groupsOf, ∀ c ∈ g, Contributed stages c := by
    intro g hg c hc
    obtain ⟨y, hy, hg⟩ := List.mem_flatMap.mp hg
    exact ⟨e, he, y, hy, g, hg, hc⟩
  have hcollect : normalGroup group ∈ (collect e).groups :=
    normalGroup_mem_insertAll hsame (fun _ hgroup => by cases hgroup) hclauses
      (List.mem_flatMap.mpr ⟨x, hx, hgroup⟩)
  obtain ⟨before, after, rfl⟩ := List.append_of_mem he
  have hbefore : (Expr.collectAll before).ForallClauses (Contributed (before ++ e :: after)) :=
    .collectAll fun e' he' x hx group hgroup _ hc =>
      ⟨e', List.mem_append_left _ he', x, hx, group, hgroup, hc⟩
  have hextend : normalGroup group ∈ ((Expr.collectAll before).extend (collect e)).groups := by
    rw [← normalGroup_normalGroup]
    exact normalGroup_mem_insertAll hsame hbefore
      (ForallClauses.insertAll (fun _ hgroup => by cases hgroup) hclauses) hcollect
  rw [Expr.collectAll, List.foldl_append, List.foldl_cons]
  have hlater (y : Exclusions α) (hy : normalGroup group ∈ y.groups) (rest : List (Expr α)) :
      normalGroup group ∈ (rest.foldl (fun x e => x.extend (.collect e)) y).groups := by
    induction rest generalizing y with
    | nil => exact hy
    | cons e rest ih => exact ih _ (mem_insertAll_of_mem hy _)
  exact hlater _ hextend after

/-- No other groups are collected. -/
theorem of_mem_collectAll {group : List (Clause α)} (h : group ∈ (Expr.collectAll stages).groups) :
    ∃ e ∈ stages, ∃ x ∈ e.postOrder, ∃ g ∈ groupsOf x, group = normalGroup g := by
  have hfold (y : Exclusions α)
      (h : group ∈ (stages.foldl (fun x e => x.extend (.collect e)) y).groups) :
      group ∈ y.groups ∨
        ∃ e ∈ stages, ∃ x ∈ e.postOrder, ∃ g ∈ groupsOf x, group = normalGroup g := by
    clear * - h
    induction stages generalizing y with
    | nil => exact .inl h
    | cons e stages ih =>
      obtain h | ⟨e', he', hfound⟩ := ih (y.extend (collect e)) h
      · obtain h | ⟨g, hg, rfl⟩ := of_mem_insertAll h
        · exact .inl h
        · obtain hg | ⟨g', hg', rfl⟩ := of_mem_insertAll hg
          · cases hg
          · obtain ⟨x, hx, hg'⟩ := List.mem_flatMap.mp hg'
            exact .inr ⟨e, List.mem_cons_self, x, hx, g', hg', normalGroup_normalGroup g'⟩
      · exact .inr ⟨e', List.mem_cons_of_mem e he', hfound⟩
  obtain h | h := hfold .empty h
  · cases h
  · exact h

/-- Where all stages of one run are stages of another, the groups collected are so too. -/
theorem collectAll_subset {stages' : List (Expr α)} (hsame : Identified (Contributed stages))
    (h : stages' ⊆ stages) : (Expr.collectAll stages').groups ⊆ (Expr.collectAll stages).groups := by
  intro group hgroup
  obtain ⟨e, he, x, hx, g, hg, rfl⟩ := of_mem_collectAll hgroup
  exact mem_collectAll hsame (h he) hx hg

end Stages

end SymbolicAlgebra.Exclusions
