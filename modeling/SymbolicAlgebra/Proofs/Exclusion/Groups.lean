import SymbolicAlgebra.Canonical
import SymbolicAlgebra.Proofs.Expr.Nodes
import SymbolicAlgebra.Proofs.Expr.Order

/-!
# Groups of exclusions

Whatever is added to exclusions, each group that was added stays covered: there is a group whose
clauses are all equal to clauses of it, and which holds wherever it does. In turn no clause is in
exclusions that was not added to them.
-/

namespace SymbolicAlgebra

variable {α : Type} [Scalar α]

namespace Clause

/-- Being equal is comparing as equal. -/
theorem beq_iff {c c' : Clause α} : (c == c') = true ↔ c.order c' = .eq := by
  change (c.order c' == .eq) = true ↔ _
  cases c.order c' <;> decide

/-- Clauses that count as equal have equal parts. -/
theorem parts_of_order_eq {c c' : Clause α} (h : c.order c' = .eq) :
    c.operand.order c'.operand = .eq ∧ modulusOrder c.modulus c'.modulus = .eq ∧
      c.comparator = c'.comparator ∧ c.threshold.order c'.threshold = .eq := by
  rw [order, Ordering.then_eq_eq, Ordering.then_eq_eq, Ordering.then_eq_eq] at h
  obtain ⟨⟨⟨hoperand, hmodulus⟩, hcomparator⟩, hthreshold⟩ := h
  refine ⟨hoperand, hmodulus, ?_, hthreshold⟩
  have hranks := Std.LawfulEqCmp.eq_of_compare hcomparator
  revert hranks
  cases c.comparator <;> cases c'.comparator <;> simp [Comparator.rank]

variable [Scalar.Lawful α]

/-- A missing modulus before the others, and these in their order, is a total preorder. -/
instance modulusOrder_trans :
    Std.TransCmp (modulusOrder : Option (Number α) → Option (Number α) → Ordering) where
  eq_swap {a b} := by
    cases a <;> cases b <;> simp only [modulusOrder, Ordering.swap]
    exact Std.OrientedCmp.eq_swap
  isLE_trans {a b c} hab hbc := by
    cases a <;> cases b <;> cases c <;> simp only [modulusOrder] at *
    all_goals first | exact Std.TransCmp.isLE_trans hab hbc | contradiction | rfl

/-- The order of clauses is a total preorder. -/
instance order_trans : Std.TransCmp (order : Clause α → Clause α → Ordering) := by
  refine transCmp_of_chained ?_ ?_
  · intro a b
    rw [order, order, Ordering.swap_then, Ordering.swap_then, Ordering.swap_then,
      ← Std.OrientedCmp.eq_swap, ← Std.OrientedCmp.eq_swap, ← Std.OrientedOrd.eq_swap (α := Nat),
      ← Std.OrientedCmp.eq_swap]
  · intro a b c
    exact (((Chained.of_transCmp Expr.order _ _ _).then fun _ _ =>
      .of_transCmp modulusOrder _ _ _).then fun _ _ => .of_transCmp compare _ _ _).then
        fun _ _ => .of_transCmp Number.order _ _ _

end Clause

namespace Exclusions

/-- Every clause of the first group is equal to one of the second, so that it holds where the second
does. -/
def GroupCovers (kept group : List (Clause α)) : Prop :=
  ∀ c ∈ kept, ∃ c' ∈ group, (c == c') = true

/-- Some group holds wherever the given one does. -/
def Covers (x : Exclusions α) (group : List (Clause α)) : Prop :=
  ∃ kept ∈ x.groups, GroupCovers kept group

/-- All clauses of all groups have a property. -/
def ForallClauses (p : Clause α → Prop) (x : Exclusions α) : Prop :=
  ∀ group ∈ x.groups, ∀ c ∈ group, p c

/-- Dropping repeats adds no clause. -/
theorem dropRepeats_subset (group : List (Clause α)) : dropRepeats group ⊆ group := by
  fun_induction dropRepeats group with
  | case1 => exact List.Subset.refl _
  | case2 c cs _ _ => simp
  | case3 c cs d ds hrest _ ih =>
    rw [hrest] at ih
    exact List.cons_subset_cons c (List.Subset.trans (List.subset_cons_self d ds) ih)
  | case4 c cs d ds hrest _ ih =>
    rw [hrest] at ih
    exact List.cons_subset_cons c ih

/-- The clauses of a group in normal form are among those of the group. -/
theorem normalGroup_subset (group : List (Clause α)) : normalGroup group ⊆ group :=
  fun _ hc => List.mem_mergeSort.mp (dropRepeats_subset _ hc)

/-- A group of one clause is in normal form. -/
theorem normalGroup_singleton (c : Clause α) : normalGroup [c] = [c] := by
  rw [normalGroup, List.mergeSort_singleton]
  rfl

/-- A group of two clauses in order is in normal form. -/
theorem normalGroup_pair {c d : Clause α} (h : c.order d = .lt) : normalGroup [c, d] = [c, d] := by
  have hne : (c == d) = false := by
    rw [Bool.eq_false_iff, ne_eq, Clause.beq_iff, h]
    exact Ordering.noConfusion
  simp [normalGroup, List.mergeSort, List.MergeSort.Internal.splitInTwo, h, dropRepeats, hne]

/-- Only clauses that are added get into exclusions. -/
theorem ForallClauses.insert {p : Clause α → Prop} {x : Exclusions α} {group : List (Clause α)}
    (hx : x.ForallClauses p) (hgroup : ∀ c ∈ group, p c) : (x.insert group).ForallClauses p := by
  rw [Exclusions.insert]
  split
  · exact hx
  · intro kept hkept
    obtain hkept | hkept := List.mem_append.mp hkept
    · exact hx kept hkept
    · rw [List.mem_singleton.mp hkept]
      exact fun c hc => hgroup c (normalGroup_subset group hc)

/-- Only clauses of groups that are added get into exclusions. -/
theorem ForallClauses.insertAll {p : Clause α → Prop} {groups : List (List (Clause α))}
    {x : Exclusions α} (hx : x.ForallClauses p) (hgroups : ∀ group ∈ groups, ∀ c ∈ group, p c) :
    (x.insertAll groups).ForallClauses p := by
  induction groups generalizing x with
  | nil => exact hx
  | cons group groups ih =>
    rw [List.forall_mem_cons] at hgroups
    exact ih (hx.insert hgroups.1) hgroups.2

/-- What the nodes of an expression contribute has the properties of all their clauses. -/
theorem ForallClauses.collect {p : Clause α → Prop} {e : Expr α}
    (h : ∀ x ∈ e.postOrder, ∀ group ∈ groupsOf x, ∀ c ∈ group, p c) :
    (collect e).ForallClauses p := by
  refine ForallClauses.insertAll (fun _ h => nomatch h) fun group hgroup => ?_
  obtain ⟨x, hx, hgroup⟩ := List.mem_flatMap.mp hgroup
  exact h x hx group hgroup

/-- What the nodes of expressions contribute has the properties of all their clauses. -/
theorem ForallClauses.collectAll {p : Clause α → Prop} {stages : List (Expr α)}
    (h : ∀ e ∈ stages, ∀ x ∈ e.postOrder, ∀ group ∈ groupsOf x, ∀ c ∈ group, p c) :
    (Expr.collectAll stages).ForallClauses p := by
  have hfold (x : Exclusions α) (hx : x.ForallClauses p) :
      (stages.foldl (fun x e => x.extend (.collect e)) x).ForallClauses p := by
    induction stages generalizing x with
    | nil => exact hx
    | cons e stages ih =>
      rw [List.forall_mem_cons] at h
      exact ih h.2 _ (hx.insertAll (ForallClauses.collect h.1))
  exact hfold .empty fun _ h => nomatch h

/-- Expressions that contribute no groups do not change what is collected. -/
theorem collectAll_cons_of_groupsOf {e : Expr α} {stages : List (Expr α)}
    (h : ∀ e ∈ stages, ∀ x ∈ e.postOrder, groupsOf x = []) :
    Expr.collectAll (e :: stages) = empty.extend (.collect e) := by
  rw [Expr.collectAll, List.foldl_cons]
  induction stages with
  | nil => rfl
  | cons e stages ih =>
    rw [List.forall_mem_cons] at h
    have hnone : collect e = empty := by
      rw [collect, List.flatMap_eq_nil_iff.mpr h.1]
      rfl
    rw [List.foldl_cons, hnone]
    exact ih h.2

variable [Scalar.Lawful α]

/-- A group covers those that it is a part of. -/
theorem groupCovers_of_subset {kept group : List (Clause α)} (h : kept ⊆ group) :
    GroupCovers kept group :=
  fun c hc => ⟨c, h hc, Clause.beq_iff.mpr Std.ReflCmp.compare_self⟩

/-- Equal groups cover each other. -/
theorem groupCovers_of_beq {kept group : List (Clause α)} (h : (group == kept) = true) :
    GroupCovers kept group := by
  induction group generalizing kept with
  | nil =>
    cases kept with
    | nil => exact fun c hc => nomatch hc
    | cons d kept => cases h
  | cons d' group ih =>
    cases kept with
    | nil => cases h
    | cons d kept =>
      rw [List.cons_beq_cons, Bool.and_eq_true] at h
      intro c hc
      obtain rfl | hc := List.mem_cons.mp hc
      · exact ⟨d', List.mem_cons_self,
          Clause.beq_iff.mpr (Std.OrientedCmp.eq_symm (Clause.beq_iff.mp h.1))⟩
      · obtain ⟨c', hc', hsame⟩ := ih h.2 c hc
        exact ⟨c', List.mem_cons_of_mem d' hc', hsame⟩

/-- What covers a group covers whatever the group covers. -/
theorem GroupCovers.trans {kept group group' : List (Clause α)} (h : GroupCovers kept group)
    (h' : GroupCovers group group') : GroupCovers kept group' := by
  intro c hc
  obtain ⟨d, hd, hcd⟩ := h c hc
  obtain ⟨d', hd', hdd'⟩ := h' d hd
  exact ⟨d', hd', Clause.beq_iff.mpr
    (Std.TransCmp.eq_trans (Clause.beq_iff.mp hcd) (Clause.beq_iff.mp hdd'))⟩

/-- A group that is added is covered. -/
theorem covers_insert_self (x : Exclusions α) (group : List (Clause α)) :
    (x.insert group).Covers group := by
  have hnormal : GroupCovers (normalGroup group) group :=
    groupCovers_of_subset (normalGroup_subset group)
  rw [insert]
  split
  · rename_i hcontains
    obtain ⟨kept, hkept, hsame⟩ := List.contains_iff_exists_mem_beq.mp hcontains
    exact ⟨kept, hkept, (groupCovers_of_beq hsame).trans hnormal⟩
  · exact ⟨normalGroup group, List.mem_append_right _ (List.mem_singleton.mpr rfl), hnormal⟩

omit [Scalar.Lawful α] in
/-- What is covered stays so when a group is added. -/
theorem Covers.insert {x : Exclusions α} {group : List (Clause α)} (h : x.Covers group)
    (added : List (Clause α)) : (x.insert added).Covers group := by
  obtain ⟨kept, hkept, hcovers⟩ := h
  refine ⟨kept, ?_, hcovers⟩
  rw [Exclusions.insert]
  split
  · exact hkept
  · exact List.mem_append_left _ hkept

omit [Scalar.Lawful α] in
/-- What is covered stays so when groups are added. -/
theorem Covers.insertAll {x : Exclusions α} {group : List (Clause α)} (h : x.Covers group)
    (added : List (List (Clause α))) : (x.insertAll added).Covers group := by
  induction added generalizing x with
  | nil => exact h
  | cons g added ih => exact ih (h.insert g)

/-- All groups that are added are covered. -/
theorem covers_insertAll_of_mem {groups : List (List (Clause α))} {group : List (Clause α)}
    (h : group ∈ groups) (x : Exclusions α) : (x.insertAll groups).Covers group := by
  induction groups generalizing x with
  | nil => cases h
  | cons g groups ih =>
    obtain rfl | h := List.mem_cons.mp h
    · exact (x.covers_insert_self group).insertAll groups
    · exact ih h (x.insert g)

/-- What is covered stays so in an extension. -/
theorem covers_extend {x y : Exclusions α} {group : List (Clause α)} (h : y.Covers group) :
    (x.extend y).Covers group := by
  obtain ⟨kept, hkept, hcovers⟩ := h
  obtain ⟨kept', hkept', hcovers'⟩ := covers_insertAll_of_mem hkept x
  exact ⟨kept', hkept', hcovers'.trans hcovers⟩

/-- The groups of every node of every expression are covered by what the expressions contribute. -/
theorem covers_collectAll {stages : List (Expr α)} {e x : Expr α} {group : List (Clause α)}
    (he : e ∈ stages) (hx : x ∈ e.postOrder) (hgroup : group ∈ groupsOf x) :
    (Expr.collectAll stages).Covers group := by
  have hcollect : (collect e).Covers group :=
    covers_insertAll_of_mem (List.mem_flatMap.mpr ⟨x, hx, hgroup⟩) empty
  have hlater (y : Exclusions α) (hy : y.Covers group) (rest : List (Expr α)) :
      (rest.foldl (fun x e => x.extend (.collect e)) y).Covers group := by
    induction rest generalizing y with
    | nil => exact hy
    | cons e rest ih => exact ih _ (hy.insertAll _)
  obtain ⟨before, after, rfl⟩ := List.append_of_mem he
  rw [Expr.collectAll, List.foldl_append, List.foldl_cons]
  exact hlater _ (covers_extend hcollect) after

end Exclusions

end SymbolicAlgebra
