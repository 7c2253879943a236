import SymbolicAlgebra.Proofs.Exclusion.Groups
import SymbolicAlgebra.Proofs.Expr.Value

/-!
# Tidied exclusions

Tidying replaces the operand of each clause, drops clauses that hold everywhere and groups with one
that holds nowhere. A group whose tidied clauses all hold at a point is therefore kept, and the point
is excluded if every operand has a value there.
-/

namespace SymbolicAlgebra

variable {α : Type} [Scalar α] {limits : Limits} {b : Bindings α}

namespace Clause

/-- The part of an expression that decides whether it is zero, below powers to positive literals and
products of one factor. -/
inductive Core : Expr α → Expr α → Prop
  | refl (e : Expr α) : Core e e
  | power {base exponent core : Expr α} :
    isPositive exponent = true → Core base core → Core (.power base exponent) core
  | product {c : Coefficient α} {e core : Expr α} : Core e core → Core (.product c [e] []) core

/-- What decides whether an expression is zero is such a part of it. -/
theorem core_zeroCore (e : Expr α) : Core e (zeroCore e) := by
  have ih (child : Expr α) (hchild : child ∈ e.children) : Core child (zeroCore child) :=
    core_zeroCore child
  cases e with
  | power base exponent =>
    rw [zeroCore]
    split
    · rename_i hpositive
      exact .power hpositive (ih base (by simp [Expr.children]))
    · exact .refl _
  | product c n d =>
    rw [zeroCore]
    obtain _ | ⟨e, _ | ⟨e', n⟩⟩ := n
    · exact .refl _
    · cases d with
      | nil => exact .product (ih e (by simp [Expr.children]))
      | cons e' d => exact .refl _
    · exact .refl _
  | _ => exact .refl _
termination_by e.size
decreasing_by exact Expr.size_lt_of_mem_children hchild

/-- A tidied clause differs from the clause in its operand, which is in canonical form. -/
theorem of_tidy {c c' : Clause α} (h : c.tidy limits = .ok c') :
    ∃ e, Reduction.canonicalForm limits c.operand = .ok e ∧
      c' = { c with operand := if c.testsZero then zeroCore e else e } := by
  rw [tidy] at h
  obtain ⟨e, he, h⟩ := Reduction.ok_of_bind h
  exact ⟨e, he, (Except.ok.inj h).symm⟩

/-- The part that decides whether an expression is zero has no other variables. -/
theorem Core.variablesIn {p : String → Prop} {e core : Expr α} (h : Core e core)
    (he : e.VariablesIn p) : core.VariablesIn p := by
  induction h with
  | refl => exact he
  | power _ _ ih => exact ih (Expr.hereditary_variablesIn.power.mp he).1
  | product _ ih => exact ih ((Expr.variablesIn_product.mp he).1 _ List.mem_cons_self)

/-- A tidied clause has no other variables. -/
theorem variablesIn_tidy {p : String → Prop} {c c' : Clause α} (h : c.tidy limits = .ok c')
    (hc : c.operand.VariablesIn p) : c'.operand.VariablesIn p := by
  obtain ⟨e, he, rfl⟩ := of_tidy h
  obtain ⟨stages, hrun⟩ := Reduction.settling_of_canonicalForm he
  have hvariables : e.VariablesIn p :=
    Expr.variablesIn_settling hrun hc e hrun.last_mem
  dsimp only
  split
  · exact (core_zeroCore e).variablesIn hvariables
  · exact hvariables

/-- The clauses that a node contributes have no other variables. -/
theorem variablesIn_groupsOf {p : String → Prop} {x : Expr α} (hx : x.VariablesIn p) :
    ∀ group ∈ Exclusions.groupsOf x, ∀ c ∈ group, c.operand.VariablesIn p := by
  intro group hgroup c hc
  cases x with
  | product k n d =>
    obtain ⟨e, he, rfl⟩ := List.mem_map.mp hgroup
    obtain rfl := List.mem_singleton.mp hc
    exact (Expr.variablesIn_product.mp hx).2 e he
  | power base exponent =>
    obtain ⟨hbase, hexponent⟩ := Expr.hereditary_variablesIn.power.mp hx
    obtain rfl := List.mem_singleton.mp hgroup
    obtain rfl | rfl : c = plain base .lt Scalar.zero ∨
        c = modulo exponent (.literal Scalar.one) .ne Scalar.zero := by simpa using hc
    · exact hbase
    · exact hexponent
  | log base body =>
    obtain ⟨hbase, hbody⟩ := Expr.hereditary_variablesIn.log.mp hx
    obtain rfl | rfl | rfl : group = [plain base .le Scalar.zero] ∨
        group = [plain base .eq Scalar.one] ∨ group = [plain body .le Scalar.zero] := by
      simpa [Exclusions.groupsOf] using hgroup
    · rw [List.mem_singleton.mp hc]
      exact hbase
    · rw [List.mem_singleton.mp hc]
      exact hbase
    · rw [List.mem_singleton.mp hc]
      exact hbody
  | trig f body =>
    cases f with
    | tan =>
      have hbody := Expr.hereditary_variablesIn.trig.mp hx
      obtain rfl := List.mem_singleton.mp hgroup
      obtain rfl := List.mem_singleton.mp hc
      refine Expr.hereditary_variablesIn.sum.mpr (List.forall_mem_append.mpr ⟨?_, ?_⟩)
      · exact Expr.hereditary_variablesIn.addends hbody
      · refine List.forall_mem_singleton.mpr (Expr.variablesIn_product.mpr ⟨?_, by simp⟩)
        rw [List.forall_mem_singleton]
        exact Expr.everywhere_of_leaf rfl trivial
    | _ => cases hgroup
  | _ => cases hgroup

/-- A clause can be tested where all variables of its operand have values. -/
theorem exists_holds {c : Clause α} (h : c.operand.VariablesIn fun name => (b.get? name).isSome) :
    ∃ r, c.holds b = .ok r := by
  obtain ⟨v, hv⟩ := Expr.exists_value c.operand h
  exact ⟨c.test v, by rw [holds, hv]; rfl⟩

/-- A clause without variables that has a truth has it everywhere. -/
theorem holds_of_constantTruth {c : Clause α} {truth : Bool} (h : c.constantTruth? = some truth) :
    c.holds b = .ok truth := by
  rw [constantTruth?] at h
  split at h
  · cases h
  · rename_i hnames
    rw [Bool.not_eq_true, Bool.not_eq_false'] at hnames
    have hvalue := Expr.value_eq_of_no_variables b .empty c.operand
      (Expr.no_variables_of_variableNames hnames)
    split at h
    · cases h
    · rename_i v hv
      split at h
      · cases h
      · rw [holds, hvalue, hv]
        exact congrArg Except.ok (Option.some.inj h)

/-- A clause on a variable has no truth everywhere. -/
theorem constantTruth_var (name : String) (modulus : Option (Number α)) (comparator : Comparator)
    (threshold : Number α) :
    constantTruth? ⟨.var name, modulus, comparator, threshold⟩ = none := by
  simp [constantTruth?, Expr.variableNames, Expr.postOrder, Expr.postOrderOnto, List.eraseReps,
    List.eraseRepsBy, List.eraseRepsBy.loop]

/-- A clause on an expression that settles at a variable is tidied to one on the variable. -/
theorem tidy_var {c : Clause α} {name : String}
    (h : Reduction.canonicalForm limits c.operand = .ok (.var name)) :
    c.tidy limits = .ok { c with operand := .var name } := by
  rw [tidy, h]
  simp [bind, Except.bind, pure, Except.pure, zeroCore]

end Clause

namespace Exclusions

open Clause

/-- A group of clauses that hold holds. -/
theorem groupHolds_of_forall {group : List (Clause α)} (h : ∀ c ∈ group, c.holds b = .ok true) :
    groupHolds b group = .ok true := by
  induction group with
  | nil => rfl
  | cons c group ih =>
    rw [List.forall_mem_cons] at h
    rw [groupHolds, h.1]
    exact ih h.2

/-- A group of clauses that can be tested can be tested. -/
theorem exists_groupHolds {group : List (Clause α)} (h : ∀ c ∈ group, ∃ r, c.holds b = .ok r) :
    ∃ r, groupHolds b group = .ok r := by
  induction group with
  | nil => exact ⟨true, rfl⟩
  | cons c group ih =>
    rw [List.forall_mem_cons] at h
    obtain ⟨⟨r, hr⟩, hgroup⟩ := h
    rw [groupHolds, hr]
    cases r with
    | false => exact ⟨false, rfl⟩
    | true => exact ih hgroup

/-- Whether a point is excluded can be told where all clauses can be tested. -/
theorem exists_excludes {x : Exclusions α}
    (htested : x.ForallClauses fun c => ∃ r, c.holds b = .ok r) : ∃ r, x.excludes b = .ok r := by
  obtain ⟨groups⟩ := x
  induction groups with
  | nil => exact ⟨false, rfl⟩
  | cons group groups ih =>
    obtain ⟨hgroup, hgroups⟩ := List.forall_mem_cons.mp htested
    obtain ⟨r, hr⟩ := exists_groupHolds hgroup
    rw [excludes, someGroupHolds, hr]
    cases r with
    | true => exact ⟨true, rfl⟩
    | false => exact ih hgroups

/-- A point is excluded where one group holds and all clauses can be tested. -/
theorem excludes_of_groupHolds {x : Exclusions α}
    (htested : x.ForallClauses fun c => ∃ r, c.holds b = .ok r) {group : List (Clause α)}
    (hgroup : group ∈ x.groups) (h : groupHolds b group = .ok true) : x.excludes b = .ok true := by
  rw [excludes]
  obtain ⟨groups⟩ := x
  induction groups with
  | nil => cases hgroup
  | cons first groups ih =>
    have htested := List.forall_mem_cons.mp htested
    obtain ⟨r, hr⟩ := exists_groupHolds htested.1
    rw [someGroupHolds, hr]
    cases r with
    | true => rfl
    | false =>
      obtain rfl | hgroup := List.mem_cons.mp hgroup
      · rw [h] at hr
        cases hr
      · exact ih htested.2 hgroup

/-- What is kept of a group are tidied clauses of it without a truth everywhere. -/
theorem forall_kept_tidyGroup {p : Clause α → Prop} {group kept : List (Clause α)}
    (hp : ∀ c ∈ group, ∀ c', c.tidy limits = .ok c' → c'.constantTruth? = none → p c')
    (h : tidyGroup limits group = .ok (some kept)) : ∀ c ∈ kept, p c := by
  induction group generalizing kept with
  | nil =>
    cases h
    exact fun _ h => nomatch h
  | cons c group ih =>
    rw [List.forall_mem_cons] at hp
    rw [tidyGroup] at h
    obtain ⟨c', hc', h⟩ := Reduction.ok_of_bind h
    split at h
    · cases h
    · exact ih hp.2 h
    · rename_i hundecided
      obtain ⟨rest, hrest, h⟩ := Reduction.ok_of_bind h
      obtain ⟨kept', rfl, rfl⟩ := Option.map_eq_some_iff.mp (Except.ok.inj h)
      rw [List.forall_mem_cons]
      exact ⟨hp.1 c' hc' hundecided, ih hp.2 hrest⟩

/-- What is kept of a group are tidied clauses of it. -/
theorem forall_tidyGroup {p : Clause α → Prop} {group kept : List (Clause α)}
    (hp : ∀ c ∈ group, ∀ c', c.tidy limits = .ok c' → p c')
    (h : tidyGroup limits group = .ok (some kept)) : ∀ c ∈ kept, p c :=
  forall_kept_tidyGroup (fun c hc c' hc' _ => hp c hc c' hc') h

/-- A group whose clauses hold once they are tidied is kept. -/
theorem exists_tidyGroup {group : List (Clause α)} {found : Option (List (Clause α))}
    (hp : ∀ c ∈ group, ∀ c', c.tidy limits = .ok c' → c'.holds b = .ok true)
    (h : tidyGroup limits group = .ok found) : ∃ kept, found = some kept := by
  induction group generalizing found with
  | nil =>
    cases h
    exact ⟨[], rfl⟩
  | cons c group ih =>
    rw [List.forall_mem_cons] at hp
    rw [tidyGroup] at h
    obtain ⟨c', hc', h⟩ := Reduction.ok_of_bind h
    split at h
    · rename_i htruth
      have hholds := hp.1 c' hc'
      rw [holds_of_constantTruth htruth] at hholds
      cases hholds
    · exact ih hp.2 h
    · obtain ⟨rest, hrest, h⟩ := Reduction.ok_of_bind h
      obtain ⟨kept, rfl⟩ := ih hp.2 hrest
      exact ⟨c' :: kept, (Except.ok.inj h).symm⟩

/-- Clauses on expressions that settle at variables are all kept. -/
theorem tidyGroup_var {c : Clause α} {group kept : List (Clause α)} {name : String}
    (h : Reduction.canonicalForm limits c.operand = .ok (.var name))
    (hgroup : tidyGroup limits group = .ok (some kept)) :
    tidyGroup limits (c :: group) = .ok (some ({ c with operand := .var name } :: kept)) := by
  rw [tidyGroup, tidy_var h]
  simp only [bind, Except.bind, constantTruth_var, hgroup]
  rfl

/-- Tidied groups are what is kept of the groups. -/
theorem forall₂_tidyGroups {groups tidied : List (List (Clause α))}
    (h : tidyGroups limits groups = .ok tidied) :
    ∃ found, List.Forall₂ (fun group kept => tidyGroup limits group = .ok kept) groups found ∧
      tidied = found.flatMap Option.toList := by
  induction groups generalizing tidied with
  | nil =>
    cases h
    exact ⟨[], .nil, rfl⟩
  | cons group groups ih =>
    rw [tidyGroups] at h
    obtain ⟨kept, hkept, h⟩ := Reduction.ok_of_bind h
    obtain ⟨rest, hrest, h⟩ := Reduction.ok_of_bind h
    obtain ⟨found, hfound, rfl⟩ := ih hrest
    exact ⟨kept :: found, .cons hkept hfound, (Except.ok.inj h).symm⟩

/-- What is kept of groups are tidied clauses of them without a truth everywhere. -/
theorem forall_kept_tidyGroups {p : Clause α → Prop} {groups tidied : List (List (Clause α))}
    (hp : ∀ group ∈ groups, ∀ c ∈ group, ∀ c', c.tidy limits = .ok c' →
      c'.constantTruth? = none → p c')
    (h : tidyGroups limits groups = .ok tidied) : ∀ kept ∈ tidied, ∀ c ∈ kept, p c := by
  obtain ⟨found, hfound, rfl⟩ := forall₂_tidyGroups h
  intro kept hkept
  obtain ⟨r, hr, hkept⟩ := List.mem_flatMap.mp hkept
  obtain rfl := Option.mem_toList.mp hkept
  have hgroups := Reduction.forall_of_forall₂
    (q := fun r => ∀ kept, r = some kept → ∀ c ∈ kept, p c) hfound ?_
  · exact hgroups _ hr kept rfl
  · rintro group hgroup r hr kept rfl
    exact forall_kept_tidyGroup (hp group hgroup) hr

/-- What is kept of groups are tidied clauses of them. -/
theorem forall_tidyGroups {p : Clause α → Prop} {groups tidied : List (List (Clause α))}
    (hp : ∀ group ∈ groups, ∀ c ∈ group, ∀ c', c.tidy limits = .ok c' → p c')
    (h : tidyGroups limits groups = .ok tidied) : ∀ kept ∈ tidied, ∀ c ∈ kept, p c :=
  forall_kept_tidyGroups (fun group hgroup c hc c' hc' _ => hp group hgroup c hc c' hc') h

/-- Tidied exclusions have only tidied clauses without a truth everywhere. -/
theorem ForallClauses.kept_tidy {p : Clause α → Prop} {x y : Exclusions α}
    (hx : x.ForallClauses fun c => ∀ c', c.tidy limits = .ok c' → c'.constantTruth? = none → p c')
    (h : x.tidy limits = .ok y) : y.ForallClauses p := by
  rw [Exclusions.tidy] at h
  obtain ⟨tidied, htidied, h⟩ := Reduction.ok_of_bind h
  cases h
  exact ForallClauses.insertAll (fun _ h => nomatch h) (forall_kept_tidyGroups hx htidied)

/-- Tidied exclusions have tidied clauses only. -/
theorem ForallClauses.tidy {p : Clause α → Prop} {x y : Exclusions α}
    (hx : x.ForallClauses fun c => ∀ c', c.tidy limits = .ok c' → p c')
    (h : x.tidy limits = .ok y) : y.ForallClauses p :=
  kept_tidy (fun group hgroup c hc c' hc' _ => hx group hgroup c hc c' hc') h

variable [Scalar.Lawful α]

/-- What is kept of a group is covered by the tidied exclusions. -/
theorem covers_tidy {x y : Exclusions α} (h : x.tidy limits = .ok y) {group : List (Clause α)}
    (hgroup : group ∈ x.groups)
    (hholds : ∀ c ∈ group, ∀ c', c.tidy limits = .ok c' → c'.holds b = .ok true) :
    ∃ kept, tidyGroup limits group = .ok (some kept) ∧ y.Covers kept := by
  rw [tidy] at h
  obtain ⟨tidied, htidied, h⟩ := Reduction.ok_of_bind h
  cases h
  obtain ⟨found, hfound, rfl⟩ := forall₂_tidyGroups htidied
  obtain ⟨r, hr, hfoundr⟩ := Reduction.forall_of_forall₂
    (q := fun group => ∃ r ∈ found, tidyGroup limits group = .ok r) hfound.flip
    (fun r hr group h => ⟨r, hr, h⟩) group hgroup
  obtain ⟨kept, rfl⟩ := exists_tidyGroup hholds hfoundr
  refine ⟨kept, hfoundr, covers_insertAll_of_mem ?_ empty⟩
  exact List.mem_flatMap.mpr ⟨some kept, hr, by simp⟩

end Exclusions

end SymbolicAlgebra
