import SymbolicAlgebra.Proofs.Canonical.Idempotent
import SymbolicAlgebra.Proofs.Reduction.Combined

/-!
# Limits that are not hit

Whether an expression can be reduced at all, once the limits are large enough. An expression of which a
round makes one with nothing left to reduce settles there, and it has a canonical form if the operands
of all clauses that its nodes contribute can be reduced too.
-/

namespace SymbolicAlgebra

/-- Limits are compared bound by bound. -/
instance : Preorder Limits :=
  .lift fun limits => (limits.maxNodes, limits.maxDepth, limits.maxRounds)

instance : IsDirectedOrder Limits where
  directed a b := by
    refine ⟨⟨max a.maxNodes b.maxNodes, max a.maxDepth b.maxDepth, max a.maxRounds b.maxRounds⟩,
      ⟨?_, ?_, ?_⟩, ?_, ?_, ?_⟩
    · exact le_max_left _ _
    · exact le_max_left _ _
    · exact le_max_left _ _
    · exact le_max_right _ _
    · exact le_max_right _ _
    · exact le_max_right _ _

instance : Nonempty Limits := ⟨{}⟩

variable {α : Type} [Scalar α]

/-- What holds for each member of a list under limits that are large enough holds for all of them at
once. -/
theorem Limits.eventually_forall_mem {β : Type} {bs : List β} {p : Limits → β → Prop}
    (h : ∀ b ∈ bs, ∀ᶠ limits in Filter.atTop, p limits b) :
    ∀ᶠ limits in Filter.atTop, ∀ b ∈ bs, p limits b :=
  (Filter.eventually_all_finite (List.finite_toSet bs)).mpr h

namespace Reduction

omit [Scalar α] in
/-- Every expression is within limits that are large enough. -/
theorem eventually_checkSize (e : Expr α) :
    ∀ᶠ limits in Filter.atTop, checkSize limits e = .ok () := by
  rw [Filter.eventually_atTop]
  refine ⟨⟨e.size, e.depth, 0⟩, fun limits h => ?_⟩
  obtain ⟨hsize, hdepth, -⟩ := h
  rw [checkSize, if_neg (Nat.not_lt.mpr hsize), if_neg (Nat.not_lt.mpr hdepth)]

/-- The expression can be reduced under all limits that are large enough. -/
def Terminates (e : Expr α) : Prop :=
  ∀ᶠ limits in Filter.atTop, ∃ found, settle limits e = .ok found

/-- The operands of the clauses that the node contributes can be reduced. -/
def ClausesTerminate (e : Expr α) : Prop :=
  ∀ group ∈ Exclusions.groupsOf e, ∀ c ∈ group, Terminates c.operand

/-- An expression of which a round makes one that rounds give back settles at that one. -/
theorem Round.eventually_settle [Scalar.Lawful α] {e first second third : Expr α}
    (h : Round e first second third) (hnext : Round third third third third) :
    ∀ᶠ limits in Filter.atTop, ∃ found, settle limits e = .ok found ∧ found.value = third ∧
      found.stages ⊆ [e, first, second, third] := by
  have hsize : ∀ᶠ limits in Filter.atTop, ∀ x ∈ [e, first, second, third],
      checkSize limits x = .ok () :=
    Limits.eventually_forall_mem fun x _ => eventually_checkSize x
  filter_upwards [hsize, Filter.eventually_ge_atTop (⟨0, 0, 2⟩ : Limits)] with limits hsize hlimits
  obtain ⟨-, -, hrounds⟩ := hlimits
  cases hsame : third == e with
  | true =>
    obtain ⟨steps, hsettle⟩ := h.settle_last hsame hsize (Nat.lt_of_succ_lt hrounds)
    exact ⟨_, hsettle, rfl, List.Subset.refl _⟩
  | false =>
    obtain ⟨steps, hsettle⟩ := h.settle_next hnext hsame hsize hrounds
    exact ⟨_, hsettle, rfl, by simp⟩

/-- Such an expression can be reduced. -/
theorem Round.terminates [Scalar.Lawful α] {e first second third : Expr α}
    (h : Round e first second third) (hnext : Round third third third third) : Terminates e :=
  (h.eventually_settle hnext).mono fun _ hsettle => hsettle.imp fun _ h => h.1

end Reduction

namespace Exclusions

/-- A group can be tidied if the operands of its clauses can be reduced. -/
theorem exists_tidyGroup_of_settle {limits : Limits} {group : List (Clause α)}
    (h : ∀ c ∈ group, ∃ found, Reduction.settle limits c.operand = .ok found) :
    ∃ kept, tidyGroup limits group = .ok kept := by
  induction group with
  | nil => exact ⟨some [], rfl⟩
  | cons c group ih =>
    rw [List.forall_mem_cons] at h
    obtain ⟨⟨found, hfound⟩, hgroup⟩ := h
    obtain ⟨kept, hkept⟩ := ih hgroup
    have htidy : ∃ c', c.tidy limits = .ok c' := by
      rw [Clause.tidy, Reduction.canonicalForm, hfound]
      exact ⟨_, rfl⟩
    obtain ⟨c', hc'⟩ := htidy
    rw [tidyGroup, hc']
    simp only [bind, Except.bind]
    split
    · exact ⟨none, rfl⟩
    · exact ⟨kept, hkept⟩
    · rw [hkept]
      exact ⟨_, rfl⟩

/-- Exclusions can be tidied if the operands of their clauses can be reduced. -/
theorem exists_tidy {limits : Limits} {x : Exclusions α}
    (h : x.ForallClauses fun c => ∃ found, Reduction.settle limits c.operand = .ok found) :
    ∃ y, x.tidy limits = .ok y := by
  obtain ⟨tidied, htidied, -⟩ := exists_tidyGroups fun group hgroup =>
    exists_tidyGroup_of_settle (h group hgroup)
  rw [tidy, htidied]
  exact ⟨_, rfl⟩

end Exclusions

namespace Expr

open Reduction in
/-- An expression of which a round makes one that rounds give back has that as its canonical form, if
the operands of all clauses on the way can be reduced. -/
theorem eventually_canonicalize [Scalar.Lawful α] {e first second third : Expr α}
    (h : Round e first second third) (hnext : Round third third third third)
    (hclauses : ∀ stage ∈ [e, first, second, third], stage.Everywhere ClausesTerminate) :
    ∀ᶠ limits in Filter.atTop, ∃ k, e.canonicalize limits = .ok k ∧ k.expr = third := by
  have hoperands := Limits.eventually_forall_mem fun stage hstage =>
    Limits.eventually_forall_mem fun x hx => Limits.eventually_forall_mem fun group hgroup =>
      Limits.eventually_forall_mem (hclauses stage hstage x hx group hgroup)
  filter_upwards [h.eventually_settle hnext, hoperands] with limits hsettle hoperands
  obtain ⟨found, hfound, hvalue, hstages⟩ := hsettle
  have hcollected : (collectAll found.stages).ForallClauses fun c =>
      ∃ found, settle limits c.operand = .ok found :=
    .collectAll fun stage hstage => hoperands stage (hstages hstage)
  obtain ⟨x, hx⟩ := Exclusions.exists_tidy hcollected
  exact ⟨_, canonicalize_of_settle hfound hx, hvalue⟩

end Expr

end SymbolicAlgebra
