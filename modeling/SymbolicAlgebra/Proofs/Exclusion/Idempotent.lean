import SymbolicAlgebra.Proofs.Canonical.Idempotent
import SymbolicAlgebra.Proofs.Exclusion.Distinct

/-!
# Tidying again

The operand of a tidied clause is a part of a canonical form, which is a canonical form itself under the
same limits, and nothing more can be stripped from it. So tidying gives a tidied clause back, and tidied
exclusions too, as their groups are in normal form already and none of their clauses has a truth
everywhere.
-/

namespace SymbolicAlgebra

variable {α : Type} [Scalar α] {limits : Limits}

namespace Clause

/-- What holds at every node holds at every node of what is left when stripping. -/
theorem Core.everywhere {p : Expr α → Prop} {e core : Expr α} (h : Core e core)
    (he : e.Everywhere p) : core.Everywhere p := by
  induction h with
  | refl => exact he
  | power _ _ ih => exact ih ((Expr.everywhere_iff.mp he).2 _ (by simp [Expr.children]))
  | product _ ih => exact ih ((Expr.everywhere_iff.mp he).2 _ (by simp [Expr.children]))

/-- Stripping makes an expression neither larger nor deeper. -/
theorem Core.size_depth_le {e core : Expr α} (h : Core e core) :
    core.size ≤ e.size ∧ core.depth ≤ e.depth := by
  induction h with
  | refl => exact ⟨le_refl _, le_refl _⟩
  | @power base exponent core _ _ ih =>
    have hchild : base ∈ (Expr.power base exponent).children := by simp [Expr.children]
    exact ⟨ih.1.trans (Expr.size_lt_of_mem_children hchild).le,
      ih.2.trans (Expr.depth_lt_of_mem_children hchild).le⟩
  | @product c e core _ ih =>
    have hchild : e ∈ (Expr.product c [e] []).children := by simp [Expr.children]
    exact ⟨ih.1.trans (Expr.size_lt_of_mem_children hchild).le,
      ih.2.trans (Expr.depth_lt_of_mem_children hchild).le⟩

/-- Nothing can be stripped from the expression: it is no power to a positive literal and no product of
one factor. -/
def Stripped (e : Expr α) : Prop :=
  (∀ base exponent, e = .power base exponent → isPositive exponent = false) ∧
    ∀ c factor, e ≠ .product c [factor] []

/-- A product is stripped unless it has one factor above the line and none below. -/
theorem stripped_product {c : Coefficient α} {n d : List (Expr α)}
    (h : ∀ factor, ¬ (n = [factor] ∧ d = [])) : Stripped (.product c n d) := by
  constructor
  · intro _ _ hpower
    cases hpower
  · intro _ factor hproduct
    cases hproduct
    exact h factor ⟨rfl, rfl⟩

/-- Stripping goes on until nothing can be stripped. -/
theorem stripped_zeroCore (e : Expr α) : Stripped (zeroCore e) := by
  have ih (child : Expr α) (hchild : child ∈ e.children) : Stripped (zeroCore child) :=
    stripped_zeroCore child
  cases e with
  | power base exponent =>
    rw [zeroCore]
    split
    · exact ih base (by simp [Expr.children])
    · rename_i hpositive
      constructor
      · intro _ _ hpower
        cases hpower
        exact Bool.eq_false_iff.mpr hpositive
      · intro _ _ hproduct
        cases hproduct
  | product c n d =>
    rw [zeroCore]
    obtain _ | ⟨e, _ | ⟨e', n⟩⟩ := n
    · exact stripped_product (by simp)
    · cases d with
      | nil => exact ih e (by simp [Expr.children])
      | cons e' d => exact stripped_product (by simp)
    · exact stripped_product (by simp)
  | _ => constructor <;> intro _ _ hshape <;> cases hshape
termination_by e.size
decreasing_by exact Expr.size_lt_of_mem_children hchild

/-- An expression from which nothing can be stripped is what decides whether it is zero. -/
theorem zeroCore_of_stripped {e : Expr α} (h : Stripped e) : zeroCore e = e := by
  cases e with
  | power base exponent => rw [zeroCore, h.1 base exponent rfl, if_neg Bool.false_ne_true]
  | product c n d =>
    rw [zeroCore]
    obtain _ | ⟨e, _ | ⟨e', n⟩⟩ := n
    · rfl
    · cases d with
      | nil => exact absurd rfl (h.2 c e)
      | cons e' d => rfl
    · rfl
  | _ => rfl

section Unital

variable [Scalar.Unital α]

/-- What is left of a canonical form when it is stripped is its own canonical form, under the same
limits. -/
theorem Core.canonicalForm {raw e core : Expr α} (h : Core e core)
    (he : Reduction.canonicalForm limits raw = .ok e) :
    Reduction.canonicalForm limits core = .ok core := by
  rw [Reduction.canonicalForm] at he
  obtain ⟨found, hfound, he⟩ := Reduction.ok_of_bind he
  cases he
  obtain ⟨hsize, hrounds⟩ := Reduction.limits_of_settle hfound
  obtain ⟨stages, -, hrun⟩ := Reduction.settling_of_settle hfound
  obtain ⟨hstable, hunlike, -⟩ := hrun.reduced
  have hround : Reduction.Round core core core core :=
    Reduction.round_self (h.everywhere hstable) (h.everywhere hunlike)
  obtain ⟨hsmaller, hflatter⟩ := h.size_depth_le
  have hlimits : Reduction.checkSize limits core = .ok () := by
    rw [Reduction.checkSize] at hsize ⊢
    split at hsize
    · cases hsize
    · split at hsize
      · cases hsize
      · rw [if_neg (by omega), if_neg (by omega)]
  obtain ⟨steps, hsettle⟩ := hround.settle_self hlimits hrounds
  rw [Reduction.canonicalForm, hsettle]
  rfl

/-- Tidying gives a tidied clause back. -/
theorem tidy_of_tidy {c c' : Clause α} (h : c.tidy limits = .ok c') : c'.tidy limits = .ok c' := by
  obtain ⟨e, he, rfl⟩ := of_tidy h
  have hcore : Core e (if c.testsZero then zeroCore e else e) := by
    split
    · exact core_zeroCore e
    · exact .refl e
  have hstripped : (if c.testsZero then zeroCore (if c.testsZero then zeroCore e else e)
      else if c.testsZero then zeroCore e else e) = if c.testsZero then zeroCore e else e := by
    split
    · exact zeroCore_of_stripped (stripped_zeroCore e)
    · rfl
  rw [tidy, hcore.canonicalForm he]
  exact congrArg (fun e => Except.ok { c with operand := e }) hstripped

end Unital

/-- Nothing can be stripped from a tidied clause that asks whether its operand is zero. -/
theorem stripped_of_tidy {c c' : Clause α} (h : c.tidy limits = .ok c') (hzero : c'.testsZero = true) :
    Stripped c'.operand := by
  obtain ⟨e, -, rfl⟩ := of_tidy h
  have hzero' : c.testsZero = true := hzero
  simp only [hzero', if_true]
  exact stripped_zeroCore e

end Clause

namespace Exclusions

open Clause

/-- A group whose clauses tidying gives back, without a truth everywhere, is kept as it is. -/
theorem tidyGroup_self {group : List (Clause α)}
    (h : ∀ c ∈ group, c.tidy limits = .ok c ∧ c.constantTruth? = none) :
    tidyGroup limits group = .ok (some group) := by
  induction group with
  | nil => rfl
  | cons c group ih =>
    obtain ⟨⟨htidy, htruth⟩, hgroup⟩ := List.forall_mem_cons.mp h
    rw [tidyGroup, htidy]
    simp only [bind, Except.bind, htruth, ih hgroup]
    rfl

/-- Groups of such clauses are all kept as they are. -/
theorem tidyGroups_self {groups : List (List (Clause α))}
    (h : ∀ group ∈ groups, ∀ c ∈ group, c.tidy limits = .ok c ∧ c.constantTruth? = none) :
    tidyGroups limits groups = .ok groups := by
  induction groups with
  | nil => rfl
  | cons group groups ih =>
    obtain ⟨hgroup, hgroups⟩ := List.forall_mem_cons.mp h
    rw [tidyGroups, tidyGroup_self hgroup, ih hgroups]
    rfl

/-- Tidied exclusions are tidied to themselves, under the same limits and with the same groups and
clauses in the same order. None of their clauses has a truth everywhere, and where one asks whether its
operand is zero, that is no power to a positive literal and no product of one factor. -/
theorem tidy_tidied [Scalar.Unital α] {x y : Exclusions α} (h : x.tidy limits = .ok y) :
    y.tidy limits = .ok y ∧ y.ForallClauses fun c =>
      c.constantTruth? = none ∧ (c.testsZero = true → Stripped c.operand) := by
  have hclauses : y.ForallClauses fun c => (c.tidy limits = .ok c ∧ c.constantTruth? = none) ∧
      (c.testsZero = true → Stripped c.operand) :=
    ForallClauses.kept_tidy
      (fun group hgroup c hc c' hc' htruth => ⟨⟨tidy_of_tidy hc', htruth⟩, stripped_of_tidy hc'⟩) h
  refine ⟨?_, fun group hgroup c hc => ?_⟩
  · rw [tidy, tidyGroups_self fun group hgroup c hc => (hclauses group hgroup c hc).1]
    exact congrArg Except.ok (distinct_tidy h).insertAll_groups
  · obtain ⟨⟨-, htruth⟩, hstripped⟩ := hclauses group hgroup c hc
    exact ⟨htruth, hstripped⟩

/-- The conditions that a square and its base are not zero become one, which stays as it is. -/
theorem tidy_tidied_square :
    let square : Expr Float := .power (.var "x") (.number (.real (Scalar.ofInt 2)))
    let pole : Clause Float := .plain (.var "x") .eq Scalar.zero
    let x : Exclusions Float := ⟨[[.plain square .eq Scalar.zero], [pole]]⟩
    let y : Exclusions Float := ⟨[[pole]]⟩
    x.tidy {} = .ok y ∧ y.tidy {} = .ok y ∧ y.ForallClauses fun c =>
      c.constantTruth? = none ∧ (c.testsZero = true → Stripped c.operand) := by
  intro square pole x y
  have hstable : Reduction.Stable square := by
    refine Reduction.stable_power.mpr ⟨⟨rfl, rfl, fun _ _ => trivial⟩, ?_, ?_⟩
    · exact Reduction.stable_var _
    · exact Reduction.stable_number _
  have hunlike : Reduction.Unlike square :=
    (Expr.everywhere_power trivial).mpr ⟨Reduction.unlike_var _, Reduction.unlike_number _⟩
  have hcanonical : Reduction.canonicalForm {} square = .ok square := by
    have hsize : Reduction.checkSize {} square = .ok () := rfl
    obtain ⟨steps, hsettle⟩ :=
      (Reduction.round_self hstable hunlike).settle_self hsize (by decide)
    rw [Reduction.canonicalForm, hsettle]
    rfl
  have hsquare : tidyGroup {} [plain square .eq Scalar.zero] = .ok (some [pole]) := by
    have hclause : (plain square .eq Scalar.zero).tidy {} = .ok pole := by
      change (Reduction.canonicalForm {} square >>= _) = _
      rw [hcanonical]
      rfl
    rw [tidyGroup, hclause]
    simp only [bind, Except.bind, pole, plain, constantTruth_var]
    rfl
  have hpole : tidyGroup {} [pole] = .ok (some [pole]) := tidyGroup_var rfl rfl
  have htidy : x.tidy {} = .ok y := by
    rw [tidy, tidyGroups, hsquare, tidyGroups, hpole]
    simp [tidyGroups, bind, Except.bind, pure, Except.pure, insertAll, Exclusions.insert,
      Exclusions.empty, normalGroup_singleton, y]
  exact ⟨htidy, tidy_tidied htidy⟩

end Exclusions

end SymbolicAlgebra
