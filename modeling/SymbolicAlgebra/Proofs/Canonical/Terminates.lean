import SymbolicAlgebra.Proofs.Canonical.Unlimited
import SymbolicAlgebra.Proofs.Reduction.MergeHalting

/-!
# Every expression settles

No round adds weight, and one that takes none away ends with an expression that every pass gives
back. So two rounds more than the weight of an expression are enough for it to settle. Limits that
are large enough are not hit then: every expression can be reduced, and so can the operands of all
clauses that its stages contribute. What they settle at is in normal form, since simplification
comes last.
-/

namespace SymbolicAlgebra

namespace Reduction

open SymbolicAlgebra.Expr

variable {α : Type} [Scalar α] [Scalar.Signed α]

/-- Every expression goes through a round. -/
theorem round_halts (e : Expr α) : ∃ first second third, Round e first second third := by
  obtain ⟨first, hfirst⟩ := simplified_halts e
  obtain ⟨second, hsecond⟩ := merged_halts first
  obtain ⟨third, hthird⟩ := simplified_halts second
  exact ⟨first, second, third, hfirst, hsecond, hthird⟩

/-- Repeated rounds settle at an expression that every pass gives back, under all limits that leave
so many rounds and that no stage exceeds. -/
def SettlesWithin (n : ℕ) (e : Expr α) : Prop :=
  ∃ stages last, Settling e stages last ∧ Round last last last last ∧
    ∀ (limits : Limits) (count : ℕ), n ≤ count →
      (∀ stage ∈ stages, checkSize limits stage = .ok ()) →
        ∃ steps, rounds limits count e = .ok ⟨last, stages, steps⟩

omit [Scalar.Signed α] in
/-- More rounds may be left. -/
theorem SettlesWithin.mono {n m : ℕ} {e : Expr α} (h : SettlesWithin n e) (hle : n ≤ m) :
    SettlesWithin m e := by
  obtain ⟨stages, last, hsettling, hlast, hrounds⟩ := h
  exact ⟨stages, last, hsettling, hlast, fun limits count hcount =>
    hrounds limits count (hle.trans hcount)⟩

/-- One round is enough if its result counts as equal. -/
theorem Round.settlesWithin_one {e first second third : Expr α} (h : Round e first second third)
    (hsame : (third == e) = true) : SettlesWithin 1 e := by
  obtain ⟨-, -, hlast⟩ := h.reduced.2 (weight_eq_of_beq hsame)
  exact ⟨_, third, .last h hsame, hlast, fun limits count hcount hsize =>
    h.rounds_last hsame hsize hcount⟩

omit [Scalar.Signed α] in
/-- One round more is enough than for its result. -/
theorem Round.settlesWithin_succ {n : ℕ} {e first second third : Expr α}
    (h : Round e first second third) (hchanged : (third == e) = false)
    (hthird : SettlesWithin n third) : SettlesWithin (n + 1) e := by
  obtain ⟨stages, last, hsettling, hlast, hrounds⟩ := hthird
  refine ⟨_, last, .next h hsettling, hlast, fun limits count hcount hsize => ?_⟩
  obtain ⟨count, rfl⟩ := Nat.exists_eq_add_one.mpr (Nat.zero_lt_of_lt hcount)
  simp only [List.forall_mem_cons] at hsize
  obtain ⟨hfirst, hsecond, hthird, hstages⟩ := hsize
  obtain ⟨steps, hrest⟩ := hrounds limits count (Nat.le_of_succ_le_succ hcount) hstages
  exact h.rounds_next hchanged (by simp [hfirst, hsecond, hthird]) hrest

/-- Two rounds more than an expression weighs are enough. -/
theorem settlesWithin_weight (e : Expr α) : SettlesWithin (e.weight + 2) e := by
  induction hweight : e.weight using Nat.strongRecOn generalizing e with
  | ind weight ih =>
    subst hweight
    obtain ⟨first, second, third, round⟩ := round_halts e
    cases hsame : third == e with
    | true => exact (round.settlesWithin_one hsame).mono (by omega)
    | false =>
      refine round.settlesWithin_succ hsame ?_
      -- The result is lighter, or the next round is the last one.
      obtain ⟨hle, hlast⟩ := round.reduced
      obtain hlt | hweight := Nat.lt_or_eq_of_le hle
      · exact (ih _ hlt third rfl).mono (by omega)
      · obtain ⟨-, -, hlast⟩ := hlast hweight
        exact (hlast.settlesWithin_one (beq_self third)).mono (by omega)

/-- A reduction settles at an expression that every pass gives back, under all limits that leave two
rounds more than the expression has nodes and that no stage exceeds. -/
theorem exists_settle (e : Expr α) : ∃ stages last, Settling e stages last ∧
    Round last last last last ∧ ∀ limits : Limits, e.size + 2 ≤ limits.maxRounds →
      (∀ stage ∈ e :: stages, checkSize limits stage = .ok ()) →
        ∃ steps, settle limits e = .ok ⟨last, e :: stages, steps⟩ := by
  obtain ⟨stages, last, hsettling, hlast, hrounds⟩ := settlesWithin_weight e
  refine ⟨stages, last, hsettling, hlast, fun limits hcount hsize => ?_⟩
  rw [List.forall_mem_cons] at hsize
  have hweight : e.weight ≤ e.size := (weight_le_heft e).trans (heft_le_size e)
  obtain ⟨steps, hrun⟩ := hrounds limits limits.maxRounds (by omega) hsize.2
  exact ⟨steps, settle_of_rounds hsize.1 hrun⟩

/-- Under all limits that are large enough, a reduction goes through the same stages. -/
theorem eventually_settle (e : Expr α) :
    ∃ stages last, ∀ᶠ limits in Filter.atTop, ∃ steps,
      settle limits e = .ok ⟨last, stages, steps⟩ := by
  obtain ⟨stages, last, -, -, hsettle⟩ := exists_settle e
  refine ⟨e :: stages, last, ?_⟩
  have hsize : ∀ᶠ limits in Filter.atTop, ∀ stage ∈ e :: stages, checkSize limits stage = .ok () :=
    Limits.eventually_forall_mem fun stage _ => eventually_checkSize stage
  filter_upwards [hsize, Filter.eventually_ge_atTop (⟨0, 0, e.size + 2⟩ : Limits)]
    with limits hsize hlimits
  exact hsettle limits hlimits.2.2 hsize

/-- Every expression can be reduced. -/
theorem terminates (e : Expr α) : Terminates e := by
  obtain ⟨stages, last, hsettle⟩ := eventually_settle e
  exact hsettle.mono fun _ ⟨steps, h⟩ => ⟨_, h⟩

/-- Repeated rounds always reach an expression that the next round leaves as it is: with two rounds
more than the expression has nodes, and with limits on size and depth that none of its stages
exceeds, that one is its canonical form. -/
theorem canonicalForm_settles (e : Expr Float) :
    ∃ stages last, Settling e stages last ∧ Round last last last last ∧
      ∀ limits : Limits, e.size + 2 ≤ limits.maxRounds →
        (∀ stage ∈ e :: stages, checkSize limits stage = .ok ()) →
          canonicalForm limits e = .ok last := by
  obtain ⟨stages, last, hsettling, hlast, hsettle⟩ := exists_settle e
  refine ⟨stages, last, hsettling, hlast, fun limits hrounds hsize => ?_⟩
  obtain ⟨steps, hfound⟩ := hsettle limits hrounds hsize
  rw [canonicalForm, hfound]
  rfl

/-- A variable added to itself has a canonical form that the next round leaves as it is. -/
theorem canonicalForm_settles_double :
    ∃ limits last, canonicalForm limits (.sum [.var "x", .var "x"] : Expr Float) = .ok last ∧
      Round last last last last := by
  obtain ⟨stages, last, -, hlast, hform⟩ := canonicalForm_settles (.sum [.var "x", .var "x"])
  have hsize : ∀ᶠ limits in Filter.atTop, ∀ stage ∈ .sum [.var "x", .var "x"] :: stages,
      checkSize limits stage = .ok () :=
    Limits.eventually_forall_mem fun stage _ => eventually_checkSize stage
  obtain ⟨limits, hsize, hlimits⟩ :=
    (hsize.and (Filter.eventually_ge_atTop (⟨0, 0, 5⟩ : Limits))).exists
  exact ⟨limits, last, hform limits hlimits.2.2 hsize, hlast⟩

end Reduction

namespace Expr

open Reduction in
/-- Every expression has a canonical form under all limits that are large enough. -/
theorem canonicalize_total {α : Type} [Scalar α] [Scalar.Signed α] (e : Expr α) :
    ∃ last, ∀ᶠ limits in Filter.atTop, ∃ k, e.canonicalize limits = .ok k ∧ k.expr = last := by
  obtain ⟨stages, last, hsettle⟩ := eventually_settle e
  refine ⟨last, ?_⟩
  have hoperands := Limits.eventually_forall_mem fun stage (_ : stage ∈ stages) =>
    Limits.eventually_forall_mem fun x (_ : x ∈ stage.postOrder) =>
      Limits.eventually_forall_mem fun group (_ : group ∈ Exclusions.groupsOf x) =>
        Limits.eventually_forall_mem fun c (_ : c ∈ group) => terminates c.operand
  filter_upwards [hsettle, hoperands] with limits hsettle hoperands
  obtain ⟨steps, hfound⟩ := hsettle
  obtain ⟨x, hx⟩ := Exclusions.exists_tidy (.collectAll hoperands)
  exact ⟨_, canonicalize_of_settle hfound hx, rfl⟩

/-- Simplified expressions are in normal form at every node, and so are canonical ones, whose last
pass is simplification. -/
theorem simplified_and_canonical_normal (e : Expr Float) :
    (∀ fuel e', (Reduction.simplify fuel e).Returns e' → e'.Normal) ∧
      ∀ limits k, e.canonicalize limits = .ok k → k.expr.Normal := by
  refine ⟨fun fuel e' h => Reduction.simplify_normal h, fun limits k h => ?_⟩
  obtain ⟨found, hfound, hvalue, -⟩ := settle_of_canonicalize h
  obtain ⟨stages, -, hrun⟩ := Reduction.settling_of_settle hfound
  obtain ⟨second, hlast⟩ := hrun.simplified
  rw [← hvalue]
  exact Reduction.simplify_normal hlast

/-- A computation that has a result gives it. -/
theorem ok_of_toOption {β : Type} {x : Except Failure β} {b : β} (h : x.toOption = some b) :
    x = .ok b := by
  cases x with
  | error failure => cases h
  | ok c =>
    cases h
    rfl

/-- Three halves of the cube of a square over a higher power: the exponents are multiplied, the
common base is cancelled, and what is left is a quotient, which is the canonical form too. -/
theorem simplified_and_canonical_normal_quotient :
    let literal (n : Int) : Expr Float := .real (Scalar.ofInt n)
    let e : Expr Float := .product ⟨Scalar.ofInt 3, Scalar.ofInt 2⟩
      [.power (.power (.var "x") (literal 2)) (literal 3)] [.power (.var "x") (literal 8)]
    let e' : Expr Float :=
      .product ⟨Scalar.ofInt 3, Scalar.ofInt 2⟩ [] [.power (.var "x") (literal 2)]
    (∃ s, (Reduction.simplify 5 e).Returns s ∧ (s == e') = true ∧ s.Normal) ∧
      ∃ k, e.canonicalize {} = .ok k ∧ (k.expr == e') = true ∧ k.expr.Normal := by
  intro literal e e'
  have hsimplify :
      (Reduction.simplify 5 e).result?.map (fun found => found.value == e') = some true := by
    decide +kernel
  -- The operands of the clauses of all stages can be reduced too, so there are exclusions
  have hsettle : (Reduction.settle {} e).toOption.map (fun found => found.value == e' &&
      found.stages.all fun stage => stage.postOrder.all fun x =>
        (Exclusions.groupsOf x).all fun group => group.all fun c =>
          (Reduction.settle {} c.operand).toOption.isSome) = some true := by
    decide +kernel
  obtain ⟨found, hfound, hvalue⟩ := Option.map_eq_some_iff.mp hsimplify
  obtain ⟨settled, hsettled, hstages⟩ := Option.map_eq_some_iff.mp hsettle
  simp only [Bool.and_eq_true, List.all_eq_true] at hstages
  obtain ⟨x, hx⟩ : ∃ x, (collectAll settled.stages).tidy {} = .ok x :=
    Exclusions.exists_tidy <| .collectAll fun stage hstage x hx group hgroup c hc =>
      (Option.isSome_iff_exists.mp (hstages.2 stage hstage x hx group hgroup c hc)).imp fun _ h =>
        ok_of_toOption h
  have hcanonical := canonicalize_of_settle (ok_of_toOption hsettled) hx
  obtain ⟨simplified, canonical⟩ := simplified_and_canonical_normal e
  exact ⟨⟨_, ⟨found, hfound, rfl⟩, hvalue, simplified 5 _ ⟨found, hfound, rfl⟩⟩,
    _, hcanonical, hstages.1, canonical {} _ hcanonical⟩

end Expr

end SymbolicAlgebra
