import SymbolicAlgebra.Proofs.Reduction.Settling
import SymbolicAlgebra.Proofs.Exact.Exclusion

/-!
# Canonical forms over exact numbers

Where an expression breaks a condition that its exclusions record, it has no value outside of them,
and where it has a value and is not excluded, its canonical form has the same. Both hold as long as
no coefficient is dropped while like terms are combined, no logarithm of literals is rounded to a
whole number that it is not, and no clause loses its value to a power of zero.
-/

namespace SymbolicAlgebra.Expr

open Exact Projective Reduction

variable {b : Bindings Exact} {limits : Limits}

/-- Tidying keeps every clause that a stage of the run of an expression contributes, as far as it
holds at a point where its operand is defined: it drops no coefficient and rounds no logarithm. -/
def KeepsClauses (limits : Limits) (b : Bindings Exact) (e : Expr Exact) : Prop :=
  ∀ found, settle limits e = .ok found → (collectAll found.stages).Kept limits b

/-- A point where a stage breaks a recorded condition is excluded. -/
theorem excludes_of_recorded {e : Expr Exact} {stages : List (Expr Exact)} {y : Exclusions Exact}
    (htidy : (collectAll stages).tidy limits = .ok y)
    (hbound : ∀ x ∈ stages, x.VariablesIn fun name => (b.get? name).isSome)
    (hkept : (collectAll stages).Kept limits b) (he : e ∈ stages) {x : Expr Exact}
    (hx : x ∈ e.postOrder) (hrecorded : Recorded b x) : y.excludes b = .ok true := by
  obtain ⟨group, hgroup, hholds⟩ := Exclusions.exists_group_of_recorded hrecorded
  refine Exclusions.excludes_of_covers htidy ?_ hkept
    (Exclusions.covers_collectAll he hx hgroup) hholds
  refine Exclusions.ForallClauses.collectAll fun e he x hx => ?_
  exact Clause.variablesIn_groupsOf ((hbound e he).node hx)

/-- One is a literal. -/
theorem real?_one : (one : Expr Exact).real? = some (.number 1) := by
  simp [one, real, real?, Number.real?, Number.literal]

/-- A variable above and below the line is a common base. -/
theorem common?_quotient : Fraction.common? [(var "x" : Expr Exact)] [var "x"] =
    some ⟨var "x", one, one, [], []⟩ := by
  have hx : ((var "x" : Expr Exact) == var "x") = true := beq_iff.mpr (order_self _)
  simp [Fraction.common?, Fraction.takeBase?, powerParts, hx, isZero, isReal, real?]

/-- A variable divided by itself is simplified to one. -/
theorem simplify_quotient (fuel : ℕ) :
    (simplify (fuel + 4) (dividedBy (var "x") (var "x") : Expr Exact)).Returns one := by
  have hcancel : (cancel (fuel + 2) ⟨.one, [var "x"], [var "x"], false⟩).Returns
      (⟨.one, [], [], false⟩ : Fraction Exact) := by
    rw [cancel, common?_quotient]
    simp [real?_one, cancel, Fraction.common?]
  have hfinish : (Fraction.finish ⟨.one, [], [], false⟩).value = (one : Expr Exact) := by
    simp [Fraction.finish, Coefficient.isZero, Coefficient.one, sort, Fraction.collapse,
      Coefficient.value, number_div, one]
  have hvar : (Reducing.mapList (simplify (fuel + 3)) [(var "x" : Expr Exact)]).Returns
      [var "x"] := ⟨_, rfl, rfl⟩
  rw [dividedBy, simplify, Reducing.returns_bind]
  refine ⟨_, hvar, Reducing.returns_bind.mpr ⟨_, hvar, ?_⟩⟩
  simp only [productRule, Reducing.returns_bind, Reducing.returns_liftM]
  exact ⟨_, rfl, _, rfl, _, hcancel, hfinish⟩

/-- No logarithm is rounded where a variable is divided by itself. -/
theorem unrounded_quotient :
    (Call.simplify (dividedBy (var "x") (var "x") : Expr Exact)).Unrounded := by
  -- the exponents of the common base are both one, so that nothing is left for it
  have hleaves {side : Side} {exponent : Expr Exact} :
      ¬ (⟨var "x", one, one, [], []⟩ : Fraction.Common Exact).Leaves side exponent := by
    intro h
    cases h with
    | above hu hl hpos =>
      cases real?_one.symm.trans hu
      cases real?_one.symm.trans hl
      simp at hpos
    | below hu hl _ hneg =>
      cases real?_one.symm.trans hu
      cases real?_one.symm.trans hl
      simp at hneg
    | symbolic h => simp [real?_one] at h
  have hcancel : (Call.cancel (⟨.one, [var "x"], [var "x"], false⟩ : Fraction Exact)).Unrounded := by
    refine Call.unrounded_of_callees (fun _ _ h => nomatch h) fun callee hmakes => ?_
    cases hmakes with
    | leave hcommon h =>
      cases common?_quotient.symm.trans hcommon
      exact (hleaves h).elim
    | restore hcommon h _ =>
      cases common?_quotient.symm.trans hcommon
      exact (hleaves h).elim
    | drop hcommon _ _ _ _ =>
      cases common?_quotient.symm.trans hcommon
      exact Call.throughout_cancel_apart rfl
  have hproduct : (Call.product .one [(var "x" : Expr Exact)] [var "x"]).Unrounded := by
    refine Call.unrounded_of_callees (fun _ _ h => nomatch h) fun callee hmakes => ?_
    cases hmakes with
    | gather => exact hcancel
  have hself : List.Forall₂ Simplifies [(var "x" : Expr Exact)] [var "x"] :=
    .cons (results_closed.var "x") .nil
  refine Call.unrounded_of_callees (fun _ _ h => nomatch h) fun callee hmakes => ?_
  cases hmakes with
  | child ha =>
    obtain rfl : _ = var "x" := by simpa [dividedBy, children] using ha
    exact Call.throughout_simplify_var "x"
  | multiply hn hd =>
    obtain rfl := results_unique hself hn (fun _ _ h => h) fun _ _ _ => Simplifies.unique
    obtain rfl := results_unique hself hd (fun _ _ h => h) fun _ _ _ => Simplifies.unique
    exact hproduct

/-- A variable settles at once. -/
theorem settle_var {α : Type} [Scalar α] [Scalar.Lawful α] (name : String) :
    ∃ steps, settle {} (var name : Expr α) =
      .ok ⟨var name, [var name, var name, var name, var name], steps⟩ :=
  Round.settle_self ⟨⟨_, rfl, rfl⟩, ⟨_, rfl, rfl⟩, ⟨_, rfl, rfl⟩⟩ rfl (by decide)

/-- A variable is in canonical form. -/
theorem canonicalForm_var {α : Type} [Scalar α] [Scalar.Lawful α] (name : String) :
    canonicalForm {} (var name : Expr α) = .ok (var name) := by
  obtain ⟨steps, hsettle⟩ := settle_var (α := α) name
  rw [canonicalForm, hsettle]
  rfl

/-- A variable divided by itself settles at one after two rounds. -/
theorem settle_quotient : ∃ steps, settle {} (dividedBy (var "x") (var "x") : Expr Exact) =
    .ok ⟨one, [dividedBy (var "x") (var "x"), one, one, one, one, one, one], steps⟩ := by
  have hone : Round (one : Expr Exact) one one one :=
    ⟨⟨_, rfl, rfl⟩, ⟨_, rfl, rfl⟩, ⟨_, rfl, rfl⟩⟩
  have hquotient : Round (dividedBy (var "x") (var "x") : Expr Exact) one one one :=
    ⟨simplify_quotient 7996, hone.merged, hone.again⟩
  exact hquotient.settle_next hone rfl (by simp; exact ⟨rfl, rfl⟩) (by decide)

/-- A variable divided by itself contributes that the variable must not be zero. -/
theorem collectAll_quotient {es : List (Expr Exact)} (h : ∀ e ∈ es, e = one) :
    collectAll (dividedBy (var "x") (var "x") :: es) =
      ⟨[[.plain (var "x") .eq Scalar.zero]]⟩ := by
  rw [Exclusions.collectAll_cons_of_groupsOf]
  · change Exclusions.mk [Exclusions.normalGroup (Exclusions.normalGroup _)] = _
    rw [Exclusions.normalGroup_singleton, Exclusions.normalGroup_singleton]
  · intro e he x hx
    rw [h e he] at hx
    obtain rfl : x = one := by simpa [one, real, postOrder, postOrderOnto] using hx
    rfl

/-- The canonical form of a variable divided by itself is one where the variable is not zero. -/
theorem canonicalize_quotient :
    ∃ steps, (dividedBy (var "x") (var "x") : Expr Exact).canonicalize {} =
      .ok ⟨one, ⟨[[.plain (var "x") .eq Scalar.zero]]⟩, steps⟩ := by
  obtain ⟨steps, hsettle⟩ := settle_quotient
  refine ⟨steps, ?_⟩
  have hgroup : Exclusions.tidyGroup {} [(.plain (var "x") .eq Scalar.zero : Clause Exact)] =
      .ok (some [.plain (var "x") .eq Scalar.zero]) :=
    Exclusions.tidyGroup_var (canonicalForm_var "x") rfl
  rw [canonicalize, hsettle]
  change ((collectAll _).tidy {} >>= _) = _
  rw [collectAll_quotient (by simp), Exclusions.tidy, Exclusions.tidyGroups, hgroup]
  change Except.ok (Canonical.mk _ (Exclusions.mk [Exclusions.normalGroup _]) _) = _
  rw [Exclusions.normalGroup_singleton]

/-- Tidying keeps the only clause of a variable divided by itself. -/
theorem keepsClauses_quotient {r : ℝ} :
    KeepsClauses {} ⟨[("x", .number r)]⟩ (dividedBy (var "x") (var "x")) := by
  intro found hfound
  obtain ⟨steps, hsettle⟩ := settle_quotient
  rw [hsettle] at hfound
  cases hfound
  rw [collectAll_quotient (by simp), Exclusions.Kept, Exclusions.ForallClauses,
    List.forall_mem_singleton, List.forall_mem_singleton]
  intro _ _
  obtain ⟨steps, hvariable⟩ := settle_var (α := Exact) "x"
  constructor
  · intro found hfound
    rw [Clause.plain, hvariable] at hfound
    cases hfound
    have hvar : (Call.simplify (var "x" : Expr Exact)).Unrounded := Call.throughout_simplify_var "x"
    refine ⟨fun x hx => ?_, hvar, fun op hop => ?_, hvar, trivial⟩
    · obtain rfl : x = var "x" := by simpa [combined] using hx
      intro y hy
      obtain rfl : y = var "x" := by simpa [postOrder, postOrderOnto] using hy
      trivial
    · exact absurd hop (not_mergePerforms_var _ _ op)
  · intro e he _
    rw [Clause.plain, canonicalForm, hvariable] at he
    cases he
    exact ⟨r, rfl⟩

/-- Where a node breaks a recorded condition there is no value outside of the exclusions, if tidying
keeps the clauses that hold there. -/
theorem valueOutside_of_recorded {e : Expr Exact} {k : Canonical Exact}
    (h : e.canonicalize limits = .ok k)
    (hbound : e.VariablesIn fun name => (b.get? name).isSome) (hkept : KeepsClauses limits b e)
    (hrecorded : ∃ x ∈ e.postOrder, Recorded b x) :
    k.exclusions.valueOutside k.expr b = .ok missing := by
  obtain ⟨found, hfound, -, htidy⟩ := settle_of_canonicalize h
  obtain ⟨stages, hstages, hrun⟩ := settling_of_settle hfound
  obtain ⟨x, hx, hrecorded⟩ := hrecorded
  have hvariables : ∀ x ∈ found.stages, x.VariablesIn fun name => (b.get? name).isSome := by
    rw [hstages, List.forall_mem_cons]
    exact ⟨hbound, variablesIn_settling hrun hbound⟩
  have hmem : e ∈ found.stages := by
    rw [hstages]
    exact List.mem_cons_self
  rw [Exclusions.valueOutside,
    excludes_of_recorded htidy hvariables (hkept found hfound) hmem hx hrecorded]
  rfl

/-- Where a variable is zero it has no quotient with itself outside of the exclusions. -/
theorem valueOutside_of_recorded_quotient :
    let e : Expr Exact := dividedBy (var "x") (var "x")
    let b : Bindings Exact := ⟨[("x", .number 0)]⟩
    ∃ k, e.canonicalize {} = .ok k ∧ (e.VariablesIn fun name => (b.get? name).isSome) ∧
      KeepsClauses {} b e ∧ (∃ x ∈ e.postOrder, Recorded b x) ∧
      k.exclusions.valueOutside k.expr b = .ok missing := by
  intro e b
  obtain ⟨steps, hk⟩ := canonicalize_quotient
  have hx : (var "x" : Expr Exact).value b = .ok (.number 0) := rfl
  have hbound : e.VariablesIn fun name => (b.get? name).isSome := by
    refine variablesIn_product.mpr ⟨?_, ?_⟩
    · exact List.forall_mem_singleton.mpr (variablesIn_of_value hx)
    · exact List.forall_mem_singleton.mpr (variablesIn_of_value hx)
  have hrecorded : ∃ x ∈ e.postOrder, Recorded b x :=
    ⟨e, mem_postOrder.mpr (.inl rfl), .divisor List.mem_cons_self
      (everywhere_iff.mpr ⟨⟨0, hx⟩, fun _ h => nomatch h⟩) hx⟩
  exact ⟨_, hk, hbound, keepsClauses_quotient, hrecorded,
    valueOutside_of_recorded hk hbound keepsClauses_quotient hrecorded⟩

section Doubles

/-- A variable and two numbers that cancel each other. -/
def cancelledSum : Expr Float :=
  .sum [.var "z", .real (Scalar.ofInt 1), .real (Scalar.ofInt (-1))]

/-- Zero times a power, divided by such a sum. -/
def vanishingQuotient : Expr Float :=
  .product ⟨Scalar.ofInt 0, Scalar.ofInt 1⟩ [.power (.var "x") (.var "y")] [cancelledSum]

/-- The clauses that a power contributes, here of a variable to another. -/
def powerClauses : List (Clause Float) :=
  [.plain (.var "x") .lt Scalar.zero, .modulo (.var "y") (.literal Scalar.one) .ne Scalar.zero]

/-- Adding up the numbers leaves the variable of the sum. -/
theorem simplify_cancelledSum (fuel : ℕ) :
    (simplify (fuel + 2) cancelledSum).Returns (.var "z") := by
  have horder : (Scalar.order (Scalar.unsignZero (Scalar.ofInt 1) : Float)
      (Scalar.unsignZero (Scalar.ofInt (-1))) != .gt) = false := rfl
  have htotal : total [(Scalar.unsignZero (Scalar.ofInt 1) : Float),
      Scalar.unsignZero (Scalar.ofInt (-1))] =
      Scalar.zero + Scalar.unsignZero (Scalar.ofInt (-1)) + Scalar.unsignZero (Scalar.ofInt 1) := by
    simp [total, List.mergeSort, List.MergeSort.Internal.splitInTwo, horder]
  have hzero : Scalar.eq ((Scalar.zero : Float) + Scalar.unsignZero (Scalar.ofInt (-1)) +
      Scalar.unsignZero (Scalar.ofInt 1)) Scalar.zero = true := by decide +kernel
  rw [cancelledSum, simplify, Reducing.returns_bind]
  refine ⟨_, ⟨_, rfl, rfl⟩, ?_⟩
  rw [Reducing.returns_liftM]
  change collapseSum (sort (if Scalar.eq (total [(Scalar.unsignZero (Scalar.ofInt 1) : Float),
    Scalar.unsignZero (Scalar.ofInt (-1))]) Scalar.zero then [.var "z"] else _)) = _
  rw [htotal, if_pos hzero, sort, List.mergeSort_singleton]
  rfl

/-- The quotient is simplified to zero. -/
theorem simplify_vanishingQuotient (fuel : ℕ) :
    (simplify (fuel + 4) vanishingQuotient).Returns zero := by
  have hdivisors : (Reducing.mapList (simplify (fuel + 3)) [cancelledSum]).Returns [.var "z"] := by
    rw [Reducing.returns_mapList]
    exact .cons (simplify_cancelledSum (fuel + 1)) .nil
  rw [vanishingQuotient, simplify, Reducing.returns_bind]
  refine ⟨[.power (.var "x") (.var "y")], ⟨_, rfl, rfl⟩, ?_⟩
  exact Reducing.returns_bind.mpr ⟨_, hdivisors, _, rfl, rfl⟩

/-- The sum settles at its variable. -/
theorem canonicalForm_cancelledSum : canonicalForm {} cancelledSum = .ok (.var "z") := by
  have hvar : Round (var "z" : Expr Float) (var "z") (var "z") (var "z") :=
    ⟨⟨_, rfl, rfl⟩, ⟨_, rfl, rfl⟩, ⟨_, rfl, rfl⟩⟩
  have hsum : Round cancelledSum (var "z") (var "z") (var "z") :=
    ⟨simplify_cancelledSum 13822, hvar.merged, hvar.again⟩
  have hsettle : ∃ steps, settle {} cancelledSum =
      .ok ⟨var "z", [cancelledSum, var "z", var "z", var "z", var "z", var "z", var "z"], steps⟩ :=
    hsum.settle_next hvar rfl (by simp; exact ⟨rfl, rfl⟩) (by decide)
  obtain ⟨steps, hsettle⟩ := hsettle
  rw [canonicalForm, hsettle]
  rfl

/-- The quotient settles at zero. -/
theorem settle_vanishingQuotient : ∃ steps, settle {} vanishingQuotient =
    .ok ⟨zero, [vanishingQuotient, zero, zero, zero, zero, zero, zero], steps⟩ := by
  have hbound : nestingBound vanishingQuotient.size = 63996 + 4 := by decide
  have hfirst : (simplified vanishingQuotient).Returns zero := by
    rw [simplified, hbound]
    exact simplify_vanishingQuotient 63996
  have hzero : Round (zero : Expr Float) zero zero zero :=
    ⟨⟨_, rfl, rfl⟩, ⟨_, rfl, rfl⟩, ⟨_, rfl, rfl⟩⟩
  have hquotient : Round vanishingQuotient zero zero zero := ⟨hfirst, hzero.merged, hzero.again⟩
  exact hquotient.settle_next hzero rfl (by simp; exact ⟨rfl, rfl⟩) (by decide)

/-- A group of one clause is added to the clauses of a power. -/
theorem insertAll_powerClauses {c : Clause Float}
    (h : (c == .plain (.var "x") .lt Scalar.zero) = false) :
    Exclusions.insertAll [powerClauses, [c]] .empty = ⟨[powerClauses, [c]]⟩ := by
  have hnormal : Exclusions.normalGroup powerClauses = powerClauses :=
    Exclusions.normalGroup_pair rfl
  have hnew : List.contains [powerClauses] [c] = false := by simp [powerClauses, h]
  rw [Exclusions.insertAll, List.foldl_cons, List.foldl_cons, List.foldl_nil, Exclusions.insert,
    Exclusions.insert, hnormal, Exclusions.normalGroup_singleton]
  change (if List.contains [powerClauses] [c] then _ else _) = _
  rw [hnew]
  rfl

/-- The quotient contributes the clauses of the power, and that the sum must not be zero. -/
theorem collectAll_vanishingQuotient {es : List (Expr Float)} (h : ∀ e ∈ es, e = zero) :
    collectAll (vanishingQuotient :: es) =
      ⟨[powerClauses, [.plain cancelledSum .eq Scalar.zero]]⟩ := by
  rw [Exclusions.collectAll_cons_of_groupsOf]
  · change Exclusions.insertAll (Exclusions.insertAll [powerClauses, [_]] .empty).groups .empty = _
    rw [insertAll_powerClauses rfl, insertAll_powerClauses rfl]
  · intro e he x hx
    rw [h e he] at hx
    obtain rfl : x = zero := by simpa [zero, real, postOrder, postOrderOnto] using hx
    rfl

/-- The canonical form of the quotient is zero, unless the clauses of the power hold or the variable
of the sum is zero. -/
theorem canonicalize_vanishingQuotient : ∃ steps, vanishingQuotient.canonicalize {} =
    .ok ⟨zero, ⟨[powerClauses, [.plain (.var "z") .eq Scalar.zero]]⟩, steps⟩ := by
  obtain ⟨steps, hsettle⟩ := settle_vanishingQuotient
  refine ⟨steps, ?_⟩
  have hpower : Exclusions.tidyGroup {} powerClauses = .ok (some powerClauses) :=
    Exclusions.tidyGroup_var (canonicalForm_var "x")
      (Exclusions.tidyGroup_var (canonicalForm_var "y") rfl)
  have hsum : Exclusions.tidyGroup {} [.plain cancelledSum .eq Scalar.zero] =
      .ok (some [.plain (.var "z") .eq Scalar.zero]) :=
    Exclusions.tidyGroup_var canonicalForm_cancelledSum rfl
  rw [canonicalize, hsettle]
  change ((collectAll _).tidy {} >>= _) = _
  rw [collectAll_vanishingQuotient (by simp), Exclusions.tidy, Exclusions.tidyGroups,
    Exclusions.tidyGroups, Exclusions.tidyGroups, hpower, hsum]
  change Except.ok (Canonical.mk _ (Exclusions.insertAll [powerClauses, [_]] .empty) _) = _
  rw [insertAll_powerClauses rfl]

/-- Over doubles a point is not excluded where a negative base has an exponent that is closer to an
integer than the tolerance, nor where a divisor is zero only because a sum is rounded. There the
canonical form has a value, which the expression itself has not. -/
theorem valueOutside_of_tolerated_and_rounded :
    let tolerated : Bindings Float :=
      ⟨[("x", Scalar.ofInt (-1)), ("y", Scalar.ofDecimal ⟨1, -10⟩), ("z", Scalar.ofInt 1)]⟩
    let rounded : Bindings Float :=
      ⟨[("x", Scalar.ofInt 1), ("y", Scalar.ofInt 1), ("z", Scalar.ofDecimal ⟨1, -17⟩)]⟩
    ∃ k, vanishingQuotient.canonicalize {} = .ok k ∧
      (Scalar.isWhole (Scalar.ofDecimal ⟨1, -10⟩ : Float) = false ∧
        ∃ v w, vanishingQuotient.value tolerated = .ok v ∧ Scalar.isNaN v = true ∧
          k.exclusions.valueOutside k.expr tolerated = .ok w ∧ Scalar.isNaN w = false) ∧
      (∃ divisor, cancelledSum.value rounded = .ok divisor ∧
        Scalar.eq divisor Scalar.zero = true ∧
        ∃ v w, vanishingQuotient.value rounded = .ok v ∧ Scalar.isNaN v = true ∧
          k.exclusions.valueOutside k.expr rounded = .ok w ∧ Scalar.isNaN w = false) := by
  intro tolerated rounded
  obtain ⟨steps, hk⟩ := canonicalize_vanishingQuotient
  refine ⟨_, hk, ⟨by decide +kernel, ?_⟩, _, rfl, by decide +kernel, ?_⟩
  · have hexponent : (Clause.modulo (.var "y") (.literal Scalar.one) .ne Scalar.zero).holds
        tolerated = .ok false := congrArg Except.ok (by decide +kernel)
    have hpoint : Exclusions.excludes ⟨[powerClauses, [.plain (.var "z") .eq Scalar.zero]]⟩
        tolerated = .ok false := by
      rw [Exclusions.excludes, Exclusions.someGroupHolds, powerClauses, Exclusions.groupHolds,
        Exclusions.groupHolds, hexponent]
      rfl
    refine ⟨_, Scalar.unsignZero Scalar.zero, rfl, by decide +kernel, ?_, rfl⟩
    rw [Exclusions.valueOutside, hpoint]
    rfl
  · have hpoint : Exclusions.excludes ⟨[powerClauses, [.plain (.var "z") .eq Scalar.zero]]⟩
        rounded = .ok false := rfl
    refine ⟨_, Scalar.unsignZero Scalar.zero, rfl, by decide +kernel, ?_, rfl⟩
    rw [Exclusions.valueOutside, hpoint]
    rfl

end Doubles

/-- Where an expression has a value and is not excluded its canonical form has the same value,
unless it raises zero to a negative power. This holds if no coefficient is dropped and no logarithm
rounded on the way to it and to the clauses that hold there. -/
theorem value_canonicalize {e : Expr Exact} {k : Canonical Exact} {r : ℝ}
    (h : e.canonicalize limits = .ok k) (hvalue : e.value b = .ok (.number r))
    (hpoint : k.exclusions.excludes b = .ok false)
    (hunrecorded : ∀ x ∈ e.postOrder, ¬ Unrecorded b x)
    (hlossless : LosslessRun limits e) (hkept : KeepsClauses limits b e) :
    k.expr.value b = .ok (.number r) ∨
      (k.expr.value b = .ok missing ∧ ∃ x ∈ k.expr.postOrder, x.ZeroPower b) := by
  obtain ⟨found, hfound, hlast, htidy⟩ := settle_of_canonicalize h
  obtain ⟨stages, hstages, hrun⟩ := settling_of_settle hfound
  have hbound := variablesIn_of_value hvalue
  have hvariables : ∀ x ∈ found.stages, x.VariablesIn fun name => (b.get? name).isSome := by
    rw [hstages, List.forall_mem_cons]
    exact ⟨hbound, variablesIn_settling hrun hbound⟩
  have hmem : e ∈ found.stages := by
    rw [hstages]
    exact List.mem_cons_self
  have hunbroken : ∀ x ∈ e.postOrder, ¬ Recorded b x := by
    intro x hx hrecorded
    rw [excludes_of_recorded htidy hvariables (hkept found hfound) hmem hx hrecorded] at hpoint
    cases hpoint
  have hform : canonicalForm limits e = .ok k.expr := by
    rw [canonicalForm, hfound, ← hlast]
    rfl
  exact value_canonicalForm hform hlossless (defined_of_unbroken hbound hunbroken hunrecorded)
    hvalue

/-- Where a variable is two, the canonical form of its quotient with itself has the same value. -/
theorem value_canonicalize_quotient :
    let e : Expr Exact := dividedBy (var "x") (var "x")
    let b : Bindings Exact := ⟨[("x", .number 2)]⟩
    ∃ k, e.canonicalize {} = .ok k ∧ e.value b = .ok (.number 1) ∧
      k.exclusions.excludes b = .ok false ∧ (∀ x ∈ e.postOrder, ¬ Unrecorded b x) ∧
      LosslessRun {} e ∧ KeepsClauses {} b e ∧
      (k.expr.value b = .ok (.number 1) ∨
        (k.expr.value b = .ok missing ∧ ∃ x ∈ k.expr.postOrder, x.ZeroPower b)) := by
  intro e b
  obtain ⟨steps, hk⟩ := canonicalize_quotient
  have hx : (var "x" : Expr Exact).value b = .ok (.number 2) := rfl
  have hvalue : e.value b = .ok (.number 1) := by
    change Except.ok (productValue .one [Exact.number 2] [Exact.number 2]) = _
    simp [productValue, Coefficient.one, number_div]
  have hpoint : Exclusions.excludes
      (⟨[[.plain (var "x") .eq Scalar.zero]]⟩ : Exclusions Exact) b = .ok false := by
    have hholds : (Clause.plain (var "x") .eq Scalar.zero : Clause Exact).holds b = .ok false := by
      rw [Clause.holds_of_value hx]
      simp [Clause.test, Clause.plain, Scalar.isNaN, Number.literal, Number.value]
    rw [Exclusions.excludes, Exclusions.someGroupHolds, Exclusions.groupHolds, hholds]
    rfl
  have hunrecorded : ∀ x ∈ e.postOrder, ¬ Unrecorded b x := by
    intro x hmem h
    obtain rfl | rfl : x = var "x" ∨ x = product .one [var "x"] [var "x"] := by
      simpa [e, dividedBy, postOrder, postOrderOnto, postOrderListOnto] using hmem
    · cases h with
      | zeroPower h => obtain ⟨_, _, _, _, h, _⟩ := h; cases h
      | var h => cases h
    · cases h with
      | zeroPower h => obtain ⟨_, _, _, _, h, _⟩ := h; cases h
      | coefficient h => simp [Coefficient.value, Coefficient.one, number_div] at h
  have hlossless : LosslessRun {} e := by
    intro found hfound
    obtain ⟨steps, hsettle⟩ := settle_quotient
    rw [hsettle] at hfound
    cases hfound
    have hone : (Call.simplify (one : Expr Exact)).Unrounded := Call.throughout_simplify_number _
    have hmerge (fuel : ℕ) : ∀ op, MergePerforms fuel (one : Expr Exact) op → op.Unrounded :=
      fun op hop => absurd hop (not_mergePerforms_number _ _ op)
    refine ⟨fun x hmem => ?_, unrounded_quotient, hmerge _, hone, hone, hmerge _, hone, trivial⟩
    obtain rfl : x = one := by simpa [combined] using hmem
    intro y hy
    obtain rfl : y = one := by simpa [one, real, postOrder, postOrderOnto] using hy
    trivial
  exact ⟨_, hk, hvalue, hpoint, hunrecorded, hlossless, keepsClauses_quotient,
    value_canonicalize hk hvalue hpoint hunrecorded hlossless keepsClauses_quotient⟩

end SymbolicAlgebra.Expr
