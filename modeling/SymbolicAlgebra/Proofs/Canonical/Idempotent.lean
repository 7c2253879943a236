import SymbolicAlgebra.Proofs.Canonical.Reduced
import SymbolicAlgebra.Proofs.Exclusion.Identity

/-!
# Canonicalizing again

A second run starts from an expression that every pass gives back, so all its stages are that
expression. It is a stage of the first run and so stays within the limits, and its nodes contribute
groups that the first run has collected and tidied already.
-/

namespace SymbolicAlgebra

namespace Reduction

variable {α : Type} [Scalar α] {limits : Limits}

/-- All stages of a round that does not fail stay within the limits. -/
theorem checkSize_of_round {e : Expr α} {found : Settled α} (h : round limits e = .ok found) :
    ∀ stage ∈ found.stages, checkSize limits stage = .ok () := by
  rw [round] at h
  obtain ⟨first, -, h⟩ := ok_of_bind h
  obtain ⟨⟨⟩, hfirst, h⟩ := ok_of_bind h
  obtain ⟨second, -, h⟩ := ok_of_bind h
  obtain ⟨⟨⟩, hsecond, h⟩ := ok_of_bind h
  obtain ⟨third, -, h⟩ := ok_of_bind h
  obtain ⟨⟨⟩, hthird, h⟩ := ok_of_bind h
  cases h
  simp only [List.forall_mem_cons]
  exact ⟨hfirst, hsecond, hthird, by simp⟩

/-- All stages of repeated rounds that do not fail stay within the limits. -/
theorem checkSize_of_rounds {count : Nat} {e : Expr α} {found : Settled α}
    (h : rounds limits count e = .ok found) :
    ∀ stage ∈ found.stages, checkSize limits stage = .ok () := by
  induction count generalizing e found with
  | zero => cases h
  | succ count ih =>
    rw [rounds] at h
    obtain ⟨next, hnext, h⟩ := ok_of_bind h
    split at h
    · cases h
      exact checkSize_of_round hnext
    · obtain ⟨last, hlast, h⟩ := ok_of_bind h
      cases h
      rw [List.forall_mem_append]
      exact ⟨checkSize_of_round hnext, ih hlast⟩

/-- What a reduction settles at stays within the limits, and there was a round. -/
theorem limits_of_settle {e : Expr α} {found : Settled α} (h : settle limits e = .ok found) :
    checkSize limits found.value = .ok () ∧ 0 < limits.maxRounds := by
  rw [settle] at h
  obtain ⟨-, -, h⟩ := ok_of_bind h
  obtain ⟨run, hrun, h⟩ := ok_of_bind h
  cases h
  refine ⟨checkSize_of_rounds hrun _ (settling_of_rounds hrun).last_mem, ?_⟩
  rw [Nat.pos_iff_ne_zero]
  intro hnone
  rw [hnone] at hrun
  cases hrun

end Reduction

namespace Expr

open Exclusions

/-- An expression that settles, with exclusions that can be tidied, has a canonical form. -/
theorem canonicalize_of_settle {α : Type} [Scalar α] {limits : Limits} {e : Expr α}
    {found : Reduction.Settled α} {x : Exclusions α} (h : Reduction.settle limits e = .ok found)
    (hx : (collectAll found.stages).tidy limits = .ok x) :
    e.canonicalize limits = .ok ⟨found.value, x, found.steps⟩ := by
  rw [canonicalize, h]
  change (Exclusions.tidy limits (collectAll found.stages) >>= _) = _
  rw [hx]
  rfl

/-- Canonicalizing a canonical expression again, under the same limits, succeeds. It gives the same
expression, and all groups of its exclusions are groups of the first run's, provided that clauses
which count as equal in the first run are the same. -/
theorem canonicalize_canonical {limits : Limits} {e : Expr Float} {k : Canonical Float}
    {found : Reduction.Settled Float} (h : e.canonicalize limits = .ok k)
    (hrun : Reduction.settle limits e = .ok found) (hraw : Identified (Contributed found.stages))
    (htidied : Identified (Tidied limits found.stages)) :
    ∃ k', k.expr.canonicalize limits = .ok k' ∧ k'.expr = k.expr ∧
      ∀ group ∈ k'.exclusions.groups, group ∈ k.exclusions.groups := by
  obtain ⟨found', hfound, hvalue, hexclusions⟩ := settle_of_canonicalize h
  obtain rfl := Except.ok.inj (hrun.symm.trans hfound)
  obtain ⟨hsize, hrounds⟩ := Reduction.limits_of_settle hrun
  obtain ⟨stages, hstages, hsettling⟩ := Reduction.settling_of_settle hrun
  rw [hvalue] at hsize hsettling
  obtain ⟨-, -, round⟩ := hsettling.reduced
  obtain ⟨steps, hagain⟩ := round.settle_self hsize hrounds
  have hmem : k.expr ∈ found.stages := hstages ▸ List.mem_cons_of_mem e hsettling.last_mem
  have hsubset : [k.expr, k.expr, k.expr, k.expr] ⊆ found.stages := by simpa using hmem
  obtain ⟨y, hy, hgroups⟩ := tidy_subset htidied forallClauses_collectAll hexclusions
    (collectAll_subset hraw hsubset)
  exact ⟨⟨k.expr, y, steps⟩, canonicalize_of_settle hagain hy, rfl,
    fun group hgroup => hgroups hgroup⟩

open Reduction in
/-- The reciprocal of a variable, written with the literal one above the line, and its canonical form
are both undefined only where the variable is zero. -/
theorem canonicalize_canonical_reciprocal :
    let e : Expr Float := .product .one [.one] [.var "x"]
    let pole : Clause Float := .plain (.var "x") .eq Scalar.zero
    ∃ k found, e.canonicalize {} = .ok k ∧ settle {} e = .ok found ∧
      Identified (Contributed found.stages) ∧ Identified (Tidied {} found.stages) ∧
      k.exclusions.groups = [[pole]] ∧
      ∃ k', k.expr.canonicalize {} = .ok k' ∧ k'.expr = k.expr ∧
        ∀ group ∈ k'.exclusions.groups, group ∈ k.exclusions.groups := by
  intro e pole
  let p : Expr Float := .product .one [] [.var "x"]
  have hp : Stable p := by
    refine stable_product.mpr ⟨?_, by simp, by simp [stable_var]⟩
    exact {
      coefficient := rfl
      sortedAbove := .nil
      sortedBelow := List.pairwise_singleton _ _
      factors := by simp
      divisors := .inl (by simp [isProduct, real?])
      notSum := by simp
      apart := by simp
      nonempty := by simp
      scaled := by simp }
  have hmerged : (merged p).Returns p := by
    simp [merged, merge, mergeList, returns_mergeFactors, likeFactors, addExponent, powerParts,
      gatherPower, isReal_one, p]
  have hnext : Round p p p p := ⟨hp.simplified_returns, hmerged, hp.simplified_returns⟩
  have hone : (Coefficient.one * Coefficient.ofScalar (Scalar.unsignZero Scalar.one) :
      Coefficient Float) = .one := by
    have hnumer : (Coefficient.one * Coefficient.ofScalar (Scalar.unsignZero Scalar.one) :
        Coefficient Float).numer = Scalar.one := by decide +kernel
    have hdenom : (Coefficient.one * Coefficient.ofScalar (Scalar.unsignZero Scalar.one) :
        Coefficient Float).denom = Scalar.one := by decide +kernel
    exact Coefficient.eq_mk hnumer hdenom
  have hfirst : (simplified e).Returns p := by
    have hnumber : ∀ fuel, (simplify (fuel + 1) (.one : Expr Float)).Returns .one := fun _ =>
      ⟨_, rfl, rfl⟩
    have hvar : ∀ fuel, (simplify (fuel + 1) (.var "x" : Expr Float)).Returns (.var "x") := fun _ =>
      ⟨_, rfl, rfl⟩
    obtain ⟨fuel, hfuel⟩ : ∃ fuel, nestingBound e.size = fuel + 3 := ⟨7997, rfl⟩
    rw [simplified, hfuel]
    simp only [simplify, Reducing.returns_bind, Reducing.returns_mapList, e]
    refine ⟨[.one], .cons (hnumber (fuel + 1)) .nil, [.var "x"], .cons (hvar (fuel + 1)) .nil, ?_⟩
    simp only [productRule, Reducing.returns_bind, Reducing.returns_liftM]
    refine ⟨_, rfl, _, rfl, ⟨.one, [], [.var "x"], false⟩, ?_, ?_⟩
    · change (Reduction.cancel _ ⟨Coefficient.one * Coefficient.ofScalar
        (Scalar.unsignZero Scalar.one), [], [.var "x"], false⟩).Returns _
      rw [hone, Reduction.cancel]
      exact ⟨_, rfl, rfl⟩
    · rw [Fraction.finish_eq rfl]
      change (Fraction.assemble _ (sort []) (sort [.var "x"])).value = p
      rw [sort_of_sorted (by simp), sort_of_sorted (by simp)]
      rfl
  have hround : Round e p p p := ⟨hfirst, hmerged, hp.simplified_returns⟩
  have hsize : ∀ s ∈ [e, p, p, p], checkSize {} s = .ok () := by
    simp only [List.forall_mem_cons]
    exact ⟨rfl, rfl, rfl, rfl, by simp⟩
  obtain ⟨steps, hsettle⟩ := hround.settle_next hnext rfl hsize (by decide)
  have hgroups : ∀ stage ∈ [e, p, p, p, p, p, p], ∀ x ∈ stage.postOrder, ∀ group ∈ groupsOf x,
      group = [pole] := by
    simp [e, p, Expr.one, Expr.real, postOrder, postOrderOnto, postOrderListOnto, groupsOf, pole]
  have hvar : canonicalForm {} (.var "x" : Expr Float) = .ok (.var "x") := rfl
  have hpole : pole.tidy {} = .ok pole := Clause.tidy_var hvar
  have hraw : ∀ c, Contributed [e, p, p, p, p, p, p] c → c = pole := by
    rintro c ⟨stage, hstage, x, hx, group, hgroup, hc⟩
    rw [hgroups stage hstage x hx group hgroup] at hc
    exact List.mem_singleton.mp hc
  have htidied : ∀ c, Tidied {} [e, p, p, p, p, p, p] c → c = pole := by
    rintro c ⟨raw, hcontributed, htidy⟩
    rw [hraw raw hcontributed, hpole] at htidy
    exact (Except.ok.inj htidy).symm
  have hcollect : collectAll [e, p, p, p, p, p, p] = ⟨[[pole]]⟩ := by
    have hcontains : ([pole] == [pole]) = true := rfl
    have he : collect e = ⟨[[pole]]⟩ := by
      simp [collect, e, Expr.one, Expr.real, postOrder, postOrderOnto, postOrderListOnto, groupsOf,
        insertAll, Exclusions.insert, normalGroup_singleton, Exclusions.empty, pole]
    have hp : collect p = ⟨[[pole]]⟩ := by
      simp [collect, p, postOrder, postOrderOnto, postOrderListOnto, groupsOf,
        insertAll, Exclusions.insert, normalGroup_singleton, Exclusions.empty, pole]
    simp [collectAll, extend, he, hp, insertAll, Exclusions.insert, normalGroup_singleton,
      Exclusions.empty, hcontains]
  have hcanonical : e.canonicalize {} = .ok ⟨p, ⟨[[pole]]⟩, steps⟩ := by
    have htidy : (⟨[[pole]]⟩ : Exclusions Float).tidy {} = .ok ⟨[[pole]]⟩ := by
      have hgroup : tidyGroup {} [pole] = .ok (some [pole]) := tidyGroup_var hvar rfl
      rw [Exclusions.tidy, tidyGroups, hgroup]
      simp [tidyGroups, bind, Except.bind, pure, Except.pure, insertAll, Exclusions.insert,
        Exclusions.empty, normalGroup_singleton, pole, Clause.plain]
    exact canonicalize_of_settle hsettle (by rw [hcollect, htidy])
  refine ⟨_, _, hcanonical, hsettle, ?_, ?_, rfl, ?_⟩
  · exact fun c c' hc hc' _ => (hraw c hc).trans (hraw c' hc').symm
  · exact fun c c' hc hc' _ => (htidied c hc).trans (htidied c' hc').symm
  · exact canonicalize_canonical hcanonical hsettle
      (fun c c' hc hc' _ => (hraw c hc).trans (hraw c' hc').symm)
      fun c c' hc hc' _ => (htidied c hc).trans (htidied c' hc').symm

end Expr

end SymbolicAlgebra
