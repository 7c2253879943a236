import SymbolicAlgebra.Proofs.Reduction.NormalForm
import SymbolicAlgebra.Proofs.Reduction.Settling
import SymbolicAlgebra.Proofs.Scalar.Binary64
import SymbolicAlgebra.Proofs.Canonical.Idempotent
import SymbolicAlgebra.Proofs.Reduction.Formed
import SymbolicAlgebra.Proofs.Reduction.Kept
import SymbolicAlgebra.Proofs.Scalar.Finite

/-!
# Finite numbers in canonical forms

The numbers of a canonical form are finite if those of the expression are and no operation of the run makes
an infinite or a missing number of finite ones. Powers of literals and of coefficients never do, since the
rules ask for a finite result first; products, quotients, sums and differences of numbers can, since the
rules take them as they are.
-/

namespace SymbolicAlgebra

namespace Reduction

open SymbolicAlgebra.Expr

variable {α : Type} [Scalar α]

/-- The number at this node is finite: a literal, or the parts of a coefficient in lowest terms. -/
def FiniteNode : Expr α → Prop
  | .number (.real v) => Scalar.isFinite v = true
  | .product c _ _ => c.LowestTerms ∧ c.Finite
  | _ => True

/-- The literals among addends and among the addends of sums among them. -/
def literalAddends (addends : List (Expr α)) : List α :=
  (addends.flatMap Expr.addends).filterMap Expr.real?

/-- The literals among addends are finite and their sum is not. -/
def SumEscapes (addends : List (Expr α)) : Prop :=
  (∀ v ∈ literalAddends addends, Scalar.isFinite v = true) ∧
    Scalar.isFinite (total (literalAddends addends)) = false

/-- The operation makes a number that is not finite of finite ones. Powers are taken only where they are
finite. -/
def Operation.Escapes : Operation α → Prop
  | .multiply a b => a.Finite ∧ b.Finite ∧ ¬ (a * b).Finite
  | .divide a b => a.Finite ∧ b.Finite ∧ ¬ (a / b).Finite
  | .add a b => a.Finite ∧ b.Finite ∧ ¬ (a + b).Finite
  | .subtract u l =>
    Scalar.isFinite u = true ∧ Scalar.isFinite l = true ∧ Scalar.isFinite (u - l) = false
  | .difference u l => SumEscapes [u, l.neg]
  | .sum es => SumEscapes es
  | .log base body => ∃ x y v, base.real? = some x ∧ body.real? = some y ∧ literalLog? x y = some v ∧
    Scalar.isFinite x = true ∧ Scalar.isFinite y = true ∧ Scalar.isFinite v = false
  | .raise _ _ => False
  | .power _ _ => False

/-- No operation of the run from an expression to what it settles at makes a number that is not finite of
finite ones. -/
def StaysFinite (limits : Limits) (e : Expr α) : Prop :=
  ∀ found, settle limits e = .ok found →
    PerformedThroughout (fun op => ¬ op.Escapes) e found.stages.tail

/-- The numbers of a product are finite if its coefficient and those of its factors are. -/
theorem finite_product {c : Coefficient α} {n d : List (Expr α)} :
    (product c n d).Everywhere FiniteNode ↔ (c.LowestTerms ∧ c.Finite) ∧
      (∀ x ∈ n, x.Everywhere FiniteNode) ∧ ∀ x ∈ d, x.Everywhere FiniteNode := by
  rw [everywhere_iff, children, List.forall_mem_append]
  rfl

/-- A finite number is a finite literal. -/
theorem finite_real {v : Float} (h : Scalar.isFinite v = true) : (real v).Everywhere FiniteNode :=
  everywhere_of_leaf rfl ((Binary64.isFinite_unsignZero v).trans h)

/-- A literal is finite only if its number is. -/
theorem isFinite_of_finite {v : α} (h : (number (.real v)).Everywhere FiniteNode) :
    Scalar.isFinite v = true := h.root

/-- A finite number is a finite coefficient. -/
theorem finite_ofScalar {v : Float} (h : Scalar.isFinite v = true) :
    (Coefficient.ofScalar v).LowestTerms ∧ (Coefficient.ofScalar v).Finite := by
  have hlowest := Coefficient.lowestTerms_ofScalar v
  refine ⟨hlowest, (Binary64.finite_iff hlowest).mpr ?_⟩
  rw [Coefficient.ofScalar_eq]
  exact (Binary64.isFinite_unsignZero v).trans h

/-- Being finite is passed on between expressions and their parts, and it goes deep. -/
theorem heritable_finite : Heritable True (fun c : Coefficient Float => c.LowestTerms ∧ c.Finite)
    (Everywhere FiniteNode) where
  one := ⟨.inr rfl, rfl, rfl, rfl⟩
  real_one := finite_real rfl
  ofScalar h := finite_ofScalar (isFinite_of_finite h)
  value h := finite_real (Binary64.isFinite_value h.1 h.2.1)
  zero_of_coefficient _ _ := finite_real rfl
  zero_of_real _ _ := finite_real rfl
  sum := everywhere_sum trivial
  coefficient h := (finite_product.mp h).1
  factors h := (finite_product.mp h).2
  product hc hn hd :=
    finite_product.mpr ⟨hc, fun x hx => (hn x hx).1, fun x hx => (hd x hx).1⟩
  rescale hc h := finite_product.mpr ⟨hc, (finite_product.mp h).2⟩
  power := (everywhere_power trivial).trans (and_congr_right' true_imp_iff.symm)
  log _ := everywhere_log trivial
  trig _ := everywhere_trig trivial
  neg {c} _ h := by
    refine ⟨h.1.neg, (Binary64.finite_iff h.1.neg).mpr ?_⟩
    exact (Binary64.isFinite_unsignZero _).trans ((Binary64.isFinite_neg c.numer).trans h.2.1)
  neg_real {v} _ h := finite_real ((Binary64.isFinite_neg v).trans (isFinite_of_finite h))
  minusOne _ := ⟨⟨.inr rfl, rfl, rfl, rfl⟩, finite_real rfl⟩
  zero _ := finite_real rfl
  whole _ h := by
    rw [wholeExponent?] at h
    split at h
    · split at h
      · rename_i hsmall
        cases h
        obtain ⟨hwhole, hle⟩ := Bool.and_eq_true_iff.mp hsmall
        have hexact := Binary64.isExact_of_le hwhole hle
        exact finite_real (Binary64.isFinite_ofInt (Scalar.Whole.natAbs_toInt_lt _ hexact))
      · cases h
    · cases h

/-- A power of literals is computed only if it is finite. -/
theorem isFinite_of_literalPower {base exponent : Expr α} {v : α}
    (h : literalPower? base exponent = some v) : Scalar.isFinite v = true := by
  rw [literalPower?] at h
  split at h
  · dsimp only at h
    split at h
    · rename_i hguard
      cases h
      simp only [Bool.and_eq_true] at hguard
      exact hguard.1.1
    · cases h
  · cases h

/-- The literals among addends with finite numbers are finite. -/
theorem finite_literalAddends {es : List (Expr Float)} (h : ∀ e ∈ es, e.Everywhere FiniteNode) :
    ∀ v ∈ literalAddends es, Scalar.isFinite v = true := by
  intro v hv
  obtain ⟨a, ha, hreal⟩ := List.mem_filterMap.mp hv
  obtain ⟨e, he, ha⟩ := List.mem_flatMap.mp ha
  have hfinite : a.Everywhere FiniteNode := by
    cases e with
    | sum as => exact heritable_finite.sum.mp (h _ he) a ha
    | _ => exact List.mem_singleton.mp ha ▸ h _ he
  rw [eq_number_of_real? hreal] at hfinite
  exact isFinite_of_finite hfinite

/-- A sum has finite numbers if its addends have them and their literals have a finite sum. -/
theorem finite_sumRule {es : List (Expr Float)} (h : ¬ SumEscapes es)
    (hes : ∀ e ∈ es, e.Everywhere FiniteNode) : (sumRule es).value.Everywhere FiniteNode := by
  refine kept_sumRule (fun _ => heritable_finite.sum) hes (fun _ => finite_real ?_)
    fun _ => heritable_finite.zero trivial
  by_contra hinfinite
  exact h ⟨finite_literalAddends hes, Bool.eq_false_iff.mpr hinfinite⟩

/-- An operation that makes finite numbers of finite ones keeps finite numbers. -/
theorem keeps_of_not_escapes {op : Operation Float} (h : ¬ op.Escapes) :
    op.Keeps True (fun c => c.LowestTerms ∧ c.Finite) (Everywhere FiniteNode) := by
  cases op with
  | multiply a b => exact fun ha hb =>
    ⟨ha.1.mul hb.1, by_contra fun hinfinite => h ⟨ha.2, hb.2, hinfinite⟩⟩
  | divide a b => exact fun hdivisor ha hb =>
    ⟨ha.1.div hdivisor.isZero, by_contra fun hinfinite => h ⟨ha.2, hb.2, hinfinite⟩⟩
  | add a b => exact fun ha hb =>
    ⟨ha.1.add hb.1, by_contra fun hinfinite => h ⟨ha.2, hb.2, hinfinite⟩⟩
  | raise c k =>
    intro exponent hneg hwhole hfinite hc
    have hlowest := hc.1.zpow (wholeExponent?_nonneg hneg hwhole)
    exact ⟨hlowest, (Binary64.finite_iff hlowest).mpr (Binary64.isFinite_of_div hfinite)⟩
  | subtract u l =>
    intro _ hu hl
    have hdifference : Scalar.isFinite (u - l) = true := by
      by_contra hinfinite
      exact h ⟨isFinite_of_finite hu, isFinite_of_finite hl, Bool.eq_false_iff.mpr hinfinite⟩
    exact ⟨finite_real hdifference, finite_real ((Binary64.isFinite_neg _).trans hdifference)⟩
  | difference u l =>
    intro _ hu hl
    refine finite_sumRule h ?_
    rw [List.forall_mem_cons, List.forall_mem_singleton]
    exact ⟨hu, heritable_finite.neg_expr trivial l hl⟩
  | sum es => exact finite_sumRule h
  | power base exponent =>
    intro found hfound hbase hexponent
    have outcome := powerOutcome hfound
    generalize found.value = e at outcome
    cases outcome with
    | exponentZero _ => exact heritable_finite.real_one
    | exponentOne _ => exact hbase
    | baseOne _ => exact heritable_finite.real_one
    | literal hv => exact finite_real (isFinite_of_literalPower hv)
    | logarithm _ => exact ((heritable_finite.log trivial).mp (hexponent trivial)).2
  | log base body =>
    intro _ hbase hbody
    have outcome := logOutcome base body
    generalize (logRule base body).value = e at outcome
    cases outcome with
    | self _ => exact heritable_finite.real_one
    | bodyOne _ => exact heritable_finite.zero trivial
    | power _ => exact (heritable_finite.power.mp hbody).2 trivial
    | literal hx hy hv =>
      refine finite_real ?_
      by_contra hinfinite
      rw [eq_number_of_real? hx] at hbase
      rw [eq_number_of_real? hy] at hbody
      exact h ⟨_, _, _, hx, hy, hv, isFinite_of_finite hbase, isFinite_of_finite hbody,
        Bool.eq_false_iff.mpr hinfinite⟩
    | stays _ => exact (heritable_finite.log trivial).mpr ⟨hbase, hbody⟩

end Reduction

namespace Expr

open Reduction

/-- The numbers of a canonical form are finite if those of the expression are, provided that no operation of
the run makes a number that is not finite of finite ones. -/
theorem finite_canonicalize {limits : Limits} {e : Expr Float} {k : Canonical Float}
    (h : e.canonicalize limits = .ok k) (he : e.Everywhere FiniteNode) (hrun : StaysFinite limits e) :
    k.expr.Everywhere FiniteNode := by
  obtain ⟨found, hfound, hvalue, -⟩ := settle_of_canonicalize h
  obtain ⟨stages, hstages, hsettling⟩ := settling_of_settle hfound
  have hops := hrun found hfound
  rw [hstages, List.tail_cons] at hops
  have hfinite := heritable_finite.settling trivial (fun hc hn hd => finite_product.mpr ⟨hc, hn, hd⟩)
    hsettling (hops.imp fun _ => keeps_of_not_escapes) he
  exact hvalue ▸ hfinite found.value hsettling.last_mem

/-- A sum of two literals is folded at once and then left as it is. -/
theorem settle_literals {v w : Float} (h : Scalar.eq (total [v, w]) Scalar.zero = false) :
    let e : Expr Float := sum [number (.real v), number (.real w)]
    let folded : Expr Float := real (total [v, w])
    (sumRule [number (.real v), number (.real w)]).value = folded ∧
      ∃ steps, settle {} e = .ok ⟨folded, [e, folded, folded, folded, folded, folded, folded], steps⟩ := by
  intro e folded
  have hterms : sumTerms [number (.real v), number (.real w)] = [folded] :=
    if_neg (Bool.eq_false_iff.mp h)
  have hrule : (sumRule [number (.real v), number (.real w)]).value = folded := by
    rw [sumRule_value]
    change collapseSum (sort (sumTerms [number (.real v), number (.real w)])) = folded
    rw [hterms, sort, List.mergeSort_singleton]
    rfl
  have hfolds := results_closed.sum
    (.cons (results_closed.number (.real v)) (.cons (results_closed.number (.real w)) .nil))
  rw [hrule] at hfolds
  have hstays : Simplifies folded folded := results_closed.number _
  have hmerged : (merged folded).Returns folded := Reducing.returns_pure.mpr rfl
  have hfirst : Round e folded folded folded :=
    ⟨hfolds.simplified_returns, hmerged, hstays.simplified_returns⟩
  have hnext : Round folded folded folded folded :=
    ⟨hstays.simplified_returns, hmerged, hstays.simplified_returns⟩
  have hsize : ∀ x ∈ [e, folded, folded, folded], checkSize {} x = .ok () := by
    simp only [List.forall_mem_cons]
    exact ⟨rfl, rfl, rfl, rfl, by simp⟩
  exact ⟨hrule, hfirst.settle_next hnext rfl hsize (by decide)⟩

/-- The only operation of the run that folds a sum of two literals is to add them. -/
theorem performed_literals {ok : Operation Float → Prop} {v w : Float} {folded : Number Float}
    (h : ok (.sum [number (.real v), number (.real w)])) :
    let n : Expr Float := number folded
    PerformedThroughout ok (sum [number (.real v), number (.real w)]) [n, n, n, n, n, n] := by
  intro n
  have hnumber (m : Number Float) : (Call.simplify (number m)).Throughout ok :=
    Call.throughout_simplify_number m
  have hmerge : ∀ op, MergePerforms (nestingBound n.size) n op → ok op :=
    fun op hop => absurd hop (not_mergePerforms_number _ _ op)
  have hsum : (Call.simplify (sum [number (.real v), number (.real w)])).Throughout ok := by
    refine Call.throughout_of_callees (fun op hop => ?_) fun callee hmakes => ?_
    · cases hop with
      | add has =>
        have hself : List.Forall₂ Simplifies [number (.real v), number (.real w)]
            [number (.real v), number (.real w)] :=
          .cons (results_closed.number _) (.cons (results_closed.number _) .nil)
        obtain rfl := results_unique hself has (fun _ _ h => h) fun _ _ _ => Simplifies.unique
        exact h
    · cases hmakes with
      | child ha =>
        simp only [children, List.mem_cons, List.not_mem_nil, or_false] at ha
        obtain rfl | rfl := ha <;> exact hnumber _
  exact ⟨hsum, hmerge, hnumber _, hnumber _, hmerge, hnumber _, trivial⟩

/-- Two and three are folded to five, which is finite. -/
theorem finite_canonicalize_sum :
    let e : Expr Float := sum [number (.real (Scalar.ofInt 2)), number (.real (Scalar.ofInt 3))]
    ∃ k, e.canonicalize {} = .ok k ∧ e.Everywhere FiniteNode ∧ StaysFinite {} e ∧
      k.expr.Everywhere FiniteNode := by
  intro e
  have htotal : total [(Scalar.ofInt 2 : Float), Scalar.ofInt 3] = Scalar.ofInt 5 := by
    rw [total, List.mergeSort_of_pairwise (by rw [List.pairwise_pair]; rfl)]
    decide +kernel
  obtain ⟨-, steps, hsettle⟩ := settle_literals (v := Scalar.ofInt 2) (w := Scalar.ofInt 3)
    (by rw [htotal]; rfl)
  have hcanonical := canonicalize_of_settle hsettle rfl
  have he : e.Everywhere FiniteNode := by
    refine heritable_finite.sum.mpr ?_
    rw [List.forall_mem_cons, List.forall_mem_singleton]
    exact ⟨everywhere_of_leaf rfl rfl, everywhere_of_leaf rfl rfl⟩
  have hrun : StaysFinite {} e := by
    intro found hfound
    cases hsettle.symm.trans hfound
    refine performed_literals fun hescapes => ?_
    change _ ∧ Scalar.isFinite (total [(Scalar.ofInt 2 : Float), Scalar.ofInt 3]) = false at hescapes
    rw [htotal] at hescapes
    exact absurd hescapes.2 (by decide +kernel)
  exact ⟨_, hcanonical, he, hrun, finite_canonicalize hcanonical he hrun⟩

/-- The sum of a large number and itself is infinite in the canonical form. -/
theorem canonicalize_infinite_sum :
    let e : Expr Float :=
      sum [number (.real (Scalar.ofInt (10 ^ 308))), number (.real (Scalar.ofInt (10 ^ 308)))]
    e.Everywhere FiniteNode ∧ ∃ k, e.canonicalize {} = .ok k ∧ ¬ k.expr.Everywhere FiniteNode := by
  intro e
  have htotal : total [(Scalar.ofInt (10 ^ 308) : Float), Scalar.ofInt (10 ^ 308)] = Scalar.infinity := by
    rw [total, List.mergeSort_of_pairwise (by rw [List.pairwise_pair]; decide +kernel)]
    decide +kernel
  obtain ⟨-, steps, hsettle⟩ := settle_literals (v := Scalar.ofInt (10 ^ 308))
    (w := Scalar.ofInt (10 ^ 308)) (by rw [htotal]; rfl)
  have hlarge : Scalar.isFinite (Scalar.ofInt (10 ^ 308) : Float) = true := by decide +kernel
  have he : e.Everywhere FiniteNode := by
    refine heritable_finite.sum.mpr ?_
    rw [List.forall_mem_cons, List.forall_mem_singleton]
    exact ⟨everywhere_of_leaf rfl hlarge, everywhere_of_leaf rfl hlarge⟩
  refine ⟨he, _, canonicalize_of_settle hsettle rfl, fun hfinite => ?_⟩
  have hvalue := isFinite_of_finite hfinite
  rw [htotal] at hvalue
  cases hvalue

end Expr

end SymbolicAlgebra
