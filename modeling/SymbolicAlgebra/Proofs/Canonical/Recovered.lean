import SymbolicAlgebra.Proofs.Canonical.Unlimited
import SymbolicAlgebra.Proofs.Reduction.Formed

/-!
# Recovering what was written

A stable expression with nothing to combine is what its text is read as once that is simplified. What
is read also contributes no clause whose operand could not be reduced: its divisors, bases, exponents
and bodies are made stable expressions too, and the argument of a tangent together with the half of pi
that it is compared with is fully reduced after one round.
-/

namespace SymbolicAlgebra.Reduction

open SymbolicAlgebra.Expr Fraction

variable {α : Type} [Scalar α]

/-- The second expression is stable, has nothing to combine and is what the first one is restored to,
addend by addend; and the clauses that the first contributes can be tidied. -/
structure Recovers (r e : Expr α) : Prop where
  restores : Restores r e
  addends : List.Forall₂ Restores r.addends e.addends
  stable : Stable e
  unlike : Unlike e
  clauses : r.Everywhere ClausesTerminate

/-- Expressions that are no sums are restored addend by addend if they are restored. -/
theorem recovers_of_not_sum {r e : Expr α} (hr : r.isSum = false) (he : e.isSum = false)
    (h : Restores r e) (hstable : Stable e) (hunlike : Unlike e)
    (hclauses : r.Everywhere ClausesTerminate) : Recovers r e where
  restores := h
  addends := by
    rw [addends_of_not_sum hr, addends_of_not_sum he]
    exact .cons h .nil
  stable := hstable
  unlike := hunlike
  clauses := hclauses

/-- Clauses of expressions that are recovered can be tidied. -/
theorem clauses_of_recovers {rs as : List (Expr α)} (h : List.Forall₂ Recovers rs as) :
    ∀ r ∈ rs, r.Everywhere ClausesTerminate :=
  forall_of_forall₂ h.flip fun _ _ _ h => h.clauses

/-- Expressions that are recovered are restored. -/
theorem restores_of_recovers {rs as : List (Expr α)} (h : List.Forall₂ Recovers rs as) :
    List.Forall₂ Restores rs as := h.imp fun _ _ h => h.restores

/-- A node that contributes no clauses contributes none that could not be tidied. -/
theorem clausesTerminate_of_nil {e : Expr α} (h : Exclusions.groupsOf e = []) : ClausesTerminate e := by
  rw [ClausesTerminate, h]
  exact List.forall_mem_nil _

/-- Numbers are recovered. -/
theorem recovers_number (v : Number α) : Recovers (.number v) (.number v) :=
  recovers_of_not_sum rfl rfl (restores_number v) (stable_number v) (unlike_number v)
    (everywhere_of_leaf rfl (clausesTerminate_of_nil rfl))

/-- Variables are recovered. -/
theorem recovers_var (name : String) : Recovers (.var name : Expr α) (.var name) :=
  recovers_of_not_sum rfl rfl (restores_var name) (stable_var name) (unlike_var name)
    (everywhere_of_leaf rfl (clausesTerminate_of_nil rfl))

/-- A sum is recovered of addends that are recovered. -/
theorem recovers_sum {rs as : List (Expr α)} (h : List.Forall₂ Recovers rs as)
    (hstable : Stable (.sum as)) (hunlike : Unlike (.sum as)) : Recovers (.sum rs) (.sum as) where
  restores := (stable_sum.mp hstable).1 ▸ restores_sum (restores_of_recovers h)
  addends := restores_of_recovers h
  stable := hstable
  unlike := hunlike
  clauses := everywhere_iff.mpr ⟨clausesTerminate_of_nil rfl, clauses_of_recovers h⟩

section Unital

variable [Scalar.Unital α]

/-- A round recovers an expression. -/
theorem Recovers.round {r e : Expr α} (h : Recovers r e) : Round r e e e :=
  ⟨h.restores.simplified, merge_returns h.stable h.unlike _, h.stable.simplified_returns⟩

/-- What is recovered can be reduced. -/
theorem Recovers.terminates {r e : Expr α} (h : Recovers r e) : Terminates r :=
  h.round.terminates (round_self h.stable h.unlike)

/-- A product is recovered of factors that are recovered if the rule for products makes it of them. -/
theorem recovers_product {c c₀ : Coefficient α} {n d above above' below below' : List (Expr α)}
    (habove : List.Forall₂ Recovers above above') (hbelow : List.Forall₂ Recovers below below')
    (hrule : ∀ fuel, (productRule (fuel + 2) c₀ above' below').Returns (.product c n d))
    (hstable : Stable (.product c n d)) (hunlike : Unlike (.product c n d)) :
    Recovers (.product c₀ above below) (.product c n d) := by
  refine recovers_of_not_sum rfl rfl
    (restores_product (restores_of_recovers habove) (restores_of_recovers hbelow) hrule) hstable
    hunlike (everywhere_iff.mpr ⟨?_, ?_⟩)
  · intro group hgroup c hc
    obtain ⟨e, he, rfl⟩ := List.mem_map.mp hgroup
    obtain rfl := List.mem_singleton.mp hc
    exact forall_of_forall₂ (q := Terminates) hbelow.flip (fun _ _ _ h => h.terminates) e he
  · rw [children, List.forall_mem_append]
    exact ⟨clauses_of_recovers habove, clauses_of_recovers hbelow⟩

/-- A power is recovered of its parts. -/
theorem recovers_power {a b a' b' : Expr α} (ha : Recovers a a') (hb : Recovers b b')
    (hstable : Stable (.power a' b')) : Recovers (.power a b) (.power a' b') := by
  refine recovers_of_not_sum rfl rfl
    (restores_power ha.restores hb.restores (stable_power.mp hstable).1) hstable
    (everywhere_iff.mpr ⟨trivial, ?_⟩) (everywhere_iff.mpr ⟨?_, ?_⟩)
  · simpa [children] using ⟨ha.unlike, hb.unlike⟩
  · simpa [ClausesTerminate, Exclusions.groupsOf, Clause.plain, Clause.modulo] using
      ⟨ha.terminates, hb.terminates⟩
  · simpa [children] using ⟨ha.clauses, hb.clauses⟩

/-- A logarithm is recovered of its parts. -/
theorem recovers_log {a b a' b' : Expr α} (ha : Recovers a a') (hb : Recovers b b')
    (hstable : Stable (.log a' b')) : Recovers (.log a b) (.log a' b') := by
  refine recovers_of_not_sum rfl rfl
    ((stable_log.mp hstable).1 ▸ restores_log ha.restores hb.restores) hstable
    (everywhere_iff.mpr ⟨trivial, ?_⟩) (everywhere_iff.mpr ⟨?_, ?_⟩)
  · simpa [children] using ⟨ha.unlike, hb.unlike⟩
  · simpa [ClausesTerminate, Exclusions.groupsOf, Clause.plain] using
      ⟨ha.terminates, hb.terminates⟩
  · simpa [children] using ⟨ha.clauses, hb.clauses⟩

end Unital

section Signed

variable [Scalar.Signed α]

omit [Scalar.Signed α] in
/-- The factors above the line are recovered together with what the numerator of the coefficient has
become. -/
theorem recovers_rereadNumerator {c : Coefficient α} {N n : List (Expr α)}
    (h : List.Forall₂ Recovers N n)
    (hbare : Scalar.eq c.numer (Scalar.ofInt (-1)) = true → n = []) :
    List.Forall₂ Recovers (rereadNumerator c N) (rereadNumerator c n) := by
  cases h with
  | nil => exact .cons (recovers_number _) .nil
  | cons he hes =>
    cases hsign : Scalar.eq c.numer (Scalar.ofInt (-1)) with
    | true => cases hbare hsign
    | false =>
      rw [rereadNumerator, rereadNumerator, hsign]
      simp only [Bool.false_eq_true, if_false]
      split
      · exact .cons he hes
      · exact .cons (recovers_number _) (.cons he hes)

/-- The divisors are recovered together with what the denominator of the coefficient has become. -/
theorem recovers_rereadDivisors {c : Coefficient α} {n D d : List (Expr α)}
    (hstable : Stable (.product c n d)) (hunlike : Unlike (.product c n d))
    (h : List.Forall₂ Recovers D d) :
    List.Forall₂ Recovers (rereadDivisors c D) (rereadDivisors c d) := by
  have hdenom : List.Forall₂ Recovers
      (if Scalar.eq c.denom Scalar.one then [] else [real c.denom])
      (if Scalar.eq c.denom Scalar.one then [] else [real c.denom]) := by
    split
    · exact .nil
    · exact .cons (recovers_number _) .nil
  refine List.rel_append hdenom ?_
  cases h with
  | nil => exact .nil
  | cons he hes =>
    cases hes with
    | nil => exact .cons he .nil
    | cons he' hes =>
      obtain ⟨shape, -, hd⟩ := stable_product.mp hstable
      obtain ⟨⟨-, hfactors⟩, -, hall⟩ := unlike_product.mp hunlike
      refine .cons (recovers_product (.cons he (.cons he' hes)) .nil (fun fuel => ?_) ?_ ?_) .nil
      · exact shape.group.returns fuel
      · exact stable_product.mpr ⟨shape.group, hd, by simp⟩
      · exact unlike_product.mpr ⟨⟨hfactors, .nil⟩, hall, by simp⟩

/-- A product is recovered of factors that gather to its numerator, and of its divisors. -/
theorem recovers_regathered {c c₀ : Coefficient α} {n D d above above' : List (Expr α)}
    (hstable : Stable (.product c n d)) (hunlike : Unlike (.product c n d))
    (hlowest : c.LowestTerms) (habove : List.Forall₂ Recovers above above')
    (hgather : (absorbAll .above ({ coefficient := c₀ } : Fraction α) above').value =
      { coefficient := ⟨c.numer, Scalar.one⟩, numerator := n })
    (hd : List.Forall₂ Recovers D d) :
    Recovers (.product c₀ above (rereadDivisors c D)) (.product c n d) := by
  have shape := (stable_product.mp hstable).1
  obtain ⟨hcoefficient, hnumerator, hdivisors, hdenominator⟩ :=
    shape.gather_rereadDivisors hlowest hgather
  exact recovers_product habove (recovers_rereadDivisors hstable hunlike hd)
    (shape.returns_of_gather hcoefficient hnumerator hdivisors hdenominator) hstable hunlike

/-- Minus one times a bare factor is recovered. -/
theorem recovers_scaled_minusOne {r e : Expr α} (h : Recovers r e) (hbare : Bare e) :
    Recovers (scaled .minusOne r) (scaled .minusOne e) := by
  refine recovers_product (.cons h .nil) .nil hbare.stableProduct.returns ?_ ?_
  · exact stable_product.mpr ⟨hbare.stableProduct, by simpa using h.stable, by simp⟩
  · exact unlike_product.mpr ⟨⟨List.pairwise_singleton _ _, .nil⟩, by simpa using h.unlike, by simp⟩

/-- The opposite of joined operands is their product with minus one, if one alone is a bare factor. -/
theorem neg_chain {above below : List (Expr α)}
    (h : ∀ e, above = [e] → below = [] → Bare e) :
    (chain above below).neg = .product .minusOne above below := by
  rcases above with _ | ⟨a, _ | ⟨b, above⟩⟩
  · rw [chain, neg, Coefficient.neg_one]
    simp
  · cases below with
    | nil => exact (h a rfl rfl).neg
    | cons b below => rw [chain, neg, Coefficient.neg_one]; simp
  · rw [chain, neg, Coefficient.neg_one]
    simp

section Product

variable {c : Coefficient α} {n d N D : List (Expr α)} (hstable : Stable (.product c n d))
  (hunlike : Unlike (.product c n d)) (hlowest : c.LowestTerms) (hN : List.Forall₂ Recovers N n)
  (hD : List.Forall₂ Recovers D d)
include hstable hunlike hlowest hN hD

/-- A product with minus one as its numerator is recovered of minus one and its factors. -/
theorem recovers_minusOne (hminus : Scalar.eq c.numer (Scalar.ofInt (-1)) = true) :
    Recovers (.product .minusOne N (rereadDivisors c D)) (.product c n d) := by
  refine recovers_regathered hstable hunlike hlowest hN ?_ hD
  rw [absorbAll_factors .above _ (stable_product.mp hstable).1.factors,
    Scalar.Signed.eq_of_eq_minusOne _ hminus]
  rfl

/-- A product is recovered of its numerator, its factors and its divisors, unless its numerator is a
minus before a factor. -/
theorem recovers_chain (hminus : Scalar.eq c.numer (Scalar.ofInt (-1)) = true → n = []) :
    Recovers (chain (rereadNumerator c N) (rereadDivisors c D)) (.product c n d) := by
  have shape := (stable_product.mp hstable).1
  have hsingle : ∀ e, rereadNumerator c N = [e] → rereadDivisors c D ≠ [] := by
    intro e habove hbelow
    obtain ⟨hdenom, rfl⟩ := of_rereadDivisors_eq_nil hbelow
    obtain rfl := List.forall₂_nil_left_iff.mp hD
    cases hN with
    | nil => exact shape.nonempty ⟨rfl, rfl⟩
    | @cons r a N n _ hN =>
      cases hsign : Scalar.eq c.numer (Scalar.ofInt (-1)) with
      | true => cases hminus hsign
      | false =>
        rw [rereadNumerator, hsign, if_neg Bool.false_ne_true] at habove
        split at habove
        · rename_i hone
          obtain rfl := (List.cons.inj habove).2
          obtain rfl := List.forall₂_nil_left_iff.mp hN
          have hscaled := shape.scaled a rfl rfl
          rw [Coefficient.isOne, hone, hdenom] at hscaled
          cases hscaled
        · cases habove
  rw [chain_eq_product hsingle]
  refine recovers_regathered hstable hunlike hlowest (recovers_rereadNumerator hN hminus) ?_ hD
  refine absorbAll_rereadNumerator shape.factors shape.coefficient hminus
    (Coefficient.one_mul_ofScalar shape.coefficient) fun hone => ?_
  rw [hone]
  rfl

/-- A product with a negative coefficient is recovered of the opposite of what its opposite is read
as. -/
theorem recovers_neg (hneg : c.isNegative = true) (bare : Bool)
    (hbare : ∀ e, N = [e] → rereadDivisors c D = [] → Bare e) :
    Recovers (rereadProduct (-c) bare N D).neg (.product c n d) := by
  have shape := (stable_product.mp hstable).1
  have hnumer : (-c).numer = -c.numer := by
    change Scalar.unsignZero (-c.numer) = _
    exact Scalar.unsignZero_of_ne ((Scalar.Lawful.eq_neg_zero _).trans shape.coefficient)
  have hplus : Scalar.eq (-c).numer (Scalar.ofInt (-1)) = false := by
    rw [Bool.eq_false_iff]
    intro hminus
    have hlt := Scalar.Signed.lt_neg _ hneg
    rw [← hnumer, Scalar.Signed.eq_of_eq_minusOne _ hminus, Scalar.Signed.lt_minusOne_zero] at hlt
    cases hlt
  have hdivisors : rereadDivisors (-c) D = rereadDivisors c D := rfl
  have hsingle : ∀ e, rereadNumerator (-c) N = [e] → rereadDivisors c D = [] → Bare e := by
    intro e habove hbelow
    cases N with
    | nil =>
      obtain ⟨-, rfl⟩ := of_rereadDivisors_eq_nil hbelow
      obtain rfl := List.forall₂_nil_left_iff.mp hN
      obtain rfl := List.forall₂_nil_left_iff.mp hD
      exact (shape.nonempty ⟨rfl, rfl⟩).elim
    | cons y N =>
      rw [rereadNumerator, hplus, if_neg Bool.false_ne_true] at habove
      split at habove
      · exact hbare e habove hbelow
      · cases habove
  rw [rereadProduct, hplus, hdivisors, Bool.false_and, Bool.false_and, if_neg Bool.false_ne_true,
    neg_chain hsingle]
  have hnever : Scalar.eq (-c).numer (Scalar.ofInt (-1)) = true → n = [] := fun h => by
    rw [hplus] at h
    cases h
  refine recovers_regathered hstable hunlike hlowest (recovers_rereadNumerator hN hnever) ?_ hD
  have hzero : (-c).isZero = false := (Coefficient.isZero_neg c).trans shape.coefficient
  refine absorbAll_rereadNumerator shape.factors hzero hnever ?_ fun hone => ?_
  · rw [Coefficient.minusOne_mul_ofScalar hzero, hnumer, Scalar.Signed.neg_neg]
  · have hminus : c.numer = Scalar.ofInt (-1) := by
      rw [← Scalar.Signed.neg_neg c.numer, ← hnumer, hone, Scalar.Signed.neg_one]
    rw [hminus]
    rfl

end Product

/-- A product with minus one as its numerator is recovered if the first factor has the minus. -/
theorem recovers_signed {c : Coefficient α} {r a : Expr α} {n d N D : List (Expr α)}
    (hstable : Stable (.product c (a :: n) d)) (hunlike : Unlike (.product c (a :: n) d))
    (hlowest : c.LowestTerms) (hN : List.Forall₂ Recovers (r :: N) (a :: n))
    (hD : List.Forall₂ Recovers D d) (hminus : Scalar.eq c.numer (Scalar.ofInt (-1)) = true)
    (ha : Bare a) :
    Recovers (chain (scaled .minusOne r :: N) (rereadDivisors c D)) (.product c (a :: n) d) := by
  rw [chain_cons]
  split
  · rename_i hsingle
    obtain ⟨rfl, hbelow⟩ := hsingle
    have hscaled := recovers_minusOne hstable hunlike hlowest hN hD hminus
    rw [hbelow] at hscaled
    exact hscaled
  · obtain _ | ⟨hfirst, hrest⟩ := hN
    refine recovers_regathered hstable hunlike hlowest
      (.cons (recovers_scaled_minusOne hfirst ha) hrest) ?_ hD
    have hfactors := (stable_product.mp hstable).1.factors
    rw [List.forall_mem_cons] at hfactors
    rw [absorbAll_cons, absorb_scaled_minusOne ha.2.1 ha.2.2, absorbAll_factors .above _ hfactors.2,
      Scalar.Signed.eq_of_eq_minusOne _ hminus]
    rfl

omit [Scalar.Signed α] in
/-- A factor that stands without parentheses in a stable product is bare. -/
theorem StableProduct.bare {c : Coefficient α} {n d : List (Expr α)} (h : StableProduct c n d)
    {e : Expr α} (he : e ∈ n) (hsum : e.isSum = false) : Bare e := ⟨hsum, h.factors e he⟩

omit [Scalar.Signed α] in
/-- The only factor of a stable product is bare. -/
theorem StableProduct.bare_of_single {c : Coefficient α} {e : Expr α}
    (h : StableProduct c [e] []) : Bare e := by
  refine h.bare List.mem_cons_self ?_
  cases e with
  | sum as => exact (h.notSum as ⟨rfl, rfl⟩).elim
  | _ => rfl

/-- A product is recovered of what its text is read as, if its factors are; and so it is as an addend. -/
theorem recovers_rereadProduct {c : Coefficient α} {n d : List (Expr α)}
    (hstable : Stable (.product c n d)) (hunlike : Unlike (.product c n d))
    (hlowest : c.LowestTerms) (hn : ∀ e ∈ n, Recovers e.reread e)
    (hd : ∀ e ∈ d, Recovers e.reread e) :
    Recovers (product c n d).reread (.product c n d) ∧
      List.Forall₂ Recovers (rereadAddends [.product c n d]) [.product c n d] := by
  have shape := (stable_product.mp hstable).1
  have hall {es : List (Expr α)} (hes : ∀ e ∈ es, Recovers e.reread e) :
      List.Forall₂ Recovers (rereadAll es) es := by
    rw [rereadAll_eq_map, List.forall₂_map_left_iff, List.forall₂_same]
    exact hes
  have hbare : ∀ e, rereadAll n = [e] → rereadDivisors c (rereadAll d) = [] → Bare e := by
    intro e habove hbelow
    have hdivisors := (of_rereadDivisors_eq_nil hbelow).2
    rw [rereadAll_eq_map] at habove hdivisors
    obtain ⟨a, rfl, rfl⟩ := List.map_eq_singleton_iff.mp habove
    obtain rfl := List.map_eq_nil_iff.mp hdivisors
    exact shape.bare_of_single.reread
  have hwhole : Recovers (product c n d).reread (.product c n d) := by
    rw [reread, rereadProduct]
    split
    · rename_i hsign
      rw [neg_chain hbare]
      simp only [Bool.and_eq_true] at hsign
      exact recovers_minusOne hstable hunlike hlowest (hall hn) (hall hd) hsign.1.1
    · rename_i hsign
      cases hminus : Scalar.eq c.numer (Scalar.ofInt (-1)) with
      | false =>
        exact recovers_chain hstable hunlike hlowest (hall hn) (hall hd) fun h => by
          rw [hminus] at h
          cases h
      | true =>
        cases n with
        | nil => exact recovers_chain hstable hunlike hlowest (hall hn) (hall hd) fun _ => rfl
        | cons a n =>
          have hfactor : a.isFactor = true := by
            simpa [hminus, rereadAll, startsBare] using hsign
          have hsum : a.isSum = false := by
            cases a with
            | sum as => cases hfactor
            | _ => rfl
          have ha := shape.bare List.mem_cons_self hsum
          rw [rereadAll, rereadNumerator, hminus, if_pos rfl, ha.reread.neg]
          exact recovers_signed hstable hunlike hlowest (hall hn) (hall hd) hminus ha
  refine ⟨hwhole, ?_⟩
  rw [rereadAddends]
  refine .cons ?_ .nil
  split
  · rename_i hneg
    exact recovers_neg hstable hunlike hlowest (hall hn) (hall hd) hneg _ hbare
  · rw [reread] at hwhole
    exact hwhole

end Signed

/-- What is added to the argument of a tangent to compare it with the multiples of pi. -/
def poleShift : Expr Float :=
  .product (.ofFraction (Scalar.ofInt (-1)) (Scalar.ofInt 2)) [.constant .pi] []

/-- Minus half of pi is a stable expression. -/
theorem stable_poleShift : Stable poleShift := by
  refine stable_product.mpr ⟨?_, by simp [constant, stable_number], by simp⟩
  exact {
    coefficient := by decide +kernel
    sortedAbove := List.pairwise_singleton _ _
    sortedBelow := .nil
    factors := by simp [constant, isProduct, real?, Number.real?]
    divisors := .inl (by simp)
    notSum := by simp [constant]
    apart := by simp
    nonempty := by simp
    scaled := fun _ _ _ => by decide +kernel }

/-- There is nothing to combine in minus half of pi. -/
theorem unlike_poleShift : Unlike poleShift :=
  unlike_product.mpr ⟨⟨List.pairwise_singleton _ _, .nil⟩, by simp [constant, unlike_number], by simp⟩

/-- The poles of the tangent of a body that is recovered can be tidied. -/
theorem terminates_tangentPoles {a a' : Expr Float} (h : Recovers a a') :
    Terminates (Exclusions.tangentPoles a).operand := by
  have hshifted : Restores (a.plus poleShift) (sumRule (a'.addends ++ [poleShift])).value :=
    restores_sum (List.rel_append h.addends (.cons stable_poleShift.restores .nil))
  have hunlike : ∀ x ∈ a'.addends, Unlike x := by
    cases hsum : a'.isSum with
    | false =>
      rw [addends_of_not_sum hsum]
      simpa using h.unlike
    | true =>
      cases a' with
      | sum as => exact (unlike_sum.mp h.unlike).2
      | _ => cases hsum
  have hadd : ∀ x ∈ a'.addends ++ [poleShift], StableAddend x ∧ Unlike x := by
    rw [List.forall_mem_append, List.forall_mem_singleton]
    exact ⟨fun x hx => ⟨h.stable.addends x hx, hunlike x hx⟩,
      ⟨stable_poleShift, rfl⟩, unlike_poleShift⟩
  obtain ⟨second, third, hround, hstable, hcombined⟩ := exists_round hshifted.simplified
    (sumRule_stable fun x hx => (hadd x hx).1.1.addends)
    (forall_addends_sumRule (fun x hx => ⟨(hadd x hx).1.2, (hadd x hx).2⟩) unlike_number)
  exact hround.terminates (round_self hstable hcombined)

/-- A function is recovered of its body. -/
theorem recovers_trig {f : Trig} {a a' : Expr Float} (h : Recovers a a')
    (hstable : Stable (.trig f a')) : Recovers (.trig f a) (.trig f a') := by
  refine recovers_of_not_sum rfl rfl ((stable_trig.mp hstable).1 ▸ restores_trig h.restores) hstable
    (everywhere_iff.mpr ⟨trivial, ?_⟩) (everywhere_iff.mpr ⟨?_, ?_⟩)
  · exact List.forall_mem_singleton.mpr h.unlike
  · cases f with
    | tan =>
      simp only [ClausesTerminate, Exclusions.groupsOf, List.forall_mem_singleton]
      exact terminates_tangentPoles h
    | _ => exact clausesTerminate_of_nil rfl
  · simpa [children] using h.clauses

/-- A stable expression with nothing to combine is recovered from itself. -/
theorem recovers_self {e : Expr Float} (hstable : Stable e) (hunlike : Unlike e) : Recovers e e := by
  have below : ∀ child ∈ e.children, Recovers child child := fun child hchild =>
    recovers_self (hstable.child hchild) (hunlike.child hchild)
  cases e with
  | sum as => exact recovers_sum (List.forall₂_same.mpr below) hstable hunlike
  | product c n d =>
    rw [children, List.forall_mem_append] at below
    exact recovers_product (List.forall₂_same.mpr below.1) (List.forall₂_same.mpr below.2)
      (stable_product.mp hstable).1.returns hstable hunlike
  | power a b =>
    exact recovers_power (below a (by simp [children])) (below b (by simp [children])) hstable
  | log a b =>
    exact recovers_log (below a (by simp [children])) (below b (by simp [children])) hstable
  | trig f a => exact recovers_trig (below a (by simp [children])) hstable
  | var x => exact recovers_var x
  | number v => exact recovers_number v
termination_by e.size
decreasing_by exact size_lt_of_mem_children hchild

/-- A stable expression with nothing to combine is recovered from what its text is read as, alone and
as an addend. -/
theorem recovers_reread {e : Expr Float} (hstable : Stable e) (hunlike : Unlike e)
    (hformed : e.Everywhere FormedNode) :
    Recovers e.reread e ∧ List.Forall₂ Recovers (rereadAddends [e]) [e] := by
  have below : ∀ child ∈ e.children, Recovers child.reread child ∧
      List.Forall₂ Recovers (rereadAddends [child]) [child] := fun child hchild =>
    recovers_reread (hstable.child hchild) (hunlike.child hchild) (hformed.child hchild)
  have alone (hreread : rereadAddends [e] = [e.reread]) (h : Recovers e.reread e) :
      Recovers e.reread e ∧ List.Forall₂ Recovers (rereadAddends [e]) [e] :=
    ⟨h, hreread ▸ .cons h .nil⟩
  cases e with
  | sum as =>
    have hlength := two_le_length_of_stable hstable
    obtain ⟨a, b, rest, rfl⟩ : ∃ a b rest, as = a :: b :: rest := by
      rcases as with _ | ⟨a, _ | ⟨b, rest⟩⟩
      · cases hlength
      · simp at hlength
      · exact ⟨a, b, rest, rfl⟩
    have hrest {es : List (Expr Float)} (hes : es ⊆ a :: b :: rest) :
        List.Forall₂ Recovers (rereadAddends es) es := by
      induction es with
      | nil => exact .nil
      | cons x es ih =>
        obtain ⟨hx, hes⟩ := List.cons_subset.mp hes
        rw [rereadAddends_cons]
        exact List.rel_append (below x hx).2 (ih hes)
    refine alone (by simp [rereadAddends]) ?_
    rw [reread]
    exact recovers_sum (.cons (below a List.mem_cons_self).1 (hrest (List.subset_cons_self _ _)))
      hstable hunlike
  | product c n d =>
    rw [children, List.forall_mem_append] at below
    exact recovers_rereadProduct hstable hunlike hformed.root (fun x hx => (below.1 x hx).1)
      fun x hx => (below.2 x hx).1
  | power a b =>
    refine alone (by simp [rereadAddends]) ?_
    rw [reread]
    exact recovers_power (below a (by simp [children])).1 (below b (by simp [children])).1 hstable
  | log a b =>
    refine alone (by simp [rereadAddends]) ?_
    rw [reread]
    exact recovers_log (below a (by simp [children])).1 (below b (by simp [children])).1 hstable
  | trig f a =>
    refine alone (by simp [rereadAddends]) ?_
    rw [reread]
    exact recovers_trig (below a (by simp [children])).1 hstable
  | var x =>
    refine alone (by simp [rereadAddends]) ?_
    rw [reread]
    exact recovers_var x
  | number v =>
    refine alone (by simp [rereadAddends]) ?_
    rw [reread]
    exact recovers_number v
termination_by e.size
decreasing_by exact size_lt_of_mem_children hchild

end SymbolicAlgebra.Reduction
