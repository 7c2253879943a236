import SymbolicAlgebra.Proofs.Canonical.Idempotent
import SymbolicAlgebra.Proofs.Exact.Canonical

/-!
# Differentiating canonical expressions

A canonical expression settles at itself, so it makes no difference to the derivative whether an expression
or its canonical form is differentiated. The second run has no groups that the first one has not, and those
that it lacks are the exclusions of the canonical form.
-/

namespace SymbolicAlgebra

namespace Exclusions

variable {α : Type} [Scalar α] {p : Clause α → Prop} {x y : Exclusions α}

/-- An extension by groups in normal form has the groups of both, if clauses that count as equal are the
same. -/
theorem mem_extend (hp : Identified p) (hx : x.ForallClauses p) (hy : y.ForallClauses p)
    (hnormal : ∀ group ∈ y.groups, normalGroup group = group) {group : List (Clause α)} :
    group ∈ (x.extend y).groups ↔ group ∈ x.groups ∨ group ∈ y.groups := by
  constructor
  · intro h
    obtain h | ⟨g, hg, rfl⟩ := of_mem_insertAll h
    · exact .inl h
    · exact .inr (by rwa [hnormal g hg])
  · rintro (h | h)
    · exact mem_insertAll_of_mem h y.groups
    · rw [← hnormal group h]
      exact normalGroup_mem_insertAll hp hx hy h

/-- Tidied exclusions of stages have clauses that those of the stages are tidied to. -/
theorem forallClauses_tidied {limits : Limits} {stages : List (Expr α)}
    (h : (Expr.collectAll stages).tidy limits = .ok y) : y.ForallClauses (Tidied limits stages) :=
  ForallClauses.tidy (fun group hgroup c hc _ hc' =>
    ⟨c, forallClauses_collectAll group hgroup c hc, hc'⟩) h

/-- What is tidied from some of the stages is tidied from all. -/
theorem Tidied.mono {limits : Limits} {stages stages' : List (Expr α)} (h : stages ⊆ stages')
    {c : Clause α} (hc : Tidied limits stages c) : Tidied limits stages' c := by
  obtain ⟨raw, ⟨e, he, hraw⟩, htidy⟩ := hc
  exact ⟨raw, ⟨e, h he, hraw⟩, htidy⟩

/-- Tidied exclusions have groups in normal form. -/
theorem normalGroup_of_tidy [Scalar.Lawful α] {limits : Limits} (h : x.tidy limits = .ok y) :
    ∀ group ∈ y.groups, normalGroup group = group := by
  rw [tidy] at h
  obtain ⟨tidied, -, h⟩ := Reduction.ok_of_bind h
  cases h
  intro group hgroup
  obtain hempty | ⟨g, -, rfl⟩ := of_mem_insertAll hgroup
  · cases hempty
  · exact normalGroup_normalGroup g

end Exclusions

namespace Expr

open Exclusions Reduction

variable {α : Type} [Scalar α] {limits : Limits} {name : String} {e : Expr α} {k : Canonical α}

/-- Clauses that count as equal are the same in the run of an expression, among those that its stages
contribute and among what these are tidied to, and the latter also together with the run of the slope. -/
structure Unambiguous (limits : Limits) (name : String) (e : Expr α) : Prop where
  contributed : ∀ run, settle limits e = .ok run → Identified (Contributed run.stages)
  tidied : ∀ run, settle limits e = .ok run → Identified (Tidied limits run.stages)
  together : ∀ run slope, settle limits e = .ok run →
    settle limits (run.value.derivative name) = .ok slope →
    Identified (Tidied limits (run.stages ++ slope.stages))

/-- The canonical form of a canonical expression is the expression, and its exclusions have no new
groups. -/
theorem exists_canonicalize_again [Scalar.Unital α] (hsame : e.Unambiguous limits name)
    (h : e.canonicalize limits = .ok k) : ∃ k', k.expr.canonicalize limits = .ok k' ∧
      k'.expr = k.expr ∧ k'.exclusions.groups ⊆ k.exclusions.groups := by
  obtain ⟨run, hrun, hvalue, hexclusions⟩ := settle_of_canonicalize h
  obtain ⟨hsize, hrounds⟩ := limits_of_settle hrun
  obtain ⟨stages, hstages, hsettling⟩ := settling_of_settle hrun
  rw [hvalue] at hsize hsettling
  obtain ⟨steps, hagain⟩ := hsettling.reduced.2.2.settle_self hsize hrounds
  have hmem : k.expr ∈ run.stages := hstages ▸ List.mem_cons_of_mem e hsettling.last_mem
  have hsubset : [k.expr, k.expr, k.expr, k.expr] ⊆ run.stages := by simpa using hmem
  obtain ⟨x, hx, hgroups⟩ := tidy_subset (hsame.tidied run hrun) forallClauses_collectAll hexclusions
    (collectAll_subset (hsame.contributed run hrun) hsubset)
  exact ⟨⟨k.expr, x, steps⟩, canonicalize_of_settle hagain hx, rfl, hgroups⟩

/-- A derivative is the canonical form of the slope of the canonical form. -/
theorem differentiate_eq_ok {s : Canonical α} (h : e.canonicalize limits = .ok k) :
    e.differentiate limits name = .ok s ↔
      ∃ slope, (k.expr.derivative name).canonicalize limits = .ok slope ∧
        s = ⟨slope.expr, k.exclusions.extend slope.exclusions, k.steps ++ slope.steps⟩ := by
  rw [differentiate]
  constructor
  · intro hs
    obtain ⟨canonical, hcanonical, hs⟩ := ok_of_bind hs
    obtain rfl := Except.ok.inj (h.symm.trans hcanonical)
    obtain ⟨slope, hslope, hs⟩ := ok_of_bind hs
    cases hs
    exact ⟨slope, hslope, rfl⟩
  · rintro ⟨slope, hslope, rfl⟩
    rw [h]
    change (k.expr.derivative name).canonicalize limits >>= _ = _
    rw [hslope]
    rfl

/-- Differentiating the canonical form of an expression succeeds exactly if differentiating the expression
does, and gives the same derivative. Together with the exclusions of the canonical form its exclusions have
the same groups as those of the derivative of the expression. -/
theorem differentiate_canonical {limits : Limits} {name : String} {e : Expr Float} {k : Canonical Float}
    (hsame : e.Unambiguous limits name) (h : e.canonicalize limits = .ok k) :
    ((∃ s, k.expr.differentiate limits name = .ok s) ↔ ∃ s, e.differentiate limits name = .ok s) ∧
      ∀ s s', k.expr.differentiate limits name = .ok s → e.differentiate limits name = .ok s' →
        s.expr = s'.expr ∧
          ∀ group, group ∈ (s.exclusions.extend k.exclusions).groups ↔ group ∈ s'.exclusions.groups := by
  obtain ⟨k', hk', hexpr, hsubset⟩ := exists_canonicalize_again hsame h
  simp only [differentiate_eq_ok h, differentiate_eq_ok hk', hexpr]
  refine ⟨?_, ?_⟩
  · constructor
    · rintro ⟨_, slope, hslope, -⟩
      exact ⟨_, slope, hslope, rfl⟩
    · rintro ⟨_, slope, hslope, -⟩
      exact ⟨_, slope, hslope, rfl⟩
  · rintro _ _ ⟨slope, hslope, rfl⟩ ⟨slope', hslope', rfl⟩
    obtain rfl := Except.ok.inj (hslope.symm.trans hslope')
    obtain ⟨run, hrun, hvalue, htidy⟩ := settle_of_canonicalize h
    obtain ⟨slopeRun, hslopeRun, -, hslopeTidy⟩ := settle_of_canonicalize hslope
    have hidentified := hsame.together run slopeRun hrun (hvalue ▸ hslopeRun)
    have hk : k.exclusions.ForallClauses (Tidied limits (run.stages ++ slopeRun.stages)) :=
      fun group hgroup c hc =>
        (forallClauses_tidied htidy group hgroup c hc).mono (List.subset_append_left _ _)
    have hs : slope.exclusions.ForallClauses (Tidied limits (run.stages ++ slopeRun.stages)) :=
      fun group hgroup c hc =>
        (forallClauses_tidied hslopeTidy group hgroup c hc).mono (List.subset_append_right _ _)
    have hnormal := normalGroup_of_tidy htidy
    have hslopeNormal := normalGroup_of_tidy hslopeTidy
    have hagain : k'.exclusions.ForallClauses (Tidied limits (run.stages ++ slopeRun.stages)) :=
      fun group hgroup => hk group (hsubset hgroup)
    have hextended : (k'.exclusions.extend slope.exclusions).ForallClauses
        (Tidied limits (run.stages ++ slopeRun.stages)) := hagain.insertAll hs
    refine ⟨rfl, fun group => ?_⟩
    dsimp only
    rw [mem_extend hidentified hextended hk hnormal, mem_extend hidentified hagain hs hslopeNormal,
      mem_extend hidentified hk hs hslopeNormal, or_right_comm, or_iff_right_of_imp (@hsubset group)]

/-- Zero settles at once. -/
theorem settle_zero : ∃ steps, settle {} (zero : Expr Float) =
    .ok ⟨zero, [zero, zero, zero, zero], steps⟩ :=
  Round.settle_self ⟨⟨_, rfl, rfl⟩, ⟨_, rfl, rfl⟩, ⟨_, rfl, rfl⟩⟩ rfl (by decide)

/-- The slope of zero is zero. -/
theorem derivative_zero (name : String) : (zero : Expr Float).derivative name = zero := by
  rw [zero, Expr.real, derivative]
  exact if_neg (by simp [dependsOn, postOrder, postOrderOnto, isVar])

/-- The clauses of a power and one on an operand that counts as equal to none of its variables are told
apart by the order. -/
theorem identified_powerClauses {operand : Expr Float} (h : ∀ name, (name = "x" ∨ name = "y") →
    operand.order (.var name) ≠ .eq ∧ (var name : Expr Float).order operand ≠ .eq) :
    Identified (· ∈ powerClauses ++ [.plain operand .eq Scalar.zero]) := by
  intro c c' hc hc' heq
  have horder := (Clause.parts_of_order_eq (Clause.beq_iff.mp heq)).1
  simp only [powerClauses, List.cons_append, List.nil_append, List.mem_cons, List.not_mem_nil,
    or_false] at hc hc'
  obtain rfl | rfl | rfl := hc
  · obtain rfl | rfl | rfl := hc'
    · rfl
    · cases horder
    · exact absurd horder (h "x" (.inl rfl)).2
  · obtain rfl | rfl | rfl := hc'
    · cases horder
    · rfl
    · exact absurd horder (h "y" (.inr rfl)).2
  · obtain rfl | rfl | rfl := hc'
    · exact absurd horder (h "x" (.inl rfl)).1
    · exact absurd horder (h "y" (.inr rfl)).1
    · rfl

/-- The clauses of the run of the quotient, before and after they are tidied, are three that do not count
as equal. -/
theorem unambiguous_vanishingQuotient : vanishingQuotient.Unambiguous {} "x" := by
  have hgroups : ∀ x ∈ vanishingQuotient.postOrder, ∀ group ∈ groupsOf x, ∀ c ∈ group,
      c ∈ powerClauses ++ [.plain cancelledSum .eq Scalar.zero] := by
    simp [vanishingQuotient, cancelledSum, postOrder, postOrderOnto, postOrderListOnto, groupsOf,
      Expr.real, powerClauses]
  have hraw (stages : List (Expr Float)) (hstages : ∀ e ∈ stages, e = vanishingQuotient ∨ e = zero) :
      ∀ c, Contributed stages c → c ∈ powerClauses ++ [.plain cancelledSum .eq Scalar.zero] := by
    rintro c ⟨e, he, x, hx, group, hgroup, hc⟩
    obtain rfl | rfl := hstages e he
    · exact hgroups x hx group hgroup c hc
    · obtain rfl : x = zero := by simpa [zero, Expr.real, postOrder, postOrderOnto] using hx
      cases hgroup
  have htidy (stages : List (Expr Float)) (hstages : ∀ e ∈ stages, e = vanishingQuotient ∨ e = zero) :
      ∀ c, Tidied {} stages c → c ∈ powerClauses ++ [.plain (.var "z") .eq Scalar.zero] := by
    rintro c ⟨raw, hcontributed, htidy⟩
    have hmem := hraw stages hstages raw hcontributed
    simp only [powerClauses, List.cons_append, List.nil_append, List.mem_cons, List.not_mem_nil,
      or_false] at hmem
    obtain rfl | rfl | rfl := hmem
    · rw [Clause.tidy_var (canonicalForm_var "x")] at htidy
      exact Except.ok.inj htidy ▸ .head _
    · rw [Clause.tidy_var (canonicalForm_var "y")] at htidy
      exact Except.ok.inj htidy ▸ .tail _ (.head _)
    · rw [Clause.tidy_var canonicalForm_cancelledSum] at htidy
      exact Except.ok.inj htidy ▸ .tail _ (.tail _ (.head _))
  have hsum : Identified (· ∈ powerClauses ++ [.plain cancelledSum .eq Scalar.zero]) :=
    identified_powerClauses fun name _ => ⟨by rintro ⟨⟩, by rintro ⟨⟩⟩
  have hvar : Identified (· ∈ powerClauses ++ [.plain (.var "z") .eq Scalar.zero]) := by
    refine identified_powerClauses fun name hname => ?_
    obtain rfl | rfl := hname
    · exact ⟨by rintro ⟨⟩, by rintro ⟨⟩⟩
    · exact ⟨by rintro ⟨⟩, by rintro ⟨⟩⟩
  obtain ⟨steps, hsettle⟩ := settle_vanishingQuotient
  obtain ⟨slopeSteps, hslope⟩ := settle_zero
  refine ⟨fun run hrun => ?_, fun run hrun => ?_, fun run slope hrun hslopeRun => ?_⟩
  · obtain rfl := Except.ok.inj (hsettle.symm.trans hrun)
    have hstages := hraw (vanishingQuotient :: List.replicate 6 zero) (by simp)
    exact fun c c' hc hc' => hsum c c' (hstages c hc) (hstages c' hc')
  · obtain rfl := Except.ok.inj (hsettle.symm.trans hrun)
    have hstages := htidy (vanishingQuotient :: List.replicate 6 zero) (by simp)
    exact fun c c' hc hc' => hvar c c' (hstages c hc) (hstages c' hc')
  · obtain rfl := Except.ok.inj (hsettle.symm.trans hrun)
    rw [derivative_zero] at hslopeRun
    obtain rfl := Except.ok.inj (hslope.symm.trans hslopeRun)
    have hstages := htidy (vanishingQuotient :: List.replicate 10 zero) (by simp)
    exact fun c c' hc hc' => hvar c c' (hstages c hc) (hstages c' hc')

/-- A quotient whose canonical form is zero has the derivative zero. If its canonical form is
differentiated there are no exclusions, to which those of the canonical form are added. -/
theorem differentiate_canonical_quotient :
    let x : Exclusions Float := ⟨[powerClauses, [.plain (.var "z") .eq Scalar.zero]]⟩
    ∃ k s s', vanishingQuotient.Unambiguous {} "x" ∧ vanishingQuotient.canonicalize {} = .ok k ∧
      k.exclusions = x ∧ k.expr.differentiate {} "x" = .ok s ∧ s.exclusions = .empty ∧
      vanishingQuotient.differentiate {} "x" = .ok s' ∧ s'.exclusions = x ∧
      s.expr = s'.expr ∧
        ∀ group, group ∈ (s.exclusions.extend k.exclusions).groups ↔ group ∈ s'.exclusions.groups := by
  intro x
  obtain ⟨steps, hk⟩ := canonicalize_vanishingQuotient
  obtain ⟨zeroSteps, hsettle⟩ := settle_zero
  have hzero : (zero : Expr Float).canonicalize {} = .ok ⟨zero, .empty, zeroSteps⟩ :=
    canonicalize_of_settle hsettle rfl
  have hslope : ((zero : Expr Float).derivative "x").canonicalize {} = .ok ⟨zero, .empty, zeroSteps⟩ := by
    rw [derivative_zero, hzero]
  have hs : (zero : Expr Float).differentiate {} "x" =
      .ok ⟨zero, .extend .empty .empty, zeroSteps ++ zeroSteps⟩ :=
    (differentiate_eq_ok hzero).mpr ⟨_, hslope, rfl⟩
  have hs' : vanishingQuotient.differentiate {} "x" =
      .ok ⟨zero, x.extend .empty, steps ++ zeroSteps⟩ :=
    (differentiate_eq_ok hk).mpr ⟨_, hslope, rfl⟩
  exact ⟨_, _, _, unambiguous_vanishingQuotient, hk, rfl, hs, rfl, hs', rfl,
    (differentiate_canonical unambiguous_vanishingQuotient hk).2 _ _ hs hs'⟩

end Expr

end SymbolicAlgebra
