import SymbolicAlgebra.Proofs.Exact.Merge
import SymbolicAlgebra.Proofs.Reduction.NormalForm
import SymbolicAlgebra.Proofs.Reduction.Settling

/-!
# Runs keep what expressions mean

Simplification keeps what an expression means wherever it means something, as long as it rounds no
logarithm of literals to a whole number, and combination does so as long as it drops no coefficient
either. Hence every stage of a run without such a loss means what the expression that the run started
from means.

In normal form, where no product is a factor of another, every product of a finite expression is finite
if all sums and all bases of powers are, so that no divisor is zero. Hence the canonical form of what is
defined at a point has its value there, unless it raises zero to a negative power.
-/

namespace SymbolicAlgebra.Reduction

open Exact Projective SymbolicAlgebra.Expr

section Stages

variable {α : Type}

/-- The stages of rounds that like terms and like factors are combined in: the first of each. -/
def combined : List (Expr α) → List (Expr α)
  | first :: _ :: _ :: stages => first :: combined stages
  | _ => []

variable [Scalar α]

/-- No coefficient is dropped and no logarithm of literals is rounded in the rounds from an expression on,
through the given stages. -/
structure LosslessStages (e : Expr α) (stages : List (Expr α)) : Prop where
  lossless : ∀ x ∈ combined stages, Lossless (nestingBound x.size) x
  unrounded : PerformedThroughout Operation.Unrounded e stages

/-- No coefficient is dropped and no logarithm of literals is rounded in any round that an expression goes
through until it settles. -/
def LosslessRun (limits : Limits) (e : Expr α) : Prop :=
  ∀ found, settle limits e = .ok found → LosslessStages e found.stages.tail

/-- A round without a loss: its passes that apply all rules round no logarithm, and the one that combines like
parts is faithful. -/
structure LosslessRound (e first second : Expr Exact) : Prop where
  simplified : (Call.simplify e).Unrounded
  merged : Faithful (nestingBound first.size) first
  again : (Call.simplify second).Unrounded

/-- Stages without a loss begin with a round without one. -/
theorem LosslessStages.round {e first second third : Expr Exact} {stages : List (Expr Exact)}
    (h : LosslessStages e (first :: second :: third :: stages)) :
    LosslessRound e first second ∧ LosslessStages third stages := by
  obtain ⟨hlossless, hsimplified, hmerged, hagain, hrest⟩ := h
  rw [combined, List.forall_mem_cons] at hlossless
  exact ⟨⟨hsimplified, ⟨hlossless.1, hmerged⟩, hagain⟩, hlossless.2, hrest⟩

end Stages

variable {b : Bindings Exact}

/-- Without a loss a round keeps what an expression means. -/
theorem Round.meaning_le {e first second third : Expr Exact} (h : Round e first second third)
    (hlossless : LosslessRound e first second) :
    e.meaning b ≤ first.meaning b ∧ e.meaning b ≤ second.meaning b ∧
      e.meaning b ≤ third.meaning b := by
  have hfirst : e.meaning b ≤ first.meaning b := meaning_simplify h.simplified hlossless.simplified
  have hsecond : e.meaning b ≤ second.meaning b :=
    hfirst.trans (meaning_merge first h.merged hlossless.merged)
  exact ⟨hfirst, hsecond, hsecond.trans (meaning_simplify h.again hlossless.again)⟩

/-- Without a loss every stage of a run means what the run started from. -/
theorem Settling.meaning_le {e last : Expr Exact} {stages : List (Expr Exact)}
    (h : Settling e stages last) (hlossless : LosslessStages e stages) :
    ∀ x ∈ stages, e.meaning b ≤ x.meaning b := by
  induction h with
  | last round _ =>
    obtain ⟨hfirst, hsecond, hthird⟩ := round.meaning_le (b := b) hlossless.round.1
    simpa using ⟨hfirst, hsecond, hthird⟩
  | next round _ ih =>
    obtain ⟨hround, hlossless⟩ := hlossless.round
    obtain ⟨hfirst, hsecond, hthird⟩ := round.meaning_le (b := b) hround
    have hrest := ih hlossless
    simpa using ⟨hfirst, hsecond, hthird, fun x hx => hthird.trans (hrest x hx)⟩

/-- Without a loss a round makes a firm expression of a firm one that has a meaning. -/
theorem Round.firm {e first second third : Expr Exact} (h : Round e first second third)
    (hlossless : LosslessRound e first second) (hfirm : e.Firm b) (hmeaning : e.meaning b ≠ absent) :
    third.Firm b := by
  obtain ⟨hfirst, hsecond, -⟩ := h.meaning_le (b := b) hlossless
  have hfirstFirm := firm_simplify h.simplified hlossless.simplified hfirm hmeaning
  have hsecondFirm := firm_merge first h.merged hlossless.merged (simplify_normal h.simplified)
    hfirstFirm (ne_absent_of_le hfirst hmeaning)
  exact firm_simplify h.again hlossless.again hsecondFirm (ne_absent_of_le hsecond hmeaning)

/-- Without a loss what is firm and has a meaning settles at what is firm. -/
theorem Settling.firm {e last : Expr Exact} {stages : List (Expr Exact)}
    (h : Settling e stages last) (hlossless : LosslessStages e stages) (hfirm : e.Firm b)
    (hmeaning : e.meaning b ≠ absent) : last.Firm b := by
  induction h with
  | last round _ => exact round.firm hlossless.round.1 hfirm hmeaning
  | next round _ ih =>
    obtain ⟨hround, hlossless⟩ := hlossless.round
    obtain ⟨-, -, hthird⟩ := round.meaning_le (b := b) hround
    exact ih hlossless (round.firm hround hfirm hmeaning) (ne_absent_of_le hthird hmeaning)

/-- Without a loss the canonical form of an expression means what the expression does. -/
theorem meaning_canonicalForm {limits : Limits} {e e' : Expr Exact}
    (h : canonicalForm limits e = .ok e') (hlossless : LosslessRun limits e) :
    e.meaning b ≤ e'.meaning b := by
  rw [canonicalForm] at h
  obtain ⟨found, hfound, h⟩ := ok_of_bind h
  cases h
  obtain ⟨stages, hstages, hrun⟩ := settling_of_settle hfound
  have hkept := hlossless found hfound
  rw [hstages, List.tail_cons] at hkept
  exact hrun.meaning_le hkept _ hrun.last_mem

end SymbolicAlgebra.Reduction

namespace SymbolicAlgebra.Expr

open Exact Projective Reduction

variable {b : Bindings Exact} {limits : Limits}

/-- The products among the parts of a firm expression in normal form mean real numbers. -/
theorem isFinite_of_mem_children {e child : Expr Exact} (hnormal : e.Normal) (hfirm : e.Firm b)
    (hmeaning : e.meaning b ≠ absent) (hchild : child ∈ e.children)
    (hproduct : child.isProduct = true) : (child.meaning b).IsFinite := by
  cases e with
  | sum as => exact (firm_sum.mp hfirm child hchild).isFinite
  | product c n d =>
    rw [isProduct_factor hnormal child hchild] at hproduct
    cases hproduct
  | power base exponent =>
    rw [Expr.meaning] at hmeaning
    obtain rfl | rfl : child = base ∨ child = exponent := by simpa [children] using hchild
    · exact (firm_power.mp hfirm).1.isFinite
    · exact (isFinite_of_power hmeaning).2
  | log base body =>
    rw [Expr.meaning] at hmeaning
    obtain ⟨hbase, hbody, -⟩ := isFinite_of_log hmeaning
    obtain rfl | rfl : child = base ∨ child = body := by simpa [children] using hchild
    · exact hbase
    · exact hbody
  | trig f body =>
    rw [Expr.meaning] at hmeaning
    obtain rfl : child = body := by simpa [children] using hchild
    exact (isFinite_of_apply hmeaning).1
  | var name => cases hchild
  | number v => cases hchild

/-- No node of a firm expression in normal form breaks a recorded condition where the expression means
a real number. -/
theorem not_recorded_of_firm {e : Expr Exact} (hnormal : e.Normal) (hfirm : e.Firm b)
    (hfinite : (e.meaning b).IsFinite) : ∀ x ∈ e.postOrder, ¬ Recorded b x := by
  have hnodes : e.Everywhere fun x => x.Normal ∧ x.Firm b ∧ x.meaning b ≠ absent ∧
      (x.isProduct = true → (x.meaning b).IsFinite) := by
    refine everywhere_of_children ?_ e ⟨hnormal, hfirm, hfinite.ne_absent, fun _ => hfinite⟩
    rintro x ⟨hnormal, hfirm, hmeaning, -⟩ child hchild
    exact ⟨hnormal.child hchild, hfirm.child hchild,
      meaning_ne_absent_of_mem_children hmeaning hchild,
      isFinite_of_mem_children hnormal hfirm hmeaning hchild⟩
  intro x hx hrecorded
  obtain ⟨-, -, hmeaning, hproduct⟩ := hnodes x hx
  obtain habsent | ⟨hx, hinfinite⟩ := hrecorded.meaning
  · exact hmeaning habsent
  · rw [hinfinite] at hproduct
    exact not_isFinite_infinite (hproduct hx)

/-- Where an expression is defined its canonical form has the same value, unless a coefficient is dropped or
a logarithm rounded on the way to it or it raises zero to a negative power. -/
theorem value_canonicalForm {e e' : Expr Exact} {r : ℝ} (h : canonicalForm limits e = .ok e')
    (hlossless : LosslessRun limits e) (hdefined : e.Defined b) (hvalue : e.value b = .ok (.number r)) :
    e'.value b = .ok (.number r) ∨
      (e'.value b = .ok missing ∧ ∃ x ∈ e'.postOrder, x.ZeroPower b) := by
  have hmeaning : e.meaning b = finite r := meaning_of_defined e hdefined hvalue
  have hkept : e'.meaning b = finite r := by
    rw [← finite_le_iff, ← hmeaning]
    exact meaning_canonicalForm h hlossless
  rw [canonicalForm] at h
  obtain ⟨found, hfound, h⟩ := ok_of_bind h
  cases h
  obtain ⟨stages, hstages, hrun⟩ := settling_of_settle hfound
  have hcombined := hlossless found hfound
  rw [hstages, List.tail_cons] at hcombined
  obtain ⟨second, hlast⟩ := hrun.simplified
  have hfirm : found.value.Firm b := hrun.firm hcombined hdefined.firm (by simp [hmeaning])
  have hbound := variablesIn_settling hrun (variablesIn_of_value hvalue) _ hrun.last_mem
  exact value_of_meaning hkept hbound
    (not_recorded_of_firm (simplify_normal hlast) hfirm ⟨r, hkept⟩)

end SymbolicAlgebra.Expr
