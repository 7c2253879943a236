import SymbolicAlgebra.Proofs.Canonical.Idempotent
import SymbolicAlgebra.Proofs.Reduction.OrderFree

/-!
# Canonical expressions of reordered operands

Two runs that start from reorderings of one expression agree from their first simplification on,
wherever products are free of their order. One of them may need a round more to notice that nothing
changes, but by then it has a fully reduced expression, which every further round gives back.
-/

namespace SymbolicAlgebra

namespace Reduction

open SymbolicAlgebra.Expr Fraction

variable {α : Type} [Scalar α]

/-- Rounds whose first simplifications agree give the same. -/
theorem Round.unique {e e' first second third first' second' third' : Expr α}
    (h : Round e first second third) (h' : Round e' first' second' third')
    (hsame : first = first') : third = third' := by
  obtain rfl := hsame
  obtain rfl := h.merged.unique h'.merged
  exact h.again.unique h'.again

/-- A run from an expression that a round gives back settles at it. -/
theorem Settling.eq_of_fixed {e last : Expr α} {stages : List (Expr α)} (h : Settling e stages last)
    (hfixed : Round e e e e) : last = e := by
  induction h with
  | last round _ => exact round.unique hfixed (round.simplified.unique hfixed.simplified)
  | next round _ ih =>
    obtain rfl := round.unique hfixed (round.simplified.unique hfixed.simplified)
    exact ih hfixed

/-- Two runs whose first simplifications agree settle at the same expression. -/
theorem Settling.unique [Scalar.Unital α] {e e' last last' : Expr α} {stages stages' : List (Expr α)}
    (h : Settling e stages last) (h' : Settling e' stages' last')
    (hsame : ∀ s s', (Reduction.simplified e).Returns s → (Reduction.simplified e').Returns s' →
      s = s') : last = last' := by
  induction h generalizing e' stages' with
  | last round hend =>
    obtain ⟨-, -, hfixed⟩ := (Settling.last round hend).reduced
    cases h' with
    | last round' _ => exact round.unique round' (hsame _ _ round.simplified round'.simplified)
    | next round' rest' =>
      obtain rfl := round.unique round' (hsame _ _ round.simplified round'.simplified)
      exact (rest'.eq_of_fixed hfixed).symm
  | next round rest ih =>
    cases h' with
    | last round' hend' =>
      obtain ⟨-, -, hfixed⟩ := (Settling.last round' hend').reduced
      obtain rfl := round.unique round' (hsame _ _ round.simplified round'.simplified)
      exact rest.eq_of_fixed hfixed
    | next round' rest' =>
      obtain rfl := round.unique round' (hsame _ _ round.simplified round'.simplified)
      exact ih rest' fun _ _ => Reducing.Returns.unique

/-- Factors that are no products and no literals make up a fraction as they are. -/
theorem gather_factors (c : Coefficient α) {n d : List (Expr α)}
    (hn : ∀ e ∈ n, e.isProduct = false ∧ e.real? = none)
    (hd : ∀ e ∈ d, e.isProduct = false ∧ e.real? = none) :
    gather c n d = { coefficient := c, numerator := n, denominator := d } := by
  rw [gather, absorbAll_factors .above _ hn, absorbAll_factors .below _ hd]
  simp

end Reduction

namespace Expr

open Reduction

/-- Expressions that are reorderings of each other have canonical forms that count as equal, if for no
product among them the sequence in which coefficients are multiplied or bases are cancelled matters,
and operands that count as equal are the same. -/
theorem canonicalize_reordered {limits : Limits} {t u : Expr Float} {k l : Canonical Float}
    (h : Reordered t u) (ht : t.Everywhere OrderFreeNode)
    (hk : t.canonicalize limits = .ok k) (hl : u.canonicalize limits = .ok l) :
    (k.expr == l.expr) = true := by
  obtain ⟨found, hfound, hvalue, -⟩ := settle_of_canonicalize hk
  obtain ⟨found', hfound', hvalue', -⟩ := settle_of_canonicalize hl
  obtain ⟨stages, -, hrun⟩ := settling_of_settle hfound
  obtain ⟨stages', -, hrun'⟩ := settling_of_settle hfound'
  have hsame : found.value = found'.value := by
    refine hrun.unique hrun' fun s s' hs hs' => simplify_reordered h ht hs ?_
    rw [simplified, h.size_eq] at hs'
    exact hs'
  rw [← hvalue, ← hvalue', hsame]
  exact beq_self _

/-- The product of two variables has the same canonical form in both orders. -/
theorem canonicalize_reordered_product :
    let t : Expr Float := .product .one [.var "y", .var "x"] []
    let u : Expr Float := .product .one [.var "x", .var "y"] []
    Reordered t u ∧ t.Everywhere OrderFreeNode ∧ ∃ k l, t.canonicalize {} = .ok k ∧
      u.canonicalize {} = .ok l ∧ (k.expr == l.expr) = true := by
  intro t u
  have hreordered : Reordered t u := .product (.of_perm (.swap ..)) .nil
  have hvar {name : String} {e : Expr Float} (h : Simplifies (.var name) e) : e = .var name := by
    obtain ⟨fuel, h⟩ := h
    cases fuel with
    | zero =>
      rw [simplify] at h
      exact (Reducing.not_returns_exhausted h).elim
    | succ fuel =>
      rw [simplify] at h
      exact (Reducing.returns_pure.mp h).symm
  have hfactors {n : List (Expr Float)} (hn : [.var "y", .var "x"].Perm n) :
      ∀ e ∈ n, e.isProduct = false ∧ e.real? = none := by
    intro e he
    have he := hn.symm.subset he
    simp only [List.mem_cons, List.not_mem_nil, or_false] at he
    obtain rfl | rfl := he <;> exact ⟨rfl, rfl⟩
  have hdistinct : Discernible ([.var "y", .var "x"] : List (Expr Float)) := by
    have hne : ((.var "y" : Expr Float) == .var "x") = false := rfl
    intro a ha b hb hab
    simp only [List.mem_cons, List.not_mem_nil, or_false] at ha hb
    obtain rfl | rfl := ha <;> obtain rfl | rfl := hb
    · rfl
    · rw [hne] at hab
      cases hab
    · rw [beq_comm, hne] at hab
      cases hab
    · rfl
  have hsorted : ([.var "x", .var "y"] : List (Expr Float)).Pairwise
      fun a b => a.order b ≠ .gt := by
    simp [show (Expr.var "x" : Expr Float).order (.var "y") = .lt from rfl]
  have hfree : OrderFreeProduct (.one : Coefficient Float) [.var "y", .var "x"] [] := by
    have hgather := gather_factors (.one : Coefficient Float) (hfactors (.refl _))
      (List.forall_mem_nil _)
    refine orderFreeProduct_of_apart (fun hn hd => ?_) ?_ ?_ ?_
    · obtain rfl := List.nil_perm.mp hd
      rw [hgather, gather_factors _ (hfactors hn) (List.forall_mem_nil _)]
    · rw [hgather]
      rfl
    · rw [hgather]
      exact hdistinct
    · rw [hgather]
      exact fun a ha => absurd ha List.not_mem_nil
  have hnode : t.Everywhere OrderFreeNode := by
    refine everywhere_iff.mpr ⟨fun n d hn hd => ?_, fun e he => ?_⟩
    · obtain _ | ⟨hy, _ | ⟨hx, ⟨⟩⟩⟩ := hn
      cases hd
      rw [hvar hy, hvar hx]
      exact hfree
    · have hleaf (name : String) : (.var name : Expr Float).Everywhere OrderFreeNode :=
        everywhere_iff.mpr ⟨trivial, by simp [children]⟩
      simp only [t, children, List.append_nil, List.mem_cons, List.not_mem_nil, or_false] at he
      obtain rfl | rfl := he <;> exact hleaf _
  have hp : Stable u := by
    refine stable_product.mpr ⟨?_, by simp [stable_var], by simp⟩
    exact {
      coefficient := rfl
      sortedAbove := hsorted
      sortedBelow := .nil
      factors := by simp [isProduct, real?]
      divisors := .inl (by simp)
      notSum := by simp
      apart := by simp
      nonempty := by simp
      scaled := by simp }
  have hmerged : (merged u).Returns u := by
    have hne : ((.var "x" : Expr Float) == .var "y") = false := rfl
    simp [merged, merge, mergeList, returns_mergeFactors, likeFactors, addExponent, powerParts,
      gatherPower, isReal_one, u, hne]
  have hfirst : (simplified t).Returns u := by
    obtain ⟨fuel, hfuel⟩ : ∃ fuel, nestingBound t.size = fuel + 3 := ⟨7997, rfl⟩
    rw [simplified, hfuel]
    simp only [simplify, Reducing.returns_bind, Reducing.returns_mapList, t]
    refine ⟨[.var "y", .var "x"], .cons ⟨_, rfl, rfl⟩ (.cons ⟨_, rfl, rfl⟩ .nil), [], .nil, ?_⟩
    simp only [productRule, Reducing.returns_bind, Reducing.returns_liftM]
    refine ⟨_, rfl, _, rfl, ⟨.one, [.var "y", .var "x"], [], false⟩, ?_, ?_⟩
    · rw [Reduction.cancel]
      exact ⟨_, rfl, rfl⟩
    · rw [Fraction.finish_eq rfl]
      change (Fraction.assemble _ (sort [.var "y", .var "x"]) (sort [])).value = u
      have hsort : sort [.var "y", .var "x"] = ([.var "x", .var "y"] : List (Expr Float)) :=
        (sort_congr (.swap ..) hdistinct).trans (sort_of_sorted hsorted)
      rw [hsort, sort_of_sorted .nil]
      rfl
  have hnext : Round u u u u := ⟨hp.simplified_returns, hmerged, hp.simplified_returns⟩
  have hround : Round t u u u := ⟨hfirst, hmerged, hp.simplified_returns⟩
  have hsize : ∀ s ∈ [t, u, u, u], checkSize {} s = .ok () := by
    simp only [List.forall_mem_cons]
    exact ⟨rfl, rfl, rfl, rfl, by simp⟩
  obtain ⟨steps, hsettle⟩ := hround.settle_next hnext rfl hsize (by decide)
  have hlimits : checkSize {} u = .ok () := rfl
  obtain ⟨steps', hsettle'⟩ := hnext.settle_self hlimits (by decide)
  have hk : t.canonicalize {} = .ok ⟨u, .empty, steps⟩ := canonicalize_of_settle hsettle rfl
  have hl : u.canonicalize {} = .ok ⟨u, .empty, steps'⟩ := canonicalize_of_settle hsettle' rfl
  exact ⟨hreordered, hnode, _, _, hk, hl, canonicalize_reordered hreordered hnode hk hl⟩

end Expr

end SymbolicAlgebra
