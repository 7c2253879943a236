import SymbolicAlgebra.Proofs.Canonical.Recovered
import SymbolicAlgebra.Proofs.Grammar.Expression

/-!
# Reading canonical expressions back

The text of a canonical expression is read as an expression with the same canonical form. What is read
differs from what was written, since signs and the parts of coefficients become factors and divisors of
their own, but simplification undoes that.
-/

namespace SymbolicAlgebra.Expr

variable {α : Type} [Scalar α]

/-- The name of a variable is a single letter other than `e`. -/
def LetterNode : Expr α → Prop
  | .var name => ∃ c : Char, name = String.ofList [c] ∧ c.isAlpha = true ∧ c ≠ 'e'
  | _ => True

/-- The numbers that are written at this node: a literal, or the parts of a coefficient. -/
def numbers : Expr α → List α
  | .number (.real v) => [v]
  | .product c _ _ => [c.numer, c.denom]
  | _ => []

open Reduction

/-- A stable expression is legible if its variables are letters, its numbers are well formed and
finite, and their texts are read back. -/
theorem legible_of_stable [Scalar.Signed α] {e : Expr α} (hstable : Stable e)
    (hletters : e.Everywhere LetterNode) (hformed : e.Everywhere FormedNode)
    (hnumbers : e.Everywhere fun x => ∀ v ∈ x.numbers, Scalar.isFinite v = true ∧ Scalar.ReadsBack v) :
    e.Everywhere LegibleNode := by
  intro x hx
  have hletter := hletters x hx
  have hnode := hformed x hx
  have hnumber := hnumbers x hx
  cases x with
  | sum as =>
    rintro rfl
    have := two_le_length_of_stable (hstable.node hx)
    simp at this
  | product c n d =>
    have hnumer : Scalar.unsignZero c.numer = c.numer :=
      Scalar.unsignZero_of_ne (stable_product.mp (hstable.node hx)).1.coefficient
    have hdenom : Scalar.unsignZero c.denom = c.denom := Scalar.unsignZero_of_ne hnode.denom_ne_zero
    obtain ⟨hfinite, hback⟩ := hnumber c.numer (by simp [numbers])
    obtain ⟨hfinite', hback'⟩ := hnumber c.denom (by simp [numbers])
    exact ⟨⟨hfinite, hnumer, hback⟩, hfinite', hdenom, hback'⟩
  | number v =>
    cases v with
    | real v =>
      obtain ⟨hfinite, hback⟩ := hnumber v (by simp [numbers])
      exact ⟨hfinite, hnode, hback⟩
    | constant k => trivial
  | var name => exact hletter
  | _ => trivial

/-- The text of a canonical expression is read with the table of the grammar of expressions, and what is
read has an expression that counts as equal to it as its canonical form, under all limits that are
large enough. The numbers that it was made from must come from their constructors. Its variables must
be letters other than `e` and its numbers finite; that the text of a number is read back as the number
is assumed. -/
theorem canonicalize_text {limits : Limits} {e : Expr Float} {k : Canonical Float}
    (hformed : e.Everywhere FormedNode) (h : e.canonicalize limits = .ok k)
    (hletters : k.expr.Everywhere LetterNode)
    (hnumbers : k.expr.Everywhere fun x =>
      ∀ v ∈ x.numbers, Scalar.isFinite v = true ∧ Scalar.ReadsBack v) :
    ∃ table, Table.expression = .ok table ∧ ∃ least : Limits, ∀ limits, least ≤ limits →
      ∃ r k', read table limits k.expr.text = .ok r ∧ r.canonicalize limits = .ok k' ∧
        (k'.expr == k.expr) = true := by
  obtain ⟨found, hfound, hvalue, -⟩ := settle_of_canonicalize h
  obtain ⟨stages, -, hrun⟩ := settling_of_settle hfound
  rw [hvalue] at hrun
  replace hformed := formed_settling hrun hformed _ hrun.last_mem
  obtain ⟨hstable, hunlike, hround⟩ := hrun.reduced
  have hself := recovers_self hstable hunlike
  have hreread := (recovers_reread hstable hunlike hformed).1
  have hclauses : ∀ stage ∈ [k.expr.reread, k.expr, k.expr, k.expr],
      stage.Everywhere ClausesTerminate := by
    simp only [List.forall_mem_cons]
    exact ⟨hreread.clauses, hself.clauses, hself.clauses, hself.clauses, by simp⟩
  obtain ⟨table, htable, hreads⟩ := Table.exists_expression
  obtain ⟨depth, hread⟩ := exists_read hreads (Table.built_of_expression htable)
    (legible_of_stable hstable hletters hformed hnumbers)
  have heventually := (eventually_canonicalize hreread.round hround hclauses).and
    (Filter.eventually_ge_atTop (⟨0, depth, 0⟩ : Limits))
  obtain ⟨least, hleast⟩ := Filter.eventually_atTop.mp heventually
  refine ⟨table, htable, least, fun limits hlimits => ?_⟩
  obtain ⟨⟨k', hk', hexpr⟩, -, hdepth, -⟩ := hleast limits hlimits
  exact ⟨k.expr.reread, k', hread limits hdepth, hk', by rw [hexpr, beq_self]⟩

/-- Minus three halves of a variable over another is canonical, and its text is read back. -/
theorem canonicalize_text_quotient :
    let e : Expr Float := .product ⟨Scalar.ofInt (-3), Scalar.ofInt 2⟩ [.var "x"] [.var "y"]
    ∃ limits k, e.Everywhere FormedNode ∧ e.canonicalize limits = .ok k ∧ k.expr = e ∧
      k.expr.Everywhere LetterNode ∧
      (k.expr.Everywhere fun x =>
        ∀ v ∈ x.numbers, Scalar.isFinite v = true ∧ Scalar.ReadsBack v) ∧
      ∃ table, Table.expression = .ok table ∧ ∃ least : Limits, ∀ limits, least ≤ limits →
        ∃ r k', read table limits k.expr.text = .ok r ∧ r.canonicalize limits = .ok k' ∧
          (k'.expr == k.expr) = true := by
  intro e
  have hstable : Stable e := by
    refine stable_product.mpr ⟨?_, by simp [stable_var], by simp [stable_var]⟩
    exact {
      coefficient := rfl
      sortedAbove := List.pairwise_singleton _ _
      sortedBelow := List.pairwise_singleton _ _
      factors := by simp [isProduct, real?]
      divisors := .inl (by simp [isProduct, real?])
      notSum := by simp
      apart := by
        have hne : ((.var "y" : Expr Float) == .var "x") = false := rfl
        simp [powerParts, hne]
      nonempty := by simp
      scaled := by simp }
  have hunlike : Unlike e := unlike_product.mpr
    ⟨⟨List.pairwise_singleton _ _, List.pairwise_singleton _ _⟩, by simp [unlike_var], by simp [unlike_var]⟩
  have hself := recovers_self hstable hunlike
  obtain ⟨limits, k, hk, hexpr⟩ := (eventually_canonicalize hself.round hself.round
    (by simpa using hself.clauses)).exists
  have hnodes {p : Expr Float → Prop} (he : p e) (hx : p (.var "x")) (hy : p (.var "y")) :
      e.Everywhere p := by
    intro node hnode
    simp only [e, postOrder, postOrderOnto, postOrderListOnto, List.mem_cons, List.not_mem_nil,
      or_false] at hnode
    obtain rfl | rfl | rfl := hnode
    · exact hx
    · exact hy
    · exact he
  have hformed : e.Everywhere FormedNode := hnodes (.inl (by decide +kernel)) trivial trivial
  have hletters : k.expr.Everywhere LetterNode :=
    hexpr ▸ hnodes trivial ⟨'x', rfl, rfl, by decide⟩ ⟨'y', rfl, rfl, by decide⟩
  have hnumbers : k.expr.Everywhere fun x =>
      ∀ v ∈ x.numbers, Scalar.isFinite v = true ∧ Scalar.ReadsBack v := by
    rw [hexpr]
    refine hnodes ?_ (by simp [numbers]) (by simp [numbers])
    simp only [e, numbers, List.forall_mem_cons, Scalar.ReadsBack]
    exact ⟨by decide +kernel, by decide +kernel, by simp⟩
  exact ⟨limits, k, hformed, hk, hexpr, hletters, hnumbers,
    canonicalize_text hformed hk hletters hnumbers⟩

end SymbolicAlgebra.Expr
