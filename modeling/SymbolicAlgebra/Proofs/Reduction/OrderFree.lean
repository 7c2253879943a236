import SymbolicAlgebra.Proofs.Expr.Nodes
import SymbolicAlgebra.Proofs.Reduction.Cancelling
import SymbolicAlgebra.Proofs.Reduction.Outcomes

/-!
# Simplifying reordered expressions

A sum adds up its literals from the smallest on, but a product multiplies its coefficients in the
sequence in which they come, and cancels the first common base that it meets. Where neither of these
matters for any product of an expression, and expressions that count as equal are the same, the rules
make the same of the expression and of its reorderings.
-/

namespace SymbolicAlgebra.Reduction

open SymbolicAlgebra.Expr Fraction

variable {α : Type} [Scalar α]

/-- The rules make the second expression of the first under some bound. -/
def Simplifies (e e' : Expr α) : Prop := ∃ fuel, (simplify fuel e).Returns e'

/-- Neither the sequence of the factors of a product nor that of its cancellations matters: the
coefficients multiply to the same in every sequence, all ways to cancel end alike, and factors that
count as equal are the same. -/
structure OrderFreeProduct (c : Coefficient α) (n d : List (Expr α)) : Prop where
  coefficient {n' d' : List (Expr α)} : n.Perm n' → d.Perm d' →
    (gather c n d).coefficient = (gather c n' d').coefficient
  agree (f g : Fraction α) : Cancelled (gather c n d) f → Cancelled (gather c n d) g → Alike f g
  discernible (f : Fraction α) : Cancelled (gather c n d) f →
    Discernible f.numerator ∧ Discernible f.denominator

/-- The sequence of operands does not matter at a node, after the rules have been applied to them. -/
def OrderFreeNode : Expr α → Prop
  | .sum as => ∀ as', List.Forall₂ Simplifies as as' → Discernible (as'.flatMap Expr.addends)
  | .product c n d => ∀ n' d', List.Forall₂ Simplifies n n' → List.Forall₂ Simplifies d d' →
    OrderFreeProduct c n' d'
  | _ => True

/-- A product without a base on both sides of its line has no choice of cancellations. -/
theorem orderFreeProduct_of_apart {c : Coefficient α} {n d : List (Expr α)}
    (hcoefficient : ∀ {n' d'}, n.Perm n' → d.Perm d' →
      (gather c n d).coefficient = (gather c n' d').coefficient)
    (hapart : common? (gather c n d).denominator (gather c n d).numerator = none)
    (hn : Discernible (gather c n d).numerator) (hd : Discernible (gather c n d).denominator) :
    OrderFreeProduct c n d := by
  have hself {f : Fraction α} (hf : Cancelled (gather c n d) f) : gather c n d = f := by
    obtain rfl | ⟨mid, hstep, -⟩ := hf.1.cases_head
    · rfl
    · cases hstep <;> exact (not_shares_of_common? hapart _ ‹_›).elim
  refine ⟨hcoefficient, fun f g hf hg => ?_, fun f hf => ?_⟩
  · rw [← hself hf, ← hself hg]
    exact .refl _
  · rw [← hself hf]
    exact ⟨hn, hd⟩

section Lawful

variable [Scalar.Lawful α]

/-- Adding up numbers does not depend on their sequence where those of the same place in the order are
the same. -/
theorem total_congr {vs ws : List α} (h : vs.Perm ws)
    (hvs : ∀ a ∈ vs, ∀ b ∈ vs, Scalar.order a b = .eq → a = b) : total vs = total ws := by
  rw [total, total, mergeSort_congr Scalar.order h hvs]

/-- What is added up sorts the same in every sequence of addends that can be told apart. -/
theorem sort_sumTerms_congr {flat flat' : List (Expr α)} (h : flat.Perm flat')
    (hflat : Discernible flat) : sort (sumTerms flat) = sort (sumTerms flat') := by
  have hliterals : total (flat.filterMap Expr.real?) = total (flat'.filterMap Expr.real?) := by
    refine total_congr (h.filterMap _) fun a ha b hb hab => ?_
    obtain ⟨x, hx, hxa⟩ := List.mem_filterMap.mp ha
    obtain ⟨y, hy, hyb⟩ := List.mem_filterMap.mp hb
    obtain rfl := eq_number_of_real? hxa
    obtain rfl := eq_number_of_real? hyb
    have hsame := hflat _ hx _ hy (beq_iff.mpr hab)
    rw [hsame, hyb] at hxa
    exact (Option.some.inj hxa).symm
  have hkept : (keptAddends flat).Perm (keptAddends flat') := (h.filter _).filter _
  have hdistinct : Discernible (keptAddends flat) :=
    hflat.subset fun a ha => (mem_keptAddends.mp ha).1
  rw [sumTerms, sumTerms, ← hliterals]
  split
  · exact sort_congr hkept hdistinct
  · -- the sum of the literals is the only literal among the terms
    have hliteral {a : Expr α} (ha : a ∈ keptAddends flat) (v : α) :
        (a == Expr.real v) = false := by
      have hnone := (mem_keptAddends.mp ha).2.1
      cases a with
      | number n =>
        cases n with
        | real w => cases hnone
        | constant c => rfl
      | _ => rfl
    refine sort_congr (hkept.append_right _) fun a ha b hb hab => ?_
    simp only [List.mem_append, List.mem_singleton] at ha hb
    obtain ha | rfl := ha <;> obtain hb | rfl := hb
    · exact hdistinct a ha b hb hab
    · rw [hliteral ha] at hab
      cases hab
    · rw [beq_comm, hliteral hb] at hab
      cases hab
    · rfl

/-- The rule for sums makes the same of addends in every sequence. -/
theorem sumRule_congr {as as' : List (Expr α)} (h : as.Perm as')
    (has : Discernible (as.flatMap Expr.addends)) : (sumRule as).value = (sumRule as').value := by
  rw [sumRule_value, sumRule_value, sort_sumTerms_congr (h.flatMap_right _) has]

/-- The rule for products makes the same of factors in every sequence. -/
theorem productRule_congr {c : Coefficient α} {n n' d d' : List (Expr α)}
    (h : OrderFreeProduct c n d) (hn : n.Perm n') (hd : d.Perm d') {fuel : Nat} {e e' : Expr α}
    (he : (productRule fuel c n d).Returns e) (he' : (productRule fuel c n' d').Returns e') :
    e = e' := by
  cases fuel with
  | zero =>
    rw [productRule] at he
    exact (Reducing.not_returns_exhausted he).elim
  | succ fuel =>
    simp only [productRule, Reducing.returns_bind, Reducing.returns_liftM] at he he'
    obtain ⟨_, rfl, _, rfl, f, hf, rfl⟩ := he
    obtain ⟨_, rfl, _, rfl, f', hf', rfl⟩ := he'
    have hgather : Alike (gather c n d) (gather c n' d') :=
      ⟨sameFactors_gather c hn hd, h.coefficient hn hd⟩
    have hf := cancelled_of_returns hf
    obtain ⟨hnumerator, hdenominator⟩ := h.discernible f hf
    rw [(hgather.cancelled h.agree hf (cancelled_of_returns hf')).finish_eq hnumerator hdenominator]

omit [Scalar.Lawful α] in
/-- What the rules make of the reorderings of the expressions of a list is what they make of these,
in another sequence, if they make the same of each expression and of its reorderings. -/
theorem perm_of_reorderedAll {fuel : Nat} {es fs : List (Expr α)}
    (hsame : ∀ e ∈ es, ∀ f s s', Reordered e f → (simplify fuel e).Returns s →
      (simplify fuel f).Returns s' → s = s')
    (h : ReorderedAll es fs) {ss ss' : List (Expr α)}
    (hs : List.Forall₂ (fun e s => (simplify fuel e).Returns s) es ss)
    (hs' : List.Forall₂ (fun e s => (simplify fuel e).Returns s) fs ss') : ss.Perm ss' := by
  induction es generalizing fs ss ss' with
  | nil =>
    cases h
    cases hs
    cases hs'
    exact .nil
  | cons e es ih =>
    rw [List.forall_mem_cons] at hsame
    obtain _ | ⟨hfirst, hothers⟩ := hs
    obtain _ | ⟨he, hrest⟩ := h
    obtain ⟨before, s, after, rfl, hbefore, hs, hafter⟩ := forall₂_middle hs'
    obtain rfl := hsame.1 _ _ _ he hfirst hs
    have hperm := ih hsame.2 hrest hothers (List.rel_append hbefore hafter)
    exact (hperm.cons _).trans List.perm_middle.symm

/-- The rules make the same of an expression and of its reorderings. -/
theorem simplify_reordered {t u : Expr α} (h : Reordered t u) (ht : t.Everywhere OrderFreeNode)
    {fuel : Nat} {s s' : Expr α} (hs : (simplify fuel t).Returns s)
    (hs' : (simplify fuel u).Returns s') : s = s' := by
  induction fuel generalizing t u s s' with
  | zero =>
    rw [simplify] at hs
    exact (Reducing.not_returns_exhausted hs).elim
  | succ fuel ih =>
    obtain ⟨hroot, hbelow⟩ := everywhere_iff.mp ht
    have hall {es : List (Expr α)} (hes : es ⊆ t.children) :
        ∀ e ∈ es, ∀ f s s', Reordered e f → (simplify fuel e).Returns s →
          (simplify fuel f).Returns s' → s = s' :=
      fun e he _ _ _ hf hs hs' => ih hf (hbelow e (hes he)) hs hs'
    cases h with
    | sum has =>
      simp only [simplify, Reducing.returns_bind, Reducing.returns_mapList,
        Reducing.returns_liftM] at hs hs'
      obtain ⟨as, hs, rfl⟩ := hs
      obtain ⟨as', hs', rfl⟩ := hs'
      exact sumRule_congr (perm_of_reorderedAll (hall (List.Subset.refl _)) has hs hs')
        (hroot as (hs.imp fun _ _ h => ⟨fuel, h⟩))
    | product hn hd =>
      simp only [simplify, Reducing.returns_bind, Reducing.returns_mapList] at hs hs'
      obtain ⟨n, hsn, d, hsd, hs⟩ := hs
      obtain ⟨n', hsn', d', hsd', hs'⟩ := hs'
      refine productRule_congr
        (hroot n d (hsn.imp fun _ _ h => ⟨fuel, h⟩) (hsd.imp fun _ _ h => ⟨fuel, h⟩)) ?_ ?_ hs hs'
      · exact perm_of_reorderedAll (hall (List.subset_append_left _ _)) hn hsn hsn'
      · exact perm_of_reorderedAll (hall (List.subset_append_right _ _)) hd hsd hsd'
    | power hbase hexponent =>
      simp only [simplify, Reducing.returns_bind] at hs hs'
      obtain ⟨base, hsbase, exponent, hsexponent, hs⟩ := hs
      obtain ⟨base', hsbase', exponent', hsexponent', hs'⟩ := hs'
      obtain rfl := ih hbase (hbelow _ (by simp [children])) hsbase hsbase'
      obtain rfl := ih hexponent (hbelow _ (by simp [children])) hsexponent hsexponent'
      exact hs.unique hs'
    | log hbase hbody =>
      simp only [simplify, Reducing.returns_bind, Reducing.returns_liftM] at hs hs'
      obtain ⟨base, hsbase, body, hsbody, rfl⟩ := hs
      obtain ⟨base', hsbase', body', hsbody', rfl⟩ := hs'
      obtain rfl := ih hbase (hbelow _ (by simp [children])) hsbase hsbase'
      obtain rfl := ih hbody (hbelow _ (by simp [children])) hsbody hsbody'
      rfl
    | trig hbody =>
      simp only [simplify, Reducing.returns_bind, Reducing.returns_liftM] at hs hs'
      obtain ⟨body, hsbody, rfl⟩ := hs
      obtain ⟨body', hsbody', rfl⟩ := hs'
      rw [ih hbody (hbelow _ (by simp [children])) hsbody hsbody']
    | var name => exact hs.unique hs'
    | number n => exact hs.unique hs'

end Lawful

end SymbolicAlgebra.Reduction
