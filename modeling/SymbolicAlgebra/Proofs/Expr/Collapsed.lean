import SymbolicAlgebra.Proofs.Expr.Nodes
import SymbolicAlgebra.Proofs.Expr.Normal

/-!
# Collapsed expressions

Expressions without nodes that could be collapsed: no sum of fewer than two addends, no product without
factors, and no product that is but one factor. What coefficients a single factor may have is left open.
The opposite of a collapsed expression is collapsed only if the opposites of these coefficients are among
them.
-/

namespace SymbolicAlgebra

namespace Expr

variable {α : Type}

/-- There are too few operands at this node: it is a sum of fewer than two addends, or a product without
factors. -/
def Lacking : Expr α → Prop
  | sum as => as.length < 2
  | product _ n d => n = [] ∧ d = []
  | _ => False

/-- The product at this node is a single factor above the line, and its coefficient is one. -/
def LoneFactor [Scalar α] : Expr α → Prop
  | product c n d => c.isOne = true ∧ (∃ x, n = [x]) ∧ d = []
  | _ => False

/-- A sum at this node has at least two addends and none of them is a sum, and a product has factors and
none of them is a product; a product that is a single factor above the line has a certain coefficient. -/
def Compact (q : Coefficient α → Prop) : Expr α → Prop
  | sum as => 2 ≤ as.length ∧ ∀ a ∈ as, a.isSum = false
  | product c n d =>
    (n ≠ [] ∨ d ≠ []) ∧ (∀ x, n = [x] → d = [] → q c) ∧ ∀ x ∈ n ++ d, x.isProduct = false
  | _ => True

/-- There is nothing to collapse at any node but single factors with a certain coefficient. -/
def Collapsed (q : Coefficient α → Prop) (e : Expr α) : Prop := e.Everywhere (Compact q)

/-- The opposites of the addends that scale a single factor have a certain coefficient. -/
def Opposable [Scalar α] (q : Coefficient α → Prop) (e : Expr α) : Prop :=
  ∀ a ∈ e.addends, ∀ c x, a = product c [x] [] → q (-c)

variable {q : Coefficient α → Prop}

/-- Literals have nothing to collapse. -/
theorem collapsed_number (n : Number α) : (number n).Collapsed q := everywhere_of_leaf rfl trivial

/-- A sum is collapsed if it has enough addends, no sums among them, and these are collapsed. -/
theorem collapsed_sum {as : List (Expr α)} : (sum as).Collapsed q ↔
    (2 ≤ as.length ∧ ∀ a ∈ as, a.isSum = false) ∧ ∀ a ∈ as, a.Collapsed q := everywhere_iff

/-- A product is collapsed if it is so at its root and its factors are collapsed. -/
theorem collapsed_product {c : Coefficient α} {n d : List (Expr α)} : (product c n d).Collapsed q ↔
    ((n ≠ [] ∨ d ≠ []) ∧ (∀ x, n = [x] → d = [] → q c) ∧ ∀ x ∈ n ++ d, x.isProduct = false) ∧
      ∀ x ∈ n ++ d, x.Collapsed q := everywhere_iff

/-- A power is collapsed if its parts are. -/
theorem collapsed_power {base exponent : Expr α} :
    (power base exponent).Collapsed q ↔ base.Collapsed q ∧ exponent.Collapsed q :=
  everywhere_power trivial

/-- A logarithm is collapsed if its parts are. -/
theorem collapsed_log {base body : Expr α} :
    (log base body).Collapsed q ↔ base.Collapsed q ∧ body.Collapsed q :=
  everywhere_log trivial

/-- A function is collapsed if its body is. -/
theorem collapsed_trig {f : Trig} {body : Expr α} :
    (trig f body).Collapsed q ↔ body.Collapsed q :=
  everywhere_trig trivial

/-- A single factor that is no product may be scaled by a coefficient that it may have. -/
theorem collapsed_scaled {c : Coefficient α} (hc : q c) {e : Expr α} (he : e.Collapsed q)
    (hproduct : e.isProduct = false) : (scaled c e).Collapsed q := by
  refine collapsed_product.mpr ⟨⟨.inl (List.cons_ne_nil e []), fun _ _ _ => hc, ?_⟩, ?_⟩
  · exact List.forall_mem_singleton.mpr hproduct
  · exact List.forall_mem_singleton.mpr he

namespace Collapsed

/-- The addends of a collapsed expression are collapsed and no sums. -/
theorem addends {e : Expr α} (h : e.Collapsed q) : ∀ a ∈ e.addends, a.Collapsed q ∧ a.isSum = false := by
  cases e with
  | sum as =>
    obtain ⟨⟨-, hflat⟩, hbelow⟩ := collapsed_sum.mp h
    exact fun a ha => ⟨hbelow a ha, hflat a ha⟩
  | _ => exact List.forall_mem_singleton.mpr ⟨h, rfl⟩

/-- The factors of a collapsed product are collapsed. -/
theorem factors (c : Coefficient α) (n d : List (Expr α)) (h : (product c n d).Collapsed q) :
    (∀ x ∈ n, x.Collapsed q) ∧ ∀ x ∈ d, x.Collapsed q :=
  List.forall_mem_append.mp (collapsed_product.mp h).2

/-- The base and the exponent that a collapsed expression is taken for are collapsed. -/
theorem powerParts [Scalar α] (e : Expr α) (h : e.Collapsed q) :
    e.powerParts.1.Collapsed q ∧ e.powerParts.2.Collapsed q := by
  cases e with
  | power base exponent => exact collapsed_power.mp h
  | _ => exact ⟨h, collapsed_number _⟩

/-- The opposite of a collapsed expression that is no sum is collapsed, unless it is a single factor
with a coefficient that it may not have. -/
theorem neg_of_not_sum [Scalar α] (hq : q .minusOne) {a : Expr α} (h : a.Collapsed q) (hsum : a.isSum = false)
    (hopposite : ∀ c x, a = product c [x] [] → q (-c)) : a.neg.Collapsed q ∧ a.neg.isSum = false := by
  cases a with
  | sum as => cases hsum
  | product c n d =>
    obtain ⟨⟨hsome, -, hflat⟩, hbelow⟩ := collapsed_product.mp h
    refine ⟨collapsed_product.mpr ⟨⟨hsome, fun x hn hd => ?_, hflat⟩, hbelow⟩, rfl⟩
    exact hopposite c x (by rw [hn, hd])
  | number v =>
    cases v with
    | real v => exact ⟨collapsed_number _, rfl⟩
    | constant c => exact ⟨collapsed_scaled hq h rfl, rfl⟩
  | _ => exact ⟨collapsed_scaled hq h rfl, rfl⟩

/-- The addends of the opposite of a collapsed expression are collapsed and no sums, if the opposites of
its addends may have their coefficients. -/
theorem neg_addends [Scalar α] (hq : q .minusOne) {e : Expr α} (h : e.Collapsed q)
    (hopposable : e.Opposable q) :
    ∀ a ∈ e.neg.addends, a.Collapsed q ∧ a.isSum = false := by
  cases hsum : e.isSum with
  | true =>
    cases e with
    | sum as =>
      rw [neg, Expr.addends, negList_eq_map, List.forall_mem_map]
      intro a ha
      obtain ⟨hcollapsed, hflat⟩ := h.addends a ha
      exact hcollapsed.neg_of_not_sum hq hflat (hopposable a ha)
    | _ => cases hsum
  | false =>
    have hself : e.addends = [e] := by cases e <;> first | rfl | cases hsum
    have hneg := h.neg_of_not_sum hq hsum (hopposable e (by simp [hself]))
    exact hneg.1.addends

end Collapsed

end Expr

end SymbolicAlgebra
