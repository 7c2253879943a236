import Mathlib
import SymbolicAlgebra.Scalar.Coefficient
import SymbolicAlgebra.Scalar.Number

/-!
# Laws of scalars

What sorting and the recognition of zeros and ones rely on: the order of the representations is a
total preorder, zero is told from other numbers by it as by arithmetic, and neither another sign nor
a zero without one changes what is zero and what is one. Literals, constants and coefficients are then ordered by
total preorders too.
-/

namespace SymbolicAlgebra

/-- The comparisons of a first element with a second and of that with a third, and the comparison
of the first with the third that follows from them. -/
def Chained (ab bc ac : Ordering) : Prop :=
  (ab = .eq → ac = bc) ∧ (bc = .eq → ac = ab) ∧ (ab = bc → ac = ab)

instance (ab bc ac : Ordering) : Decidable (Chained ab bc ac) := inferInstanceAs (Decidable (_ ∧ _))

/-- A second comparison that decides ties of the first keeps chains. -/
theorem Chained.then {ab bc ac ab' bc' ac' : Ordering} (h : Chained ab bc ac)
    (h' : ab = .eq → bc = .eq → Chained ab' bc' ac') :
    Chained (ab.then ab') (bc.then bc') (ac.then ac') := by
  revert h h'
  cases ab <;> cases bc <;> cases ac <;> cases ab' <;> cases bc' <;> cases ac' <;> decide

/-- The comparisons of a total preorder form chains. -/
theorem Chained.of_transCmp {β : Type} (cmp : β → β → Ordering) [Std.TransCmp cmp] (a b c : β) :
    Chained (cmp a b) (cmp b c) (cmp a c) := by
  refine ⟨Std.TransCmp.congr_left, fun h => (Std.TransCmp.congr_right h).symm, ?_⟩
  intro same
  cases hab : cmp a b with
  | lt => exact Std.TransCmp.lt_trans hab (same ▸ hab)
  | eq => exact Std.TransCmp.eq_trans hab (same ▸ hab)
  | gt => exact Std.TransCmp.gt_trans hab (same ▸ hab)

/-- A comparison whose results swap with its arguments and form chains is a total preorder. -/
theorem transCmp_of_chained {β : Type} {cmp : β → β → Ordering}
    (swap : ∀ a b, cmp a b = (cmp b a).swap)
    (chain : ∀ a b c, Chained (cmp a b) (cmp b c) (cmp a c)) : Std.TransCmp cmp where
  eq_swap := swap _ _
  isLE_trans {a b c} hab hbc := by
    have h := chain a b c
    revert h hab hbc
    cases cmp a b <;> cases cmp b c <;> cases cmp a c <;> decide

/-- Sorting by a total preorder puts nothing after what comes after it. -/
theorem pairwise_mergeSort_cmp {β : Type} (cmp : β → β → Ordering) [Std.TransCmp cmp]
    (bs : List β) :
    (bs.mergeSort fun a b => cmp a b != .gt).Pairwise fun a b => (cmp a b != .gt) = true := by
  have hle (a b : β) : (cmp a b != .gt) = (cmp a b).isLE := by
    cases cmp a b <;> rfl
  refine List.pairwise_mergeSort (fun a b c hab hbc => ?_) (fun a b => ?_) bs
  · rw [hle] at *
    exact Std.TransCmp.isLE_trans hab hbc
  · have hswap : cmp a b = (cmp b a).swap := Std.OrientedCmp.eq_swap
    rw [hle, hle, hswap]
    cases cmp b a <;> decide

/-- Sorting undoes a permutation of elements of which those in the same place are the same. -/
theorem mergeSort_congr {β : Type} (cmp : β → β → Ordering) [Std.TransCmp cmp] {bs cs : List β}
    (h : bs.Perm cs) (hbs : ∀ a ∈ bs, ∀ b ∈ bs, cmp a b = .eq → a = b) :
    (bs.mergeSort fun a b => cmp a b != .gt) = cs.mergeSort fun a b => cmp a b != .gt := by
  have hperm := (List.mergeSort_perm bs fun a b => cmp a b != .gt).trans
    (h.trans (List.mergeSort_perm cs fun a b => cmp a b != .gt).symm)
  refine List.Perm.eq_of_pairwise (fun a b ha hb hab hba => ?_) (pairwise_mergeSort_cmp cmp bs)
    (pairwise_mergeSort_cmp cmp cs) hperm
  refine hbs a ((List.mergeSort_perm ..).subset ha) b
    (h.symm.subset ((List.mergeSort_perm ..).subset hb)) ?_
  have hswap : cmp b a = (cmp a b).swap := Std.OrientedCmp.eq_swap
  rw [hswap] at hba
  revert hab hba
  cases cmp a b <;> simp

/-- Scalars whose order is a total preorder and whose zero and one can be recognized. -/
class Scalar.Lawful (α : Type) [Scalar α] : Prop where
  order_trans : Std.TransCmp (Scalar.order : α → α → Ordering)
  eq_unsignZero (a : α) : Scalar.eq (Scalar.unsignZero a) Scalar.zero = Scalar.eq a Scalar.zero
  eq_one : Scalar.eq (Scalar.one : α) Scalar.one = true
  eq_unsignZero_one : Scalar.eq (Scalar.unsignZero (Scalar.one : α)) Scalar.one = true
  eq_neg_zero (a : α) : Scalar.eq (-a) Scalar.zero = Scalar.eq a Scalar.zero
  eq_minusOne_zero : Scalar.eq (Scalar.ofInt (-1) : α) Scalar.zero = false
  eq_zero_of_order (a : α) :
    Scalar.order a (Scalar.unsignZero Scalar.zero) = .eq → Scalar.eq a Scalar.zero = true

attribute [instance] Scalar.Lawful.order_trans

section Order

variable {α : Type} [Scalar α] [Std.TransCmp (Scalar.order : α → α → Ordering)]

/-- Literals before constants, and each kind in its own order, is a total preorder. -/
instance Number.order_trans : Std.TransCmp (order : Number α → Number α → Ordering) where
  eq_swap {a b} := by
    cases a <;> cases b <;> simp only [order, Ordering.swap]
    · exact Std.OrientedCmp.eq_swap
    · exact Std.OrientedOrd.eq_swap
  isLE_trans {a b c} hab hbc := by
    cases a <;> cases b <;> cases c <;> simp only [order] at *
    all_goals first | exact Std.TransCmp.isLE_trans hab hbc | contradiction | rfl

/-- Comparing values and then numerators is a total preorder. -/
instance Coefficient.order_trans :
    Std.TransCmp (order : Coefficient α → Coefficient α → Ordering) := by
  refine transCmp_of_chained ?_ ?_
  · intro a b
    rw [order, order, Ordering.swap_then, ← Std.OrientedCmp.eq_swap, ← Std.OrientedCmp.eq_swap]
  · intro a b c
    exact (Chained.of_transCmp Scalar.order _ _ _).then fun _ _ =>
      .of_transCmp Scalar.order _ _ _

end Order

variable {α : Type} [Scalar α] [Scalar.Lawful α]

/-- Another sign does not make a coefficient zero. -/
theorem Coefficient.isZero_neg (c : Coefficient α) : (-c).isZero = c.isZero := by
  change Scalar.eq (Scalar.unsignZero (-c.numer)) Scalar.zero = Scalar.eq c.numer Scalar.zero
  rw [Scalar.Lawful.eq_unsignZero, Scalar.Lawful.eq_neg_zero]

end SymbolicAlgebra
