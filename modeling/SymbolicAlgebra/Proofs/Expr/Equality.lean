import SymbolicAlgebra.Proofs.Expr.Sort
import SymbolicAlgebra.Proofs.Scalar.Binary64

/-!
# Equality of expressions

Two expressions are the same if they are of one kind and their parts are the same, down to the names,
the numbers and the coefficients. This does not look at what comes first: the order looks at the
factors of a product before its coefficient, compares kinds by their ranks and stops at the first
difference. The order nevertheless finds no difference exactly between expressions that are the same,
and orders all others in one way, so a sorted list does not depend on the sequence it is sorted from.
-/

namespace SymbolicAlgebra.Expr

variable {α : Type} [Scalar α]

mutual

/-- Two expressions of one kind with the same parts. Numbers and coefficients are the same if they
are equal in their own orders. -/
def same : Expr α → Expr α → Bool
  | sum as, sum bs => sameAll as bs
  | product c n d, product c' n' d' => sameAll n n' && sameAll d d' && c.order c' == .eq
  | power base exponent, power base' exponent' => same base base' && same exponent exponent'
  | log base body, log base' body' => same base base' && same body body'
  | trig f body, trig f' body' => f = f' && same body body'
  | var x, var y => x = y
  | number v, number w => v.order w == .eq
  | _, _ => false

/-- Two lists of the same length with the same expressions in the same places. -/
def sameAll : List (Expr α) → List (Expr α) → Bool
  | [], [] => true
  | a :: as, b :: bs => same a b && sameAll as bs
  | _, _ => false

end

/-- Lists of expressions are the same if the expressions in the same places are. -/
theorem sameAll_of_forall₂ {as bs : List (Expr α)}
    (h : List.Forall₂ (fun a b => a.same b = true) as bs) : sameAll as bs = true := by
  induction h with
  | nil => rfl
  | cons hab _ ih => rw [sameAll, hab, ih, Bool.and_self]

/-- Expressions that are built alike from the same parts are the same. -/
theorem congruence_same : Congruence fun a b : Expr α => a.same b = true where
  sum h := sameAll_of_forall₂ h
  product hc hn hd := by
    rw [same, sameAll_of_forall₂ hn, sameAll_of_forall₂ hd, hc]
    rfl
  power hbase hexponent := by rw [same, hbase, hexponent, Bool.and_self]
  log hbase hbody := by rw [same, hbase, hbody, Bool.and_self]
  trig hbody := by rw [same, hbody, decide_eq_true rfl, Bool.and_self]
  var x := by rw [same, decide_eq_true rfl]
  number h := by
    rw [same, h]
    rfl

mutual

/-- The order finds no difference between expressions that are the same. -/
theorem order_eq_of_same (a b : Expr α) (h : a.same b = true) : a.order b = .eq := by
  cases a with
  | sum as =>
    cases b <;> try cases h
    exact orderList_eq_of_sameAll as _ h
  | product c n d =>
    cases b <;> try cases h
    simp only [same, Bool.and_eq_true, beq_iff_eq] at h
    rw [order, orderList_eq_of_sameAll n _ h.1.1, orderList_eq_of_sameAll d _ h.1.2, h.2]
    rfl
  | power base exponent =>
    cases b <;> try cases h
    simp only [same, Bool.and_eq_true] at h
    rw [order, order_eq_of_same base _ h.1, order_eq_of_same exponent _ h.2]
    rfl
  | log base body =>
    cases b <;> try cases h
    simp only [same, Bool.and_eq_true] at h
    rw [order, order_eq_of_same base _ h.1, order_eq_of_same body _ h.2]
    rfl
  | trig f body =>
    cases b <;> try cases h
    simp only [same, Bool.and_eq_true, decide_eq_true_eq] at h
    have hf : compare f.rank f.rank = .eq := Std.ReflCmp.compare_self
    rw [order, ← h.1, order_eq_of_same body _ h.2, hf]
    rfl
  | var x =>
    cases b <;> try cases h
    simp only [same, decide_eq_true_eq] at h
    rw [order, ← h]
    exact Std.ReflCmp.compare_self
  | number v =>
    cases b <;> try cases h
    rw [order]
    simpa [same] using h

/-- The order finds no difference between lists of the same expressions. -/
theorem orderList_eq_of_sameAll (as bs : List (Expr α)) (h : sameAll as bs = true) :
    orderList as bs = .eq := by
  cases as with
  | nil => cases bs <;> first | rfl | cases h
  | cons a as =>
    cases bs with
    | nil => cases h
    | cons b bs =>
      rw [sameAll, Bool.and_eq_true] at h
      rw [orderList, order_eq_of_same a b h.1, orderList_eq_of_sameAll as bs h.2]
      rfl

end

/-- The order finds no difference exactly between expressions that are the same. -/
theorem order_eq_iff_same {a b : Expr α} : a.order b = .eq ↔ a.same b = true :=
  ⟨congruence_same.of_order_eq a b, order_eq_of_same a b⟩

variable [Std.TransCmp (Scalar.order : α → α → Ordering)]

/-- Sorted lists in which every expression counts as equal to as many are the same. -/
theorem forall₂_same_of_sorted {es fs : List (Expr α)}
    (hes : es.Pairwise fun a b => a.order b ≠ .gt) (hfs : fs.Pairwise fun a b => a.order b ≠ .gt)
    (h : ∀ x, es.countP (x == ·) = fs.countP (x == ·)) :
    List.Forall₂ (fun a b => a.same b = true) es fs := by
  induction es generalizing fs with
  | nil =>
    cases fs with
    | nil => exact .nil
    | cons b fs => simpa [beq_self] using h b
  | cons a es ih =>
    cases fs with
    | nil => simpa [beq_self] using h a
    | cons b fs =>
      rw [List.pairwise_cons] at hes hfs
      -- each head counts as equal to a member of the other list, so neither comes before the other
      have reaches {x y : Expr α} {xs ys : List (Expr α)} (hxs : ∀ z ∈ xs, x.order z ≠ .gt)
          (hxy : (x :: xs).countP (y == ·) = (y :: ys).countP (y == ·)) : x.order y ≠ .gt := by
        have hpos : 0 < (x :: xs).countP (y == ·) := by
          rw [hxy, List.countP_cons_of_pos (beq_self y)]
          exact Nat.succ_pos _
        obtain ⟨z, hz, hyz⟩ := List.countP_pos_iff.mp hpos
        have hsame : x.order y = x.order z :=
          (Std.TransCmp.congr_right (beq_iff.mp hyz)).symm ▸ rfl
        rw [hsame]
        obtain rfl | hmem := List.mem_cons.mp hz
        · simp
        · exact hxs z hmem
      have hab : a.order b ≠ .gt := reaches hes.1 (h b)
      have hba : b.order a ≠ .gt := reaches hfs.1 (h a).symm
      have hequal : a.order b = .eq := by
        rw [order_swap] at hba
        revert hab hba
        cases a.order b <;> simp
      refine .cons (order_eq_iff_same.mp hequal) (ih hes.2 hfs.2 fun x => ?_)
      have hheads : (x == a) = (x == b) := by
        rw [Bool.eq_iff_iff, beq_iff, beq_iff, Std.TransCmp.congr_right hequal]
      have hx := h x
      rw [List.countP_cons, List.countP_cons, hheads] at hx
      exact Nat.add_right_cancel hx

/-- The order of expressions is total and consistent with their equality: of any two expressions the
one comes first, they are the same, or the other comes first, and only one of these; the order swaps
with its arguments; it is transitive; and it finds no difference exactly between expressions that are
the same. Hence sorting a list gives the same list, whatever the sequence it is given in. -/
theorem order_total_and_consistent :
    (∀ a b : Expr α, (a.order b = .lt ∧ a.same b = false ∧ a.order b ≠ .gt) ∨
      (a.order b ≠ .lt ∧ a.same b = true ∧ a.order b ≠ .gt) ∨
      (a.order b ≠ .lt ∧ a.same b = false ∧ a.order b = .gt)) ∧
    (∀ a b : Expr α, b.order a = (a.order b).swap) ∧
    (∀ a b c : Expr α, a.order b ≠ .gt → b.order c ≠ .gt → a.order c ≠ .gt) ∧
    (∀ a b : Expr α, a.order b = .eq ↔ a.same b = true) ∧
    ∀ es fs : List (Expr α), es.Perm fs →
      List.Forall₂ (fun a b => a.same b = true) (sort es) (sort fs) := by
  refine ⟨fun a b => ?_, fun a b => order_swap b a, fun a b c hab hbc => ?_,
    fun a b => order_eq_iff_same, fun es fs hperm => ?_⟩
  · have hequal := order_eq_iff_same (a := a) (b := b)
    cases hab : a.order b <;> simp_all
  · rw [ne_eq, Ordering.ne_gt_iff_isLE] at *
    exact Std.TransCmp.isLE_trans hab hbc
  · refine forall₂_same_of_sorted (pairwise_sort es) (pairwise_sort fs) fun x => ?_
    rw [(sort_perm es).countP_eq, (sort_perm fs).countP_eq, hperm.countP_eq]

/-- Infinite and missing numbers are sorted like any others, whatever the sequence they come in. -/
theorem order_total_and_consistent_missing :
    Std.TransCmp (Scalar.order : Float → Float → Ordering) ∧
      List.Forall₂ (fun a b => a.same b = true)
        (sort [(real Scalar.nan : Expr Float), real Scalar.infinity, var "x"])
        (sort [var "x", real Scalar.nan, real Scalar.infinity]) :=
  ⟨inferInstance, order_total_and_consistent.2.2.2.2 _ _ (List.perm_append_comm : List.Perm
    ([real Scalar.nan, real Scalar.infinity] ++ [var "x"]) ([var "x"] ++ _))⟩

end SymbolicAlgebra.Expr
