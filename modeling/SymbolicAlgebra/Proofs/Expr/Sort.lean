import SymbolicAlgebra.Proofs.Expr.Order

/-!
# Sorting

What tells the result of sorting apart from other sorted lists: expressions that count as equal keep
the sequence in which they were. Two sorted lists with the same sequence of expressions of each kind
are the same list.
-/

namespace SymbolicAlgebra.Expr

variable {α : Type} [Scalar α]

/-- The expressions of a list that count as equal to the given one, in their sequence. -/
def alike (x : Expr α) (es : List (Expr α)) : List (Expr α) := es.filter (x == ·)

/-- What is alike in two lists in a row is what is alike in the one and then in the other. -/
theorem alike_append (x : Expr α) (es fs : List (Expr α)) :
    alike x (es ++ fs) = alike x es ++ alike x fs := List.filter_append ..

/-- Sorted lists stay as they are. -/
theorem sort_of_sorted {es : List (Expr α)} (h : es.Pairwise fun a b => a.order b ≠ .gt) :
    sort es = es :=
  List.mergeSort_of_pairwise (h.imp fun h => by simpa using h)

variable [Std.TransCmp (Scalar.order : α → α → Ordering)]

/-- Counting as equal can be read in both directions. -/
theorem beq_comm (a b : Expr α) : (a == b) = (b == a) := by
  rw [Bool.eq_iff_iff, beq_iff, beq_iff, order_swap]
  cases b.order a <;> decide

/-- An expression counts as equal to itself. -/
theorem beq_self (a : Expr α) : (a == a) = true := beq_iff.mpr (order_self a)

/-- What is equal to the same expression is equal to each other. -/
theorem beq_trans {a b c : Expr α} (hab : (a == b) = true) (hbc : (b == c) = true) :
    (a == c) = true :=
  beq_iff.mpr (Std.TransCmp.eq_trans (beq_iff.mp hab) (beq_iff.mp hbc))

/-- Sorting keeps the sequence of expressions that count as equal. -/
theorem alike_sort (x : Expr α) (es : List (Expr α)) : alike x (sort es) = alike x es := by
  have hle (a b : Expr α) : (a.order b != .gt) = (a.order b).isLE := by
    cases a.order b <;> rfl
  have same : (alike x es).Pairwise fun a b => (a.order b != .gt) = true := by
    refine List.Pairwise.imp_of_mem (R := fun _ _ => True) ?_ (List.pairwise_of_forall fun _ _ => trivial)
    intro a b ha hb _
    have ha := (List.mem_filter.mp ha).2
    have hb := (List.mem_filter.mp hb).2
    have hab := beq_iff.mp (beq_trans (beq_comm x a ▸ ha) hb)
    rw [hab]
    rfl
  have kept : (alike x es).Sublist (sort es) := by
    refine List.sublist_mergeSort (fun a b c hab hbc => ?_) (fun a b => ?_) same List.filter_sublist
    · rw [hle] at *
      exact Std.TransCmp.isLE_trans hab hbc
    · rw [hle, hle, order_swap b a]
      cases a.order b <;> decide
  have again : alike x (alike x es) = alike x es := by simp [alike]
  refine (List.Sublist.eq_of_length ?_ ?_).symm
  · exact again ▸ kept.filter _
  · exact (((sort_perm es).filter _).length_eq).symm

/-- Sorted lists with the same sequences of equal expressions are the same. -/
theorem eq_of_alike {es fs : List (Expr α)} (hes : es.Pairwise fun a b => a.order b ≠ .gt)
    (hfs : fs.Pairwise fun a b => a.order b ≠ .gt) (h : ∀ x, alike x es = alike x fs) : es = fs := by
  induction es generalizing fs with
  | nil =>
    cases fs with
    | nil => rfl
    | cons b fs =>
      have hb := h b
      simp [alike, beq_self] at hb
  | cons a es ih =>
    cases fs with
    | nil =>
      have ha := h a
      simp [alike, beq_self] at ha
    | cons b fs =>
      rw [List.pairwise_cons] at hes hfs
      -- each head counts as equal to a member of the other list, and neither comes before the other
      have reaches {x y : Expr α} {xs ys : List (Expr α)} (hxs : ∀ z ∈ xs, x.order z ≠ .gt)
          (hxy : alike y (x :: xs) = alike y (y :: ys)) : x.order y ≠ .gt := by
        have hy : y ∈ alike y (x :: xs) := by
          rw [hxy]
          exact List.mem_filter.mpr ⟨List.mem_cons_self, beq_self y⟩
        obtain rfl | hmem := List.mem_cons.mp (List.mem_filter.mp hy).1
        · simp
        · exact hxs y hmem
      have hab : a.order b ≠ .gt := reaches hes.1 (h b)
      have hba : b.order a ≠ .gt := reaches hfs.1 (h a).symm
      have same : (a == b) = true := by
        rw [beq_iff]
        rw [order_swap] at hba
        revert hab hba
        cases a.order b <;> simp
      obtain rfl : a = b := by
        have ha := h a
        simp only [alike, List.filter_cons, beq_self, same, if_true] at ha
        exact (List.cons.inj ha).1
      refine congrArg (a :: ·) (ih hes.2 hfs.2 fun x => ?_)
      have hx := h x
      simp only [alike, List.filter_cons] at hx
      split at hx
      · exact (List.cons.inj hx).2
      · exact hx

/-- Sorting gives the sorted list with the same sequences of equal expressions. -/
theorem sort_eq {es fs : List (Expr α)} (hfs : fs.Pairwise fun a b => a.order b ≠ .gt)
    (h : ∀ x, alike x es = alike x fs) : sort es = fs :=
  eq_of_alike (pairwise_sort es) hfs fun x => (alike_sort x es).trans (h x)

end SymbolicAlgebra.Expr
