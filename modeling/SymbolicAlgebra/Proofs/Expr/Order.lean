import SymbolicAlgebra.Expr.Order
import SymbolicAlgebra.Proofs.Scalar.Lawful

/-!
# Laws of the order of expressions

Over scalars whose order is a total preorder the order of expressions is one too. Hence
sorting sorts, and two expressions that count as equal can stand for each other in comparisons.
-/

namespace SymbolicAlgebra.Expr

variable {α : Type} [Scalar α]

/-- Expressions of different kinds are ordered by their kinds. -/
theorem order_of_rank_ne {a b : Expr α} (h : a.rank ≠ b.rank) :
    a.order b = compare a.rank b.rank := by
  cases a <;> cases b <;> first | exact (h rfl).elim | rfl

/-- Expressions that count as equal are of the same kind. -/
theorem rank_eq_of_order_eq {a b : Expr α} (h : a.order b = .eq) : a.rank = b.rank := by
  by_cases hrank : a.rank = b.rank
  · exact hrank
  · rw [order_of_rank_ne hrank] at h
    exact Std.LawfulEqCmp.eq_of_compare h

/-- Being equal is comparing as equal. -/
theorem beq_iff {a b : Expr α} : (a == b) = true ↔ a.order b = .eq := by
  change (a.order b == .eq) = true ↔ _
  cases a.order b <;> decide

mutual

/-- The order swaps with its arguments. -/
theorem order_swap [Std.TransCmp (Scalar.order : α → α → Ordering)] (a b : Expr α) :
    a.order b = (b.order a).swap := by
  by_cases hrank : a.rank = b.rank
  · cases a with
    | sum as =>
      cases b <;> cases hrank
      rename_i bs
      rw [order, order]
      exact orderList_swap as bs
    | product c n d =>
      cases b <;> cases hrank
      rename_i c' n' d'
      rw [order, order, Ordering.swap_then, Ordering.swap_then, ← orderList_swap n n',
        ← orderList_swap d d', ← Std.OrientedCmp.eq_swap]
    | power base exponent =>
      cases b <;> cases hrank
      rename_i base' exponent'
      rw [order, order, Ordering.swap_then, ← order_swap base base',
        ← order_swap exponent exponent']
    | log base body =>
      cases b <;> cases hrank
      rename_i base' body'
      rw [order, order, Ordering.swap_then, ← order_swap base base', ← order_swap body body']
    | trig f body =>
      cases b <;> cases hrank
      rename_i f' body'
      rw [order, order, Ordering.swap_then, ← order_swap body body',
        ← Std.OrientedOrd.eq_swap (α := Nat)]
    | var x =>
      cases b <;> cases hrank
      rw [order, order]
      exact Std.OrientedOrd.eq_swap
    | number v =>
      cases b <;> cases hrank
      rw [order, order]
      exact Std.OrientedCmp.eq_swap
  · rw [order_of_rank_ne hrank, order_of_rank_ne (Ne.symm hrank)]
    exact Std.OrientedOrd.eq_swap

/-- The order of lists swaps with its arguments. -/
theorem orderList_swap [Std.TransCmp (Scalar.order : α → α → Ordering)] (as bs : List (Expr α)) :
    orderList as bs = (orderList bs as).swap := by
  cases as with
  | nil => cases bs <;> rfl
  | cons a as =>
    cases bs with
    | nil => rfl
    | cons b bs =>
      rw [orderList, orderList, Ordering.swap_then, ← order_swap a b, ← orderList_swap as bs]

end

/-- A relation that holds of expressions built alike from related parts. -/
structure Congruence (p : Expr α → Expr α → Prop) : Prop where
  sum {as bs : List (Expr α)} : List.Forall₂ p as bs → p (.sum as) (.sum bs)
  product {c c' : Coefficient α} {n n' d d' : List (Expr α)} :
    c.order c' = .eq → List.Forall₂ p n n' → List.Forall₂ p d d' →
    p (.product c n d) (.product c' n' d')
  power {base base' exponent exponent' : Expr α} :
    p base base' → p exponent exponent' → p (.power base exponent) (.power base' exponent')
  log {base base' body body' : Expr α} :
    p base base' → p body body' → p (.log base body) (.log base' body')
  trig {f : Trig} {body body' : Expr α} : p body body' → p (.trig f body) (.trig f body')
  var (x : String) : p (.var x) (.var x)
  number {v v' : Number α} : v.order v' = .eq → p (.number v) (.number v')

mutual

/-- Expressions that count as equal are built alike from parts that count as equal. -/
theorem Congruence.of_order_eq {p : Expr α → Expr α → Prop} (hp : Congruence p) (a b : Expr α)
    (h : a.order b = .eq) : p a b := by
  have hrank := rank_eq_of_order_eq h
  cases a with
  | sum as =>
    cases b <;> cases hrank
    exact hp.sum (hp.forall₂_of_orderList_eq _ _ h)
  | product c n d =>
    cases b <;> cases hrank
    rw [order, Ordering.then_eq_eq, Ordering.then_eq_eq] at h
    exact hp.product h.2 (hp.forall₂_of_orderList_eq _ _ h.1.1)
      (hp.forall₂_of_orderList_eq _ _ h.1.2)
  | power base exponent =>
    cases b <;> cases hrank
    rw [order, Ordering.then_eq_eq] at h
    exact hp.power (hp.of_order_eq _ _ h.1) (hp.of_order_eq _ _ h.2)
  | log base body =>
    cases b <;> cases hrank
    rw [order, Ordering.then_eq_eq] at h
    exact hp.log (hp.of_order_eq _ _ h.1) (hp.of_order_eq _ _ h.2)
  | trig f body =>
    cases b <;> cases hrank
    rename_i f' body'
    rw [order, Ordering.then_eq_eq] at h
    have hf : f = f' := by
      have hranks := Std.LawfulEqCmp.eq_of_compare h.1
      revert hranks
      cases f <;> cases f' <;> simp [Trig.rank]
    rw [← hf]
    exact hp.trig (hp.of_order_eq _ _ h.2)
  | var x =>
    cases b <;> cases hrank
    rw [order] at h
    rw [← Std.LawfulEqCmp.eq_of_compare h]
    exact hp.var _
  | number v =>
    cases b <;> cases hrank
    exact hp.number h

/-- Lists that count as equal have members that count as equal. -/
theorem Congruence.forall₂_of_orderList_eq {p : Expr α → Expr α → Prop} (hp : Congruence p)
    (as bs : List (Expr α)) (h : orderList as bs = .eq) : List.Forall₂ p as bs := by
  cases as with
  | nil =>
    cases bs with
    | nil => exact .nil
    | cons b bs => cases h
  | cons a as =>
    cases bs with
    | nil => cases h
    | cons b bs =>
      rw [orderList, Ordering.then_eq_eq] at h
      exact .cons (hp.of_order_eq a b h.1) (hp.forall₂_of_orderList_eq as bs h.2)

end

/-- Kinds that are not all the same order expressions on their own. -/
theorem chained_of_rank_ne {a b c : Expr α} (h : ¬ (a.rank = b.rank ∧ b.rank = c.rank)) :
    Chained (a.order b) (b.order c) (a.order c) := by
  have differs {x y : Expr α} (hne : x.rank ≠ y.rank) : x.order y ≠ .eq :=
    fun he => hne (rank_eq_of_order_eq he)
  by_cases hab : a.rank = b.rank
  · have hbc : b.rank ≠ c.rank := fun hbc => h ⟨hab, hbc⟩
    have same : a.order c = b.order c := by
      rw [order_of_rank_ne hbc, order_of_rank_ne (hab ▸ hbc), hab]
    rw [same]
    exact ⟨fun _ => rfl, fun he => (differs hbc he).elim, Eq.symm⟩
  · by_cases hbc : b.rank = c.rank
    · have same : a.order c = a.order b := by
        rw [order_of_rank_ne hab, order_of_rank_ne (hbc ▸ hab), hbc]
      rw [same]
      exact ⟨fun he => (differs hab he).elim, fun _ => rfl, fun _ => rfl⟩
    · by_cases hac : a.rank = c.rank
      · refine ⟨fun he => (differs hab he).elim, fun he => (differs hbc he).elim, fun he => ?_⟩
        have back : b.order c = (a.order b).swap := by
          rw [order_of_rank_ne hbc, ← hac, order_of_rank_ne hab]
          exact Std.OrientedOrd.eq_swap
        have apart := differs hab
        rw [back] at he
        revert he apart
        cases a.order b <;> simp
      · rw [order_of_rank_ne hab, order_of_rank_ne hbc, order_of_rank_ne hac]
        exact .of_transCmp compare _ _ _

mutual

/-- The order of three expressions is consistent. -/
theorem order_chained [Std.TransCmp (Scalar.order : α → α → Ordering)] (a b c : Expr α) :
    Chained (a.order b) (b.order c) (a.order c) := by
  by_cases hrank : a.rank = b.rank ∧ b.rank = c.rank
  · obtain ⟨hab, hbc⟩ := hrank
    cases a with
    | sum as =>
      cases b <;> cases hab
      cases c <;> cases hbc
      simp only [order]
      exact orderList_chained as _ _
    | product k n d =>
      cases b <;> cases hab
      cases c <;> cases hbc
      simp only [order]
      exact ((orderList_chained n _ _).then fun _ _ => orderList_chained d _ _).then
        fun _ _ => .of_transCmp Coefficient.order _ _ _
    | power base exponent =>
      cases b <;> cases hab
      cases c <;> cases hbc
      simp only [order]
      exact (order_chained base _ _).then fun _ _ => order_chained exponent _ _
    | log base body =>
      cases b <;> cases hab
      cases c <;> cases hbc
      simp only [order]
      exact (order_chained base _ _).then fun _ _ => order_chained body _ _
    | trig f body =>
      cases b <;> cases hab
      cases c <;> cases hbc
      simp only [order]
      exact (Chained.of_transCmp compare _ _ _).then fun _ _ => order_chained body _ _
    | var x =>
      cases b <;> cases hab
      cases c <;> cases hbc
      simp only [order]
      exact .of_transCmp compare _ _ _
    | number v =>
      cases b <;> cases hab
      cases c <;> cases hbc
      simp only [order]
      exact .of_transCmp Number.order _ _ _
  · exact chained_of_rank_ne hrank

/-- The order of three lists is consistent. -/
theorem orderList_chained [Std.TransCmp (Scalar.order : α → α → Ordering)] (as bs cs : List (Expr α)) :
    Chained (orderList as bs) (orderList bs cs) (orderList as cs) := by
  cases as with
  | nil => cases bs <;> cases cs <;> simp [orderList, Chained]
  | cons a as =>
    cases bs with
    | nil => cases cs <;> simp [orderList, Chained]
    | cons b bs =>
      cases cs with
      | nil =>
        simp only [orderList]
        exact ⟨fun _ => rfl, fun he => (Ordering.noConfusion he), Eq.symm⟩
      | cons c cs =>
        simp only [orderList]
        exact (order_chained a b c).then fun _ _ => orderList_chained as bs cs

end

variable [Std.TransCmp (Scalar.order : α → α → Ordering)]

/-- The order of expressions is a total preorder. -/
instance order_trans : Std.TransCmp (order : Expr α → Expr α → Ordering) :=
  transCmp_of_chained order_swap order_chained

/-- An expression is equal to itself. -/
@[simp] theorem order_self (a : Expr α) : a.order a = .eq := Std.ReflCmp.compare_self

/-- Sorted expressions are in order. -/
theorem pairwise_sort (es : List (Expr α)) :
    (sort es).Pairwise fun a b => a.order b ≠ .gt :=
  (pairwise_mergeSort_cmp order es).imp fun h => by simpa using h

end SymbolicAlgebra.Expr
