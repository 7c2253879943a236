import SymbolicAlgebra.Derivative.Basic
import SymbolicAlgebra.Proofs.Expr.Nodes

/-!
# Differentiation ends

Where a base and its exponent both depend on the variable, or the base of a logarithm does, the
derivative is that of a product or a quotient of natural logarithms, which is no part of the
expression. The rules are stated here in this form, over a function for the derivatives that they
ask for. Such a product is larger than what it is made from, but the calls nested in it come back to
the parts that it is made of, and counting the calls on the way makes up for it. So calls nest at
most three times as deep as the expression does.
-/

namespace SymbolicAlgebra.Derivative

open SymbolicAlgebra.Expr

variable {α : Type} [Scalar α]

/-- The derivative of the first expression asks for that of the second. -/
inductive Calls (name : String) : Expr α → Expr α → Prop
  | addend {as : List (Expr α)} {a : Expr α} : (sum as).dependsOn name = true → a ∈ as →
    Calls name (sum as) a
  | factor {c : Coefficient α} {n d : List (Expr α)} {a : Expr α} :
    (product c n d).dependsOn name = true → a ∈ n ++ d → a.dependsOn name = true →
    Calls name (product c n d) a
  | base {a b : Expr α} : (power a b).dependsOn name = true → b.dependsOn name = false →
    Calls name (power a b) a
  | exponent {a b : Expr α} : (power a b).dependsOn name = true → b.dependsOn name = true →
    a.dependsOn name = false → Calls name (power a b) b
  | logarithmic {a b : Expr α} : (power a b).dependsOn name = true → b.dependsOn name = true →
    a.dependsOn name = true → Calls name (power a b) (b.times (ln a))
  | body {a b : Expr α} : (log a b).dependsOn name = true → a.dependsOn name = false →
    Calls name (log a b) b
  | quotient {a b : Expr α} : (log a b).dependsOn name = true → a.dependsOn name = true →
    Calls name (log a b) ((ln b).dividedBy (ln a))
  | argument {f : Trig} {a : Expr α} : (trig f a).dependsOn name = true → Calls name (trig f a) a

/-- The expression with the derivative that is found for it. -/
def pairBy (slope : Expr α → Option (Expr α)) (e : Expr α) : Option (Pair α) :=
  (slope e).map (Pair.mk e)

/-- The derivative of an expression, over a function that finds the derivatives that it asks for. -/
def slopeBy (name : String) (slope : Expr α → Option (Expr α)) (e : Expr α) : Option (Expr α) :=
  if e.dependsOn name then
    match e with
    | sum as => do return sumOf (← as.mapM slope)
    | product c n d => do
      let numerator ← (n.filter (·.dependsOn name)).mapM (pairBy slope)
      let denominator ← (d.filter (·.dependsOn name)).mapM (pairBy slope)
      return Quotient.slope
        ⟨c, n.filter (!·.dependsOn name), d.filter (!·.dependsOn name), numerator, denominator⟩
    | power a b => do
      if !b.dependsOn name then
        return Term.toExpr (Term.unit.timesAll [b, power a (decrement b), ← slope a])
      else if !a.dependsOn name then
        return Term.toExpr (Term.unit.timesAll [power a b, ln a, ← slope b])
      else return Term.toExpr (Term.unit.timesAll [power a b, ← slope (b.times (ln a))])
    | log a b =>
      if a.dependsOn name then slope ((ln b).dividedBy (ln a))
      else do return logSlope a ⟨b, ← slope b⟩
    | trig f a => do return trigSlope f ⟨a, ← slope a⟩
    | var x => some (if x = name then one else zero)
    | number _ => some zero
  else some zero

/-- The derivative of an expression by calls that nest at most as deep as the bound. -/
def derivativeWithin (name : String) : Nat → Expr α → Option (Expr α)
  | 0, _ => none
  | fuel + 1, e => slopeBy name (derivativeWithin name fuel) e

mutual

/-- How deep the calls for the derivative of an expression nest at most. -/
def nesting (name : String) : Expr α → Nat
  | sum as => nestingList name as + 1
  | product _ n d => max (nestingList name n) (nestingList name d) + 1
  -- one call for the product of the exponent and a logarithm, and one more for the logarithm in it
  | power a b => max (nesting name a + 1) (nesting name b) + 2
  | log a b =>
    if a.dependsOn name then max (nesting name a) (nesting name b) + 3 else nesting name b + 1
  | trig _ a => nesting name a + 1
  | var _ => 1
  | number _ => 1

/-- How deep the calls for the derivatives of the expressions of a list nest at most. -/
def nestingList (name : String) : List (Expr α) → Nat
  | [] => 0
  | e :: es => max (nesting name e) (nestingList name es)

end

omit [Scalar α] in
/-- The calls for a member of a list nest no deeper than those for the list. -/
theorem nesting_le_nestingList (name : String) {e : Expr α} {es : List (Expr α)} (h : e ∈ es) :
    nesting name e ≤ nestingList name es := by
  induction es with
  | nil => cases h
  | cons x es ih =>
    rw [nestingList]
    obtain rfl | h := List.mem_cons.mp h
    · exact Nat.le_max_left _ _
    · exact (ih h).trans (Nat.le_max_right _ _)

omit [Scalar α] in
/-- Some expression makes the calls nest. -/
theorem nesting_pos (name : String) (e : Expr α) : 0 < nesting name e := by
  cases e <;> rw [nesting] <;> try omega
  split <;> omega

omit [Scalar α] in
/-- The calls for a natural logarithm nest one deeper than those for its body. -/
theorem nesting_ln (name : String) (body : Expr α) :
    nesting name (ln body) = nesting name body + 1 := by
  have hbase : (constant .e : Expr α).dependsOn name = false := rfl
  rw [ln, nesting, if_neg (by simp [hbase])]

/-- The calls that a call makes nest less deep than itself. -/
theorem Calls.nesting_lt {name : String} {caller callee : Expr α} (h : Calls name caller callee) :
    nesting name callee < nesting name caller := by
  cases h with
  | addend _ ha =>
    have := nesting_le_nestingList name ha
    rw [nesting]
    omega
  | factor _ ha _ =>
    rw [nesting]
    obtain ha | ha := List.mem_append.mp ha <;>
      have := nesting_le_nestingList name ha <;> omega
  | base _ _ => rw [nesting]; omega
  | exponent _ _ _ => rw [nesting]; omega
  | logarithmic _ _ _ =>
    simp only [times, nesting, nestingList, nesting_ln]
    omega
  | body _ ha => rw [nesting, if_neg (by simp [ha])]; omega
  | quotient _ ha =>
    rw [nesting, if_pos ha, dividedBy, nesting]
    simp only [nestingList, nesting_ln]
    omega
  | argument _ => rw [nesting]; omega

omit [Scalar α] in
mutual

/-- The calls for a derivative nest at most three times as deep as the expression. -/
theorem nesting_le_depth (name : String) (e : Expr α) : nesting name e ≤ 3 * e.depth := by
  cases e with
  | sum as =>
    have := nestingList_le_depthList name as
    rw [nesting, depth]
    omega
  | product c n d =>
    have := nestingList_le_depthList name n
    have := nestingList_le_depthList name d
    rw [nesting, depth]
    omega
  | power a b =>
    have := nesting_le_depth name a
    have := nesting_le_depth name b
    rw [nesting, depth]
    omega
  | log a b =>
    have := nesting_le_depth name a
    have := nesting_le_depth name b
    rw [nesting, depth]
    split <;> omega
  | trig f a =>
    have := nesting_le_depth name a
    rw [nesting, depth]
    omega
  | var x => simp [nesting, depth]
  | number n => simp [nesting, depth]

/-- The calls for the derivatives of a list nest at most three times as deep as its expressions. -/
theorem nestingList_le_depthList (name : String) (es : List (Expr α)) :
    nestingList name es ≤ 3 * depthList es := by
  cases es with
  | nil => simp [nestingList]
  | cons e es =>
    have := nesting_le_depth name e
    have := nestingList_le_depthList name es
    rw [nestingList, depthList]
    omega

end

/-- What is found for every member of a list is found for the list. -/
theorem mapM_eq_some {β γ : Type} {f : β → Option γ} {g : β → γ} {bs : List β}
    (h : ∀ b ∈ bs, f b = some (g b)) : bs.mapM f = some (bs.map g) := by
  induction bs with
  | nil => rfl
  | cons b bs ih =>
    rw [List.forall_mem_cons] at h
    rw [List.mapM_cons, h.1, ih h.2]
    rfl

omit [Scalar α] in
/-- An expression depends on what its parts depend on. -/
theorem dependsOn_of_mem_children {name : String} {e child : Expr α} (hchild : child ∈ e.children)
    (h : child.dependsOn name = true) : e.dependsOn name = true := by
  obtain ⟨x, hx, hvar⟩ := List.any_eq_true.mp h
  exact List.any_eq_true.mpr ⟨x, mem_postOrder.mpr (.inr ⟨child, hchild, hx⟩), hvar⟩

/-- Without the variable the derivative is zero. -/
theorem derivative_of_not_dependsOn {name : String} {e : Expr α} (h : e.dependsOn name = false) :
    e.derivative name = .zero := by
  cases e <;> rw [Expr.derivative, if_neg (by simp [h])]

omit [Scalar α] in
/-- A node above leaves and one child depends on what the child depends on. -/
theorem dependsOn_eq_any_children {name : String} {e : Expr α} (h : e.isVar name = false) :
    e.dependsOn name = e.children.any (·.dependsOn name) := by
  rw [Bool.eq_iff_iff]
  constructor
  · intro hdepends
    obtain ⟨x, hx, hvar⟩ := List.any_eq_true.mp hdepends
    obtain rfl | ⟨child, hchild, hx⟩ := mem_postOrder.mp hx
    · rw [h] at hvar
      cases hvar
    · exact List.any_eq_true.mpr ⟨child, hchild, List.any_eq_true.mpr ⟨x, hx, hvar⟩⟩
  · intro hany
    obtain ⟨child, hchild, hdepends⟩ := List.any_eq_true.mp hany
    exact dependsOn_of_mem_children hchild hdepends

omit [Scalar α] in
/-- A natural logarithm depends on what its body depends on. -/
theorem dependsOn_ln (name : String) (body : Expr α) :
    (ln body).dependsOn name = body.dependsOn name := by
  have hbase : (constant .e : Expr α).dependsOn name = false := rfl
  simp [ln, dependsOn_eq_any_children (e := log _ body) rfl, children, hbase]

/-- The expressions of a list come with their derivatives. -/
theorem derivatives_eq_map (name : String) (es : List (Expr α)) :
    derivatives name es = es.map fun e => ⟨e, e.derivative name⟩ := by
  induction es with
  | nil => rw [derivatives, List.map_nil]
  | cons e es ih => rw [derivatives, ih, List.map_cons]

/-- The factors of a quotient come in the pairs that differentiating them gives. -/
theorem ofPairs_derivatives (name : String) (c : Coefficient α) (n d : List (Expr α)) :
    Quotient.ofPairs name c (derivatives name n) (derivatives name d) =
      ⟨c, n.filter (!·.dependsOn name), d.filter (!·.dependsOn name),
        derivatives name (n.filter (·.dependsOn name)),
        derivatives name (d.filter (·.dependsOn name))⟩ := by
  simp [Quotient.ofPairs, derivatives_eq_map, List.filter_map, List.map_map, Function.comp_def]

/-- The derivative of a product is that of the quotient of its factors, each with its derivative. -/
theorem derivative_product {name : String} {c : Coefficient α} {n d : List (Expr α)}
    (h : (product c n d).dependsOn name = true) :
    (product c n d).derivative name =
      productSlope name c (derivatives name n) (derivatives name d) := by
  rw [Expr.derivative, if_pos h]

/-- A natural logarithm is paired with its derivative. -/
theorem lnPair_derivative (name : String) (body : Expr α) :
    lnPair name ⟨body, body.derivative name⟩ = ⟨ln body, (ln body).derivative name⟩ := by
  have hbase : (constant .e : Expr α).dependsOn name = false := rfl
  rw [lnPair]
  cases hbody : body.dependsOn name with
  | true =>
    rw [if_pos rfl, ln, Expr.derivative, if_pos (dependsOn_ln name body ▸ hbody), anyLogSlope,
      if_neg (by simp [hbase])]
  | false =>
    have hln : (ln body).dependsOn name = false := (dependsOn_ln name body).trans hbody
    rw [if_neg nofun, derivative_of_not_dependsOn hln]

/-- The derivative of an exponent times a natural logarithm, by those of the exponent and the
base. -/
theorem derivative_times_ln {name : String} (base exponent : Expr α)
    (h : exponent.dependsOn name = true) :
    (exponent.times (ln base)).derivative name =
      productSlope name .one
        [⟨exponent, exponent.derivative name⟩, lnPair name ⟨base, base.derivative name⟩] [] := by
  rw [times, derivative_product (dependsOn_of_mem_children (by simp [children]) h),
    derivatives_eq_map, derivatives_eq_map, lnPair_derivative]
  rfl

/-- The derivative of a quotient of natural logarithms, by those of the bodies. -/
theorem derivative_ln_dividedBy_ln {name : String} (base body : Expr α)
    (h : base.dependsOn name = true) :
    ((ln body).dividedBy (ln base)).derivative name =
      productSlope name .one [lnPair name ⟨body, body.derivative name⟩]
        [lnPair name ⟨base, base.derivative name⟩] := by
  have hln : (ln base).dependsOn name = true := (dependsOn_ln name base).trans h
  rw [dividedBy, derivative_product (dependsOn_of_mem_children (by simp [children]) hln),
    derivatives_eq_map, derivatives_eq_map, lnPair_derivative, lnPair_derivative]
  rfl

/-- With the derivatives that it asks for at hand, differentiating an expression finds its
derivative. -/
theorem slopeBy_eq_some {name : String} {slope : Expr α → Option (Expr α)} {e : Expr α}
    (h : ∀ callee, Calls name e callee → slope callee = some (callee.derivative name)) :
    slopeBy name slope e = some (e.derivative name) := by
  rw [slopeBy.eq_def]
  split
  · rename_i hdepends
    cases e with
    | sum as =>
      have haddends := mapM_eq_some fun a ha => h a (.addend hdepends ha)
      simp only [haddends, Expr.derivative, if_pos hdepends, derivatives_eq_map, List.map_map]
      rfl
    | product c n d =>
      have hpairs (es : List (Expr α)) (hes : ∀ e ∈ es, e ∈ n ++ d) :
          (es.filter (·.dependsOn name)).mapM (pairBy slope) =
            some (derivatives name (es.filter (·.dependsOn name))) := by
        rw [derivatives_eq_map]
        refine mapM_eq_some fun e he => ?_
        have hcalls :=
          h e (.factor hdepends (hes e (List.mem_of_mem_filter he)) (List.mem_filter.mp he).2)
        rw [pairBy, hcalls]
        rfl
      have hnumerator := hpairs n fun e he => List.mem_append_left d he
      have hdenominator := hpairs d fun e he => List.mem_append_right n he
      simp only [hnumerator, hdenominator, derivative_product hdepends, productSlope,
        ofPairs_derivatives]
      rfl
    | power a b =>
      rw [Expr.derivative, if_pos hdepends]
      simp only [powerSlope]
      cases hb : b.dependsOn name with
      | false => simp [h a (.base hdepends hb)]
      | true =>
        cases ha : a.dependsOn name with
        | false => simp [h b (.exponent hdepends hb ha)]
        | true => simp [h _ (.logarithmic hdepends hb ha), derivative_times_ln a b hb]
    | log a b =>
      rw [Expr.derivative, if_pos hdepends, anyLogSlope]
      cases ha : a.dependsOn name with
      | true => simp [ha, h _ (.quotient hdepends ha), derivative_ln_dividedBy_ln a b ha]
      | false => simp [ha, h b (.body hdepends ha)]
    | trig f a =>
      rw [Expr.derivative, if_pos hdepends]
      simp [h a (.argument hdepends)]
    | var x => rw [Expr.derivative, if_pos hdepends]
    | number v => rw [Expr.derivative, if_pos hdepends]
  · rename_i hdepends
    rw [derivative_of_not_dependsOn (by simpa using hdepends)]

/-- Calls that may nest as deep as they need to find the derivative. -/
theorem derivativeWithin_eq_some {name : String} {fuel : Nat} {e : Expr α}
    (h : nesting name e ≤ fuel) :
    derivativeWithin name fuel e = some (e.derivative name) := by
  induction fuel generalizing e with
  | zero => exact absurd (nesting_pos name e) (by omega)
  | succ fuel ih =>
    rw [derivativeWithin]
    refine slopeBy_eq_some fun callee hcalls => ih ?_
    have := hcalls.nesting_lt
    omega

/-- No chain of calls for derivatives goes on forever. -/
theorem wellFounded_calls (name : String) :
    WellFounded fun callee caller : Expr α => Calls name caller callee :=
  Subrelation.wf Calls.nesting_lt (measure (nesting name)).wf

/-- Differentiation ends: no chain of calls for derivatives goes on forever, calls that may nest
three times as deep as the expression find its derivative, and what they find is what the recursion
over its parts gives. -/
theorem differentiation_ends (name : String) :
    (WellFounded fun callee caller : Expr α => Calls name caller callee) ∧
      ∀ (e : Expr α) (extra : Nat),
        derivativeWithin name (3 * e.depth + extra) e = some (e.derivative name) :=
  ⟨wellFounded_calls name, fun e extra =>
    derivativeWithin_eq_some
      ((nesting_le_depth name e).trans (Nat.le_add_right (3 * e.depth) extra))⟩

end SymbolicAlgebra.Derivative
