import SymbolicAlgebra.Expr.Walk
import SymbolicAlgebra.Proofs.Expr.Sort

/-!
# Operands in another order

An expression is reordered by permuting, at any of its nodes, the addends of a sum and the factors on
each side of the fraction line of a product. Sorting undoes a permutation where expressions that count
as equal are the same.
-/

namespace SymbolicAlgebra.Expr

variable {α : Type}

mutual

/-- The second expression is the first one with operands of sums and products permuted. -/
inductive Reordered : Expr α → Expr α → Prop
  | sum {as bs : List (Expr α)} : ReorderedAll as bs → Reordered (.sum as) (.sum bs)
  | product {c : Coefficient α} {n d n' d' : List (Expr α)} : ReorderedAll n n' →
    ReorderedAll d d' → Reordered (.product c n d) (.product c n' d')
  | power {base exponent base' exponent' : Expr α} : Reordered base base' →
    Reordered exponent exponent' → Reordered (.power base exponent) (.power base' exponent')
  | log {base body base' body' : Expr α} : Reordered base base' → Reordered body body' →
    Reordered (.log base body) (.log base' body')
  | trig {function : Trig} {body body' : Expr α} : Reordered body body' →
    Reordered (.trig function body) (.trig function body')
  | var (name : String) : Reordered (.var name) (.var name)
  | number (n : Number α) : Reordered (.number n) (.number n)

/-- The second list has the expressions of the first, each of them reordered, in any sequence. -/
inductive ReorderedAll : List (Expr α) → List (Expr α) → Prop
  | nil : ReorderedAll [] []
  | cons {a b : Expr α} {as before after : List (Expr α)} : Reordered a b →
    ReorderedAll as (before ++ after) → ReorderedAll (a :: as) (before ++ b :: after)

end

mutual

/-- Every expression is a reordering of itself. -/
theorem Reordered.refl (e : Expr α) : Reordered e e := by
  cases e with
  | sum as => exact .sum (ReorderedAll.refl as)
  | product c n d => exact .product (ReorderedAll.refl n) (ReorderedAll.refl d)
  | power base exponent => exact .power (Reordered.refl base) (Reordered.refl exponent)
  | log base body => exact .log (Reordered.refl base) (Reordered.refl body)
  | trig function body => exact .trig (Reordered.refl body)
  | var name => exact .var name
  | number n => exact .number n

/-- Every list has its own expressions in some sequence. -/
theorem ReorderedAll.refl (es : List (Expr α)) : ReorderedAll es es := by
  cases es with
  | nil => exact .nil
  | cons e es => exact @ReorderedAll.cons _ _ _ _ [] _ (Reordered.refl e) (ReorderedAll.refl es)

end

/-- A permutation reorders a list. -/
theorem ReorderedAll.of_perm {es fs : List (Expr α)} (h : es.Perm fs) : ReorderedAll es fs := by
  induction es generalizing fs with
  | nil =>
    rw [List.nil_perm.mp h]
    exact .nil
  | cons e es ih =>
    obtain ⟨before, after, rfl⟩ := List.append_of_mem (h.subset List.mem_cons_self)
    have hrest := h.trans List.perm_middle
    exact .cons (Reordered.refl e) (ih hrest.cons_inv)

mutual

/-- Reordering keeps the number of nodes. -/
theorem Reordered.size_eq {e e' : Expr α} (h : Reordered e e') : e'.size = e.size := by
  cases h with
  | sum has => rw [size, size, ReorderedAll.sizeList_eq has]
  | product hn hd => rw [size, size, ReorderedAll.sizeList_eq hn, ReorderedAll.sizeList_eq hd]
  | power hbase hexponent => rw [size, size, Reordered.size_eq hbase, Reordered.size_eq hexponent]
  | log hbase hbody => rw [size, size, Reordered.size_eq hbase, Reordered.size_eq hbody]
  | trig hbody => rw [size, size, Reordered.size_eq hbody]
  | var name => rfl
  | number n => rfl

/-- Reordering a list keeps the number of nodes. -/
theorem ReorderedAll.sizeList_eq {es fs : List (Expr α)} (h : ReorderedAll es fs) :
    sizeList fs = sizeList es := by
  cases h with
  | nil => rfl
  | cons he hes =>
    have hrest := ReorderedAll.sizeList_eq hes
    rw [sizeList_append] at hrest
    rw [sizeList_append, sizeList, sizeList, Reordered.size_eq he]
    omega

end

variable [Scalar α]

omit [Scalar α] in
/-- A literal is known by its value. -/
theorem eq_number_of_real? {e : Expr α} {v : α} (h : e.real? = some v) : e = .number (.real v) := by
  cases e with
  | number n =>
    cases n with
    | real w =>
      cases h
      rfl
    | constant c => cases h
  | _ => cases h

/-- Expressions of the list that count as equal are the same. -/
def Discernible (es : List (Expr α)) : Prop := ∀ a ∈ es, ∀ b ∈ es, (a == b) = true → a = b

/-- Only the expressions in a list matter for whether they can be told apart. -/
theorem Discernible.subset {es fs : List (Expr α)} (h : Discernible fs) (hes : es ⊆ fs) :
    Discernible es :=
  fun a ha b hb => h a (hes ha) b (hes hb)

/-- Sorting undoes a permutation of expressions that can be told apart. -/
theorem sort_congr [Scalar.Lawful α] {es fs : List (Expr α)} (h : es.Perm fs)
    (hes : Discernible es) : sort es = sort fs :=
  mergeSort_congr order h fun a ha b hb hab => hes a ha b hb (beq_iff.mpr hab)

end SymbolicAlgebra.Expr
