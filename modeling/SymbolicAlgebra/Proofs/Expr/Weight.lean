import SymbolicAlgebra.Proofs.Expr.Normal
import SymbolicAlgebra.Proofs.Expr.Sort

/-!
# Weights

A measure that no rule increases and that falls with every cancellation and every combination. Literals
weigh nothing. A power weighs as much as its base and its exponent together; hence taking a power of a
power adds nothing to the weight of the two exponents, and a base that is written once weighs less than
one that is written twice. Where it matters that something is there at all, such as a factor, a literal
counts as one.
-/

namespace SymbolicAlgebra

/-- A list of numbers that are each at most those of another list adds up to at most as much. -/
theorem sum_le_of_forall₂ {β γ : Type} {f : β → ℕ} {g : γ → ℕ} {bs : List β} {cs : List γ}
    (h : List.Forall₂ (fun b c => g c ≤ f b) bs cs) : (cs.map g).sum ≤ (bs.map f).sum := by
  induction h with
  | nil => exact le_refl _
  | cons h _ ih =>
    rw [List.map_cons, List.map_cons, List.sum_cons, List.sum_cons]
    exact add_le_add h ih

/-- If it adds up to no less, each of the numbers is the same. -/
theorem forall₂_eq_of_sum_le {β γ : Type} {f : β → ℕ} {g : γ → ℕ} {bs : List β} {cs : List γ}
    (h : List.Forall₂ (fun b c => g c ≤ f b) bs cs) (hsum : (bs.map f).sum ≤ (cs.map g).sum) :
    List.Forall₂ (fun b c => g c = f b) bs cs := by
  induction h with
  | nil => exact .nil
  | cons h hrest ih =>
    have hle := sum_le_of_forall₂ hrest
    rw [List.map_cons, List.map_cons, List.sum_cons, List.sum_cons] at hsum
    exact .cons (by omega) (ih (by omega))

namespace Expr

variable {α : Type}

mutual

/-- The weight of an expression: nothing for a literal and one at least for anything else. -/
def weight : Expr α → ℕ
  | sum as => max 1 (weightList as)
  | product _ n d => max 1 (heftList n + heftList d)
  | power base exponent => max 1 (weight base) + weight exponent
  | log base body => max 1 (weight base) + max 1 (weight body)
  | trig _ body => max 1 (weight body)
  | var _ => 1
  | number (.real _) => 0
  | number (.constant _) => 1

/-- The weight of all expressions of a list. -/
def weightList : List (Expr α) → ℕ
  | [] => 0
  | e :: es => weight e + weightList es

/-- The weight of all expressions of a list, literals counted. -/
def heftList : List (Expr α) → ℕ
  | [] => 0
  | e :: es => max 1 (weight e) + heftList es

end

/-- The weight of an expression where a literal counts too. -/
def heft (e : Expr α) : ℕ := max 1 e.weight

/-- The weight of a list is the sum of those of its members. -/
theorem weightList_eq_sum (es : List (Expr α)) : weightList es = (es.map weight).sum := by
  induction es with
  | nil => rfl
  | cons e es ih => exact congrArg (e.weight + ·) ih

/-- With literals counted, too, the weight of a list is the sum of those of its members. -/
theorem heftList_eq_sum (es : List (Expr α)) : heftList es = (es.map heft).sum := by
  induction es with
  | nil => rfl
  | cons e es ih => exact congrArg (e.heft + ·) ih

/-- The weight of a sum. -/
theorem weight_sum (as : List (Expr α)) : (sum as).weight = max 1 (as.map weight).sum :=
  congrArg (max 1) (weightList_eq_sum as)

/-- The weight of a product. -/
theorem weight_product (c : Coefficient α) (n d : List (Expr α)) :
    (product c n d).weight = max 1 ((n.map heft).sum + (d.map heft).sum) := by
  rw [← heftList_eq_sum, ← heftList_eq_sum]
  rfl

/-- The weight of a power. -/
theorem weight_power (base exponent : Expr α) :
    (power base exponent).weight = base.heft + exponent.weight := rfl

/-- The weight of a logarithm. -/
theorem weight_log (base body : Expr α) : (log base body).weight = base.heft + body.heft := rfl

/-- The weight of a function's value. -/
theorem weight_trig (f : Trig) (body : Expr α) : (trig f body).weight = body.heft := rfl

/-- Something that is there counts as one at least. -/
theorem one_le_heft (e : Expr α) : 1 ≤ e.heft := le_max_left _ _

/-- An expression weighs no more where literals are counted. -/
theorem weight_le_heft (e : Expr α) : e.weight ≤ e.heft := le_max_right _ _

/-- A list that is not empty counts as one at least. -/
theorem one_le_sum_heft {es : List (Expr α)} (h : es ≠ []) : 1 ≤ (es.map heft).sum := by
  cases es with
  | nil => exact (h rfl).elim
  | cons e es =>
    rw [List.map_cons, List.sum_cons]
    exact (one_le_heft e).trans (Nat.le_add_right _ _)

/-- Only literals weigh nothing. -/
theorem weight_eq_zero {e : Expr α} : e.weight = 0 ↔ ∃ v, e = number (.real v) := by
  constructor
  · intro h
    cases e with
    | sum as =>
      rw [weight_sum] at h
      omega
    | product c n d =>
      rw [weight_product] at h
      omega
    | power base exponent =>
      have := one_le_heft base
      rw [weight_power] at h
      omega
    | log base body =>
      have := one_le_heft base
      rw [weight_log] at h
      omega
    | trig f body =>
      have := one_le_heft body
      rw [weight_trig] at h
      omega
    | var x => cases h
    | number v =>
      cases v with
      | real v => exact ⟨v, rfl⟩
      | constant c => cases h
  · rintro ⟨v, rfl⟩
    rfl

/-- What is not a literal weighs the same where literals are counted. -/
theorem heft_of_not_literal {e : Expr α} (h : ∀ v, e ≠ number (.real v)) : e.heft = e.weight := by
  have hpos : e.weight ≠ 0 := fun hzero => (weight_eq_zero.mp hzero).elim h
  rw [heft]
  omega

/-- The weight of a single expression that is scaled. -/
theorem weight_single (c : Coefficient α) (e : Expr α) : (product c [e] []).weight = e.heft := by
  have := one_le_heft e
  rw [weight_product, List.map_singleton, List.sum_singleton, List.map_nil, List.sum_nil]
  omega

/-- A child weighs no more. -/
theorem weight_le_of_mem_children {e child : Expr α} (h : child ∈ e.children) :
    child.weight ≤ e.weight := by
  have hle := child.weight_le_heft
  have hlist {es : List (Expr α)} (hes : child ∈ es) : child.heft ≤ (es.map heft).sum :=
    List.single_le_sum (by simp) _ (List.mem_map_of_mem hes)
  cases e with
  | sum as =>
    rw [weight_sum]
    exact (List.single_le_sum (by simp) _ (List.mem_map_of_mem h)).trans (le_max_right _ _)
  | product c n d =>
    rw [weight_product]
    obtain h | h := List.mem_append.mp h
    · have := hlist h
      omega
    · have := hlist h
      omega
  | power base exponent =>
    rw [weight_power]
    obtain rfl | rfl : child = base ∨ child = exponent := by simpa [children] using h
    · exact hle.trans (Nat.le_add_right _ _)
    · exact Nat.le_add_left _ _
  | log base body =>
    rw [weight_log]
    obtain rfl | rfl : child = base ∨ child = body := by simpa [children] using h
    · exact hle.trans (Nat.le_add_right _ _)
    · exact hle.trans (Nat.le_add_left _ _)
  | trig f body =>
    obtain rfl : child = body := by simpa [children] using h
    rw [weight_trig]
    exact hle
  | var x => cases h
  | number v => cases h

/-- The addends of an expression weigh no more than it. -/
theorem sum_weight_addends_le (e : Expr α) : (e.addends.map weight).sum ≤ e.weight := by
  cases e with
  | sum as =>
    rw [weight_sum]
    exact le_max_right _ _
  | _ => exact (List.sum_singleton).le

/-- The weight of a list is no more than it is with literals counted. -/
theorem sum_weight_le_sum_heft (es : List (Expr α)) : (es.map weight).sum ≤ (es.map heft).sum :=
  sum_le_of_forall₂ (List.forall₂_same.mpr fun e _ => e.weight_le_heft)

mutual

/-- An expression weighs no more than it has nodes. -/
theorem heft_le_size (e : Expr α) : e.heft ≤ e.size := by
  cases e with
  | sum as =>
    have has := heftList_le_sizeList as
    have hle := sum_weight_le_sum_heft as
    rw [heft, weight_sum, size]
    rw [heftList_eq_sum] at has
    omega
  | product c n d =>
    have hn := heftList_le_sizeList n
    have hd := heftList_le_sizeList d
    rw [heft, weight, size]
    omega
  | power base exponent =>
    have hbase := heft_le_size base
    have hexponent := heft_le_size exponent
    have hle := exponent.weight_le_heft
    rw [heft, weight_power, size]
    omega
  | log base body =>
    have hbase := heft_le_size base
    have hbody := heft_le_size body
    rw [heft, weight_log, size]
    omega
  | trig f body =>
    have hbody := heft_le_size body
    rw [heft, weight_trig, size]
    omega
  | var x => exact le_refl _
  | number v => cases v <;> exact le_refl _

/-- The expressions of a list weigh no more than they have nodes. -/
theorem heftList_le_sizeList (es : List (Expr α)) : heftList es ≤ sizeList es := by
  cases es with
  | nil => exact le_refl _
  | cons e es =>
    have he := heft_le_size e
    have hes := heftList_le_sizeList es
    rw [heftList, sizeList]
    rw [heft] at he
    omega

end

variable [Scalar α]

/-- A literal weighs nothing. -/
theorem weight_real (v : α) : (real v).weight = 0 := rfl

mutual

/-- The opposite of an expression weighs as much as it. -/
theorem weight_neg (e : Expr α) : e.neg.weight = e.weight := by
  have scaled {e : Expr α} (h : ∀ v, e ≠ number (.real v)) :
      (scaled .minusOne e).weight = e.weight := (weight_single _ _).trans (heft_of_not_literal h)
  cases e with
  | sum as => rw [neg, weight, weight, weightList_negList]
  | product c n d => rfl
  | number v =>
    cases v with
    | real v => rfl
    | constant c => rfl
  | _ => exact scaled (by simp)

/-- The opposites of the expressions of a list weigh as much as these. -/
theorem weightList_negList (es : List (Expr α)) : weightList (negList es) = weightList es := by
  cases es with
  | nil => rfl
  | cons e es => rw [negList, weightList, weightList, weight_neg e, weightList_negList es]

end

/-- An expression with a given value is a literal. -/
theorem literal_of_isReal {e : Expr α} {v : α} (h : e.isReal v = true) :
    ∃ u, e = number (.real u) := by
  cases e with
  | number n =>
    cases n with
    | real u => exact ⟨u, rfl⟩
    | constant c => cases h
  | _ => cases h

/-- What an addend weighs at most if it scales the given expression. -/
def termWeight (key : Expr α) : ℕ := if key.isReal Scalar.one then 0 else key.heft

/-- What is not a number adds weight. -/
theorem one_le_termWeight {key : Expr α} (h : key.weight ≠ 0) : 1 ≤ key.termWeight := by
  have hone : key.isReal Scalar.one ≠ true := fun hone =>
    h (weight_eq_zero.mpr (literal_of_isReal hone))
  rw [termWeight, if_neg hone]
  exact one_le_heft key

/-- Scaling an expression gives an addend of at most this weight. -/
theorem weight_ofScaleParts_le (c : Coefficient α) (key : Expr α) :
    (ofScaleParts c key).weight ≤ key.termWeight := by
  fun_cases ofScaleParts c key with
  | case1 => exact Nat.zero_le _
  | case2 => exact Nat.zero_le _
  | case3 _ _ n d hone =>
    rw [termWeight, if_neg hone]
    exact weight_le_heft (product c n d)
  | case4 _ _ _ _ hone =>
    rw [termWeight, if_neg hone]
    exact key.weight_le_heft
  | case5 _ _ _ _ hone =>
    rw [termWeight, if_neg hone]
    exact (weight_single c key).le

/-- A factor weighs as much as its base and its exponent together. -/
theorem heft_powerParts (e : Expr α) : e.heft = e.powerParts.1.heft + e.powerParts.2.weight := by
  cases e with
  | power base exponent =>
    have := one_le_heft base
    rw [heft, weight_power]
    exact max_eq_right (by omega)
  | _ => rfl

/-- Expressions that count as equal weigh the same. -/
theorem weight_eq_of_beq {a b : Expr α} (h : (a == b) = true) : a.weight = b.weight := by
  have hweights {as bs : List (Expr α)} (h : List.Forall₂ (fun a b => a.weight = b.weight) as bs) :
      as.map weight = bs.map weight := by
    rw [← List.forall₂_eq_eq_eq, List.forall₂_map_left_iff, List.forall₂_map_right_iff]
    exact h
  have hhefts {as bs : List (Expr α)} (h : List.Forall₂ (fun a b => a.weight = b.weight) as bs) :
      as.map heft = bs.map heft := by
    rw [← List.forall₂_eq_eq_eq, List.forall₂_map_left_iff, List.forall₂_map_right_iff]
    exact h.imp fun a b h => by rw [heft, heft, h]
  have congruence : Congruence (α := α) fun a b => a.weight = b.weight := {
    sum := fun h => by rw [weight_sum, weight_sum, hweights h]
    product := fun _ hn hd => by rw [weight_product, weight_product, hhefts hn, hhefts hd]
    power := fun hbase hexponent => by rw [weight, weight, hbase, hexponent]
    log := fun hbase hbody => by rw [weight, weight, hbase, hbody]
    trig := fun hbody => by rw [weight, weight, hbody]
    var := fun _ => rfl
    number := fun {v v'} h => by cases v <;> cases v' <;> first | rfl | cases h }
  exact congruence.of_order_eq a b (beq_iff.mp h)

/-- Expressions that count as equal weigh the same, also where literals are counted. -/
theorem heft_eq_of_beq {a b : Expr α} (h : (a == b) = true) : a.heft = b.heft := by
  rw [heft, heft, weight_eq_of_beq h]

variable [Scalar.Lawful α]

/-- An addend of what an expression scales weighs no more than the expression. -/
theorem termWeight_scaleParts_le (e : Expr α) : e.scaleParts.2.termWeight ≤ e.weight := by
  have hle (key : Expr α) : key.termWeight ≤ key.heft := by
    rw [termWeight]
    split
    · exact Nat.zero_le _
    · exact le_refl _
  fun_cases scaleParts e with
  | case1 v => exact (if_pos isReal_one).le
  | case2 c e => exact (hle e).trans (weight_single c e).ge
  | case3 c n d _ =>
    exact (hle (product .one n d)).trans (heft_of_not_literal (by simp)).le
  | case4 e hreal _ _ => exact (hle e).trans (heft_of_not_literal hreal).le

/-- Another coefficient does not add weight. -/
theorem weight_rescaled_le (c : Coefficient α) (e : Expr α) :
    (ofScaleParts c e.scaleParts.2).weight ≤ e.weight :=
  (weight_ofScaleParts_le _ _).trans (termWeight_scaleParts_le e)

end Expr

end SymbolicAlgebra
