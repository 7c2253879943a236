import SymbolicAlgebra.Proofs.Expr.Weight

/-!
# Heights

A measure of nesting that the rules raise only where they take weight away. A product is no higher than
its factors, since any expression may be given a coefficient or be put below a fraction line; only a
product among its factors makes it higher. Up to a factor of two heights are numbers of levels.
-/

namespace SymbolicAlgebra

/-- The largest value for a member of a list. -/
def highest {β : Type} (f : β → ℕ) (bs : List β) : ℕ := (bs.map f).foldr max 0

/-- There is no value for an empty list. -/
@[simp] theorem highest_nil {β : Type} (f : β → ℕ) : highest f [] = 0 := rfl

/-- The largest value for a list that is not empty. -/
theorem highest_cons {β : Type} (f : β → ℕ) (b : β) (bs : List β) :
    highest f (b :: bs) = max (f b) (highest f bs) := rfl

/-- The only value is the largest one. -/
theorem highest_singleton {β : Type} (f : β → ℕ) (b : β) : highest f [b] = f b :=
  max_eq_left (Nat.zero_le _)

/-- The largest value is within a bound if all values are. -/
theorem highest_le_iff {β : Type} {f : β → ℕ} {bs : List β} {bound : ℕ} :
    highest f bs ≤ bound ↔ ∀ b ∈ bs, f b ≤ bound := by
  induction bs with
  | nil => simp [highest]
  | cons b bs ih => rw [highest_cons, max_le_iff, ih, List.forall_mem_cons]

/-- No value is larger than the largest one. -/
theorem le_highest {β : Type} {f : β → ℕ} {b : β} {bs : List β} (h : b ∈ bs) :
    f b ≤ highest f bs := highest_le_iff.mp (le_refl _) b h

/-- The largest value for two lists in a row. -/
theorem highest_append {β : Type} (f : β → ℕ) (bs cs : List β) :
    highest f (bs ++ cs) = max (highest f bs) (highest f cs) := by
  induction bs with
  | nil => exact (max_eq_right (Nat.zero_le _)).symm
  | cons b bs ih => rw [List.cons_append, highest_cons, highest_cons, ih, max_assoc]

/-- The largest value does not depend on the sequence. -/
theorem highest_perm {β : Type} {f : β → ℕ} {bs cs : List β} (h : bs.Perm cs) :
    highest f bs = highest f cs :=
  le_antisymm (highest_le_iff.mpr fun _ hb => le_highest (h.mem_iff.mp hb))
    (highest_le_iff.mpr fun _ hc => le_highest (h.mem_iff.mpr hc))

/-- Where the members of a list exceed given heights only by what they lose in weight, thrice, so does
the highest of them by what they lose together. -/
theorem highest_add_sum_le {β γ : Type} {f s : β → ℕ} {g t : γ → ℕ} {k : ℕ} {bs : List β}
    {cs : List γ}
    (h : List.Forall₂ (fun b c => g c ≤ f b ∧ t c + 3 * g c ≤ k + s b + 3 * f b) bs cs) :
    highest t cs + 3 * (cs.map g).sum ≤ k + highest s bs + 3 * (bs.map f).sum := by
  induction h with
  | nil => exact Nat.le_add_left _ _
  | cons h hrest ih =>
    have hsum := sum_le_of_forall₂ (hrest.imp fun _ _ h => h.1)
    simp only [highest_cons, List.map_cons, List.sum_cons]
    omega

namespace Expr

variable {α : Type}

mutual

/-- The height of an expression. -/
def height : Expr α → ℕ
  | sum as => heightList as + 1
  | product _ n d => max (riseList n) (riseList d)
  | power base exponent => max (height base) (height exponent) + 1
  | log base body => max (height base) (height body) + 1
  | trig _ body => height body + 1
  | var _ => 0
  | number _ => 0

/-- The height of the highest expression of a list. -/
def heightList : List (Expr α) → ℕ
  | [] => 0
  | e :: es => max (height e) (heightList es)

/-- The height of the highest factor of a list. -/
def riseList : List (Expr α) → ℕ
  | [] => 0
  | e :: es => max (height e + e.isProduct.toNat) (riseList es)

end

/-- The height of an expression as a factor. -/
def rise (e : Expr α) : ℕ := e.height + e.isProduct.toNat

/-- The height of a list is that of its highest member. -/
theorem heightList_eq (es : List (Expr α)) : heightList es = highest height es := by
  induction es with
  | nil => rfl
  | cons e es ih => rw [heightList, ih, highest_cons]

/-- The height of a list of factors is that of the highest one. -/
theorem riseList_eq (es : List (Expr α)) : riseList es = highest rise es := by
  induction es with
  | nil => rfl
  | cons e es ih => rw [riseList, ih, highest_cons, rise]

/-- The height of a sum. -/
theorem height_sum (as : List (Expr α)) : (sum as).height = highest height as + 1 := by
  rw [height, heightList_eq]

/-- The height of a product. -/
theorem height_product (c : Coefficient α) (n d : List (Expr α)) :
    (product c n d).height = max (highest rise n) (highest rise d) := by
  rw [height, riseList_eq, riseList_eq]

/-- An expression is no higher than it is as a factor. -/
theorem height_le_rise (e : Expr α) : e.height ≤ e.rise := Nat.le_add_right _ _

/-- The highest of some expressions is no higher than the highest of them as a factor. -/
theorem highest_height_le_rise (es : List (Expr α)) : highest height es ≤ highest rise es :=
  highest_le_iff.mpr fun e he => (height_le_rise e).trans (le_highest he)

/-- What is not a product is as high as it is as a factor. -/
theorem rise_of_not_product {e : Expr α} (h : e.isProduct = false) : e.rise = e.height := by
  rw [rise, h]
  rfl

/-- A single expression that is scaled is as high as it is as a factor. -/
theorem height_single (c : Coefficient α) (e : Expr α) : (product c [e] []).height = e.rise := by
  rw [height_product]
  exact (max_eq_left (Nat.zero_le _)).trans (max_eq_left (Nat.zero_le _))

/-- What weighs nothing is not high. -/
theorem height_of_weight_eq_zero {e : Expr α} (h : e.weight = 0) : e.rise = 0 := by
  obtain ⟨v, rfl⟩ := weight_eq_zero.mp h
  rfl

/-- A child is no higher. -/
theorem height_le_of_mem_children {e child : Expr α} (h : child ∈ e.children) :
    child.height ≤ e.height := by
  have hlist {es : List (Expr α)} (hes : child ∈ es) : child.height ≤ highest rise es :=
    child.height_le_rise.trans (le_highest hes)
  cases e with
  | sum as =>
    rw [height_sum]
    exact (le_highest h).trans (Nat.le_succ _)
  | product c n d =>
    rw [height_product]
    obtain h | h := List.mem_append.mp h
    · exact (hlist h).trans (le_max_left _ _)
    · exact (hlist h).trans (le_max_right _ _)
  | power base exponent =>
    rw [height]
    obtain rfl | rfl : child = base ∨ child = exponent := by simpa [children] using h
    · exact (le_max_left _ _).trans (Nat.le_succ _)
    · exact (le_max_right _ _).trans (Nat.le_succ _)
  | log base body =>
    rw [height]
    obtain rfl | rfl : child = base ∨ child = body := by simpa [children] using h
    · exact (le_max_left _ _).trans (Nat.le_succ _)
    · exact (le_max_right _ _).trans (Nat.le_succ _)
  | trig f body =>
    obtain rfl : child = body := by simpa [children] using h
    exact Nat.le_succ _
  | var x => cases h
  | number v => cases h

/-- An addend is no higher than its expression. -/
theorem height_le_of_mem_addends {a e : Expr α} (h : a ∈ e.addends) : a.height ≤ e.height := by
  cases e with
  | sum as => exact height_le_of_mem_children h
  | _ =>
    obtain rfl := List.mem_singleton.mp h
    exact le_refl _

mutual

/-- An expression has at most two levels for each unit of its height. -/
theorem depth_le_height (e : Expr α) : e.depth ≤ 2 * e.height + 1 + e.isProduct.toNat := by
  cases e with
  | sum as =>
    have := depthList_le_heightList as
    rw [depth, height]
    omega
  | product c n d =>
    have hn := depthList_le_riseList n
    have hd := depthList_le_riseList d
    have hproduct : (product c n d).isProduct.toNat = 1 := rfl
    rw [depth, height]
    omega
  | power base exponent =>
    have hbase := depth_le_height base
    have hexponent := depth_le_height exponent
    have := base.isProduct.toNat_le
    have := exponent.isProduct.toNat_le
    rw [depth, height]
    omega
  | log base body =>
    have hbase := depth_le_height base
    have hbody := depth_le_height body
    have := base.isProduct.toNat_le
    have := body.isProduct.toNat_le
    rw [depth, height]
    omega
  | trig f body =>
    have hbody := depth_le_height body
    have := body.isProduct.toNat_le
    rw [depth, height]
    omega
  | var x => exact le_refl _
  | number v => exact le_refl _

/-- The expressions of a list have at most two levels for each unit of the height of the highest. -/
theorem depthList_le_heightList (es : List (Expr α)) : depthList es ≤ 2 * heightList es + 2 := by
  cases es with
  | nil => exact Nat.zero_le _
  | cons e es =>
    have he := depth_le_height e
    have hes := depthList_le_heightList es
    have := e.isProduct.toNat_le
    rw [depthList, heightList]
    omega

/-- Factors have at most two levels for each unit of the height of the highest. -/
theorem depthList_le_riseList (es : List (Expr α)) : depthList es ≤ 2 * riseList es + 1 := by
  cases es with
  | nil => exact Nat.zero_le _
  | cons e es =>
    have he := depth_le_height e
    have hes := depthList_le_riseList es
    rw [depthList, riseList]
    omega

end

mutual

/-- The height of an expression is at most the number of its levels, also as a factor. -/
theorem rise_le_depth (e : Expr α) : e.rise ≤ e.depth := by
  cases e with
  | sum as =>
    rw [rise_of_not_product rfl, depth, height]
    exact Nat.succ_le_succ (heightList_le_depthList as)
  | product c n d =>
    have hn := riseList_le_depthList n
    have hd := riseList_le_depthList d
    have hproduct : (product c n d).isProduct.toNat = 1 := rfl
    rw [rise, depth, height, hproduct]
    omega
  | power base exponent =>
    have hbase := (height_le_rise base).trans (rise_le_depth base)
    have hexponent := (height_le_rise exponent).trans (rise_le_depth exponent)
    rw [rise_of_not_product rfl, depth, height]
    omega
  | log base body =>
    have hbase := (height_le_rise base).trans (rise_le_depth base)
    have hbody := (height_le_rise body).trans (rise_le_depth body)
    rw [rise_of_not_product rfl, depth, height]
    omega
  | trig f body =>
    have hbody := (height_le_rise body).trans (rise_le_depth body)
    rw [rise_of_not_product rfl, depth, height]
    omega
  | var x => exact Nat.zero_le _
  | number v => exact Nat.zero_le _

/-- The height of a list is at most the number of its levels. -/
theorem heightList_le_depthList (es : List (Expr α)) : heightList es ≤ depthList es := by
  cases es with
  | nil => exact le_refl _
  | cons e es =>
    have he := (height_le_rise e).trans (rise_le_depth e)
    have hes := heightList_le_depthList es
    rw [heightList, depthList]
    omega

/-- The height of a list of factors is at most the number of its levels. -/
theorem riseList_le_depthList (es : List (Expr α)) : riseList es ≤ depthList es := by
  cases es with
  | nil => exact le_refl _
  | cons e es =>
    have he := rise_le_depth e
    have hes := riseList_le_depthList es
    rw [rise] at he
    rw [riseList, depthList]
    omega

end

variable [Scalar α]

mutual

/-- The opposite of an expression is as high as it. -/
theorem height_neg (e : Expr α) : e.neg.height = e.height := by
  cases e with
  | sum as => rw [neg, height, height, heightList_negList]
  | product c n d => rfl
  | number v => cases v <;> rfl
  | _ => exact height_single _ _

/-- The opposites of the expressions of a list are as high as these. -/
theorem heightList_negList (es : List (Expr α)) : heightList (negList es) = heightList es := by
  cases es with
  | nil => rfl
  | cons e es => rw [negList, heightList, heightList, height_neg e, heightList_negList es]

end

/-- What an expression scales is no higher than it. -/
theorem height_scaleParts_le (e : Expr α) : e.scaleParts.2.height ≤ e.height := by
  fun_cases scaleParts e with
  | case1 v => exact le_refl _
  | case2 c x =>
    rw [height_single]
    exact x.height_le_rise
  | case3 c n d => exact le_refl _
  | case4 => exact le_refl _

/-- Scaling does not make an expression higher. -/
theorem height_ofScaleParts_le (c : Coefficient α) (key : Expr α) :
    (ofScaleParts c key).height ≤ key.height := by
  fun_cases ofScaleParts c key with
  | case1 => exact Nat.zero_le _
  | case2 => exact Nat.zero_le _
  | case3 => exact le_refl _
  | case4 => exact le_refl _
  | case5 _ _ hproduct =>
    refine ((height_single c key).trans (rise_of_not_product ?_)).le
    cases key with
    | product c n d => exact (hproduct c n d rfl).elim
    | _ => rfl

/-- Another coefficient does not make an expression higher. -/
theorem height_rescaled_le (c : Coefficient α) (e : Expr α) :
    (ofScaleParts c e.scaleParts.2).height ≤ e.height :=
  (height_ofScaleParts_le _ _).trans (height_scaleParts_le e)

/-- Base and exponent of a factor are no higher than it. -/
theorem height_powerParts_le (e : Expr α) :
    e.powerParts.1.height ≤ e.height ∧ e.powerParts.2.height ≤ e.height := by
  cases e with
  | power base exponent =>
    rw [height]
    exact ⟨(le_max_left _ _).trans (Nat.le_succ _), (le_max_right _ _).trans (Nat.le_succ _)⟩
  | _ => exact ⟨le_refl _, Nat.zero_le _⟩

/-- Expressions that count as equal are equally high. -/
theorem height_eq_of_beq {a b : Expr α} (h : (a == b) = true) :
    a.height = b.height ∧ a.rise = b.rise := by
  have heights {as bs : List (Expr α)}
      (h : List.Forall₂ (fun a b => a.height = b.height ∧ a.rise = b.rise) as bs) :
      highest height as = highest height bs ∧ highest rise as = highest rise bs := by
    induction h with
    | nil => exact ⟨rfl, rfl⟩
    | cons h _ ih => simp only [highest_cons, h, ih, true_and]
  have same {a b : Expr α} (hheight : a.height = b.height) (hproduct : a.isProduct = b.isProduct) :
      a.height = b.height ∧ a.rise = b.rise := ⟨hheight, by rw [rise, rise, hheight, hproduct]⟩
  have congruence : Congruence (α := α) fun a b => a.height = b.height ∧ a.rise = b.rise := {
    sum := fun h => same (by rw [height_sum, height_sum, (heights h).1]) rfl
    product := fun _ hn hd =>
      same (by rw [height_product, height_product, (heights hn).2, (heights hd).2]) rfl
    power := fun hbase hexponent => same (by rw [height, height, hbase.1, hexponent.1]) rfl
    log := fun hbase hbody => same (by rw [height, height, hbase.1, hbody.1]) rfl
    trig := fun hbody => same (by rw [height, height, hbody.1]) rfl
    var := fun _ => ⟨rfl, rfl⟩
    number := fun _ => ⟨rfl, rfl⟩ }
  exact congruence.of_order_eq a b (beq_iff.mp h)

end Expr

end SymbolicAlgebra
