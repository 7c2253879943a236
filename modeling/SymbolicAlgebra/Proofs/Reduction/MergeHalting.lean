import SymbolicAlgebra.Proofs.Reduction.Halting
import SymbolicAlgebra.Proofs.Reduction.Unlike

/-!
# Bounds that suffice for combining

The combining pass never reaches its bound either. It makes an expression higher only where it takes
weight away: what it gathers to one power stood in two places, and the weight of a base that is not
written again pays for the levels of the power to the sum of all exponents.
-/

namespace SymbolicAlgebra.Reduction

open SymbolicAlgebra.Expr

variable {α : Type} [Scalar α]

/-- The powers of a base that stand alone are no higher than given. -/
def LowGroup (F : ℕ) (group : Expr α × List (Expr α)) : Prop :=
  group.1.rise ≤ F ∧
    ∀ x ∈ group.2, x.isReal Scalar.one = true ∨ max group.1.height x.height + 1 ≤ F

/-- What an exponent adds to the height of its power. -/
theorem LowGroup.height_le {F : ℕ} {base : Expr α} {exponents : List (Expr α)}
    (h : LowGroup F (base, exponents)) : highest height exponents ≤ F := by
  rw [highest_le_iff]
  intro x hx
  obtain hone | hle := h.2 x hx
  · obtain ⟨v, rfl⟩ := literal_of_isReal hone
    exact Nat.zero_le _
  · omega

omit [Scalar α] in
/-- The powers of one base weigh as much as the base so many times and all exponents. -/
theorem groupWeight_eq (base : Expr α) (exponents : List (Expr α)) :
    groupWeight (base, exponents) = exponents.length * base.heft + (exponents.map weight).sum := by
  induction exponents with
  | nil => simp [groupWeight]
  | cons x exponents ih =>
    change base.heft + x.weight + groupWeight (base, exponents) = _
    rw [ih, List.length_cons, List.map_cons, List.sum_cons, Nat.succ_mul]
    omega

/-- The power of a base to the sum of several exponents is higher than the powers that stand alone only
by what is saved in weight, even if it is a product. -/
theorem LowGroup.several_le {F : ℕ} {base : Expr α} {exponents : List (Expr α)}
    (h : LowGroup F (base, exponents)) (hlength : 2 ≤ exponents.length) :
    base.heft + (sumRule exponents).value.weight < groupWeight (base, exponents) ∧
      max base.height (sumRule exponents).value.height + 2 +
        3 * (base.heft + (sumRule exponents).value.weight) ≤
          F + 3 * groupWeight (base, exponents) := by
  have hbase := base.height_le_rise.trans h.1
  have hexponents := h.height_le
  have hweight := weight_sumRule_le exponents
  have hheight := height_sumRule_le exponents
  have htwice := Nat.mul_le_mul_right base.heft hlength
  have hone := one_le_heft base
  rw [groupWeight_eq]
  constructor <;> omega

/-- What the powers of a base are combined to is higher only by what is saved in weight. -/
theorem gatherPower_height [Scalar.Lawful α] {F fuel : ℕ} {base e : Expr α}
    {exponents : List (Expr α)} (hlow : LowGroup F (base, exponents)) (hne : exponents ≠ [])
    (h : (gatherPower fuel base exponents).Returns e) :
    e.rise + 3 * e.heft ≤ F + 3 * groupWeight (base, exponents) := by
  have hheft := (gatherPower_weight hne h).1
  match exponents, hne with
  | [exponent], _ =>
    rw [gatherPower, Reducing.returns_pure] at h
    have hrise : e.rise ≤ F := by
      subst h
      split
      · exact hlow.1
      · rename_i hone
        obtain h | h := hlow.2 exponent List.mem_cons_self
        · exact (hone h).elim
        · rw [rise_of_not_product rfl, height]
          exact h
    omega
  | x :: y :: exponents, _ =>
    simp only [gatherPower, Reducing.returns_bind, Reducing.returns_liftM] at h
    obtain ⟨_, rfl, h⟩ := h
    obtain ⟨hweight, hheight⟩ := height_closed.power_returns h
    obtain ⟨hlt, hlow⟩ := hlow.several_le (by simp)
    by_cases hzero : e.weight = 0
    · rw [height_of_weight_eq_zero hzero]
      omega
    · have := e.isProduct.toNat_le
      rw [rise, heft]
      omega

/-- Base and exponent of a factor are no higher than it. -/
theorem lowGroup_powerParts [Scalar.Lawful α] (e : Expr α) :
    LowGroup e.rise (e.powerParts.1, [e.powerParts.2]) := by
  cases e with
  | power base exponent =>
    have hproduct := base.isProduct.toNat_le
    have hrise : (Expr.power base exponent).rise = max base.height exponent.height + 1 := by
      rw [rise_of_not_product rfl, height]
    rw [hrise]
    refine ⟨?_, List.forall_mem_singleton.mpr (.inr (le_refl _))⟩
    change base.height + base.isProduct.toNat ≤ _
    omega
  | _ => exact ⟨le_refl _, List.forall_mem_singleton.mpr (.inl isReal_one)⟩

/-- Groups are no higher than the factors that they are made of. -/
theorem lowGroup_likeFactors [Scalar.Lawful α] {F : ℕ} {es : List (Expr α)} (h : ∀ e ∈ es, e.rise ≤ F) :
    ∀ group ∈ likeFactors es, LowGroup F group := by
  induction es using List.reverseRecOn with
  | nil => simp [likeFactors]
  | append_singleton es e ih =>
    rw [List.forall_mem_append, List.forall_mem_singleton] at h
    replace ih := ih h.1
    have hnew : LowGroup F (e.powerParts.1, [e.powerParts.2]) := by
      obtain ⟨hbase, hexponent⟩ := lowGroup_powerParts e
      exact ⟨hbase.trans h.2, fun x hx => (hexponent x hx).imp_right fun hle => hle.trans h.2⟩
    rw [likeFactors_append_singleton]
    obtain ⟨hgroups, -⟩ | ⟨before, base₀, exponents, after, hgroups, hbase, hold⟩ :=
      addExponent_cases e.powerParts.1 e.powerParts.2 (likeFactors es)
    · rw [hgroups, List.forall_mem_append, List.forall_mem_singleton]
      exact ⟨ih, hnew⟩
    · rw [hgroups, List.forall_mem_append, List.forall_mem_cons] at ih
      rw [hold, List.forall_mem_append, List.forall_mem_cons]
      refine ⟨ih.1, ⟨ih.2.1.1, ?_⟩, ih.2.2⟩
      rw [List.forall_mem_append]
      obtain ⟨hheight, -⟩ := height_eq_of_beq hbase
      have := hnew.2
      rw [← hheight] at this
      exact ⟨ih.2.1.2, this⟩

/-- Combining factors makes them higher only by what is saved in weight. -/
theorem mergeFactors_height [Scalar.Lawful α] {fuel : ℕ} {es es' : List (Expr α)}
    (h : (mergeFactors fuel es).Returns es') :
    highest rise es' + 3 * (es'.map heft).sum ≤ highest rise es + 3 * (es.map heft).sum := by
  have hlow : ∀ group ∈ likeFactors es, LowGroup (highest rise es) group :=
    lowGroup_likeFactors fun e he => le_highest he
  have hnonempty : ∀ group ∈ likeFactors es, group.2 ≠ [] := fun _ hgroup =>
    ne_nil_of_mem_likeFactors hgroup
  have hgathered := ((List.forall₂_and_left _ _).mpr ⟨fun group hgroup =>
    And.intro (hlow group hgroup) (hnonempty group hgroup), returns_mergeFactors.mp h⟩).imp
      fun group e h => And.intro (gatherPower_weight h.1.2 h.2).1
        (gatherPower_height h.1.1 h.1.2 h.2)
  have hbound := highest_add_sum_le (s := fun _ => 0) hgathered
  have hflat : highest (fun _ => 0) (likeFactors es) = 0 :=
    Nat.le_zero.mp (highest_le_iff.mpr fun _ _ => le_refl _)
  rw [hflat, sum_groupWeight] at hbound
  exact hbound

/-- Combining addends does not make them higher. -/
theorem mergeAddends_height (as : List (Expr α)) :
    highest height (mergeAddends as).value ≤ highest height as := by
  rw [highest_le_iff, mergeAddends, List.forall_mem_map]
  intro term hterm
  obtain ⟨a, ha, hkey⟩ := mem_likeTerms hterm
  change (ofScaleParts term.1 term.2).height ≤ _
  rw [hkey]
  exact (height_rescaled_le _ a).trans (le_highest ha)

/-- The combining pass makes products of products, and of nothing else. -/
theorem merge_isProduct {fuel : ℕ} {e e' : Expr α} (h : (merge fuel e).Returns e') :
    e'.isProduct = e.isProduct := by
  cases mergeStep h <;> rfl

/-- What is combined is confined as a factor, too. -/
theorem rise_of_confined {fuel : ℕ} {es es' : List (Expr α)}
    (h : List.Forall₂ (fun e e' => (merge fuel e).Returns e') es es')
    (hconfined : List.Forall₂ (fun e e' => Confined e' e.weight e.height) es es') :
    (es'.map heft).sum ≤ (es.map heft).sum ∧
      highest rise es' + 3 * (es'.map heft).sum ≤ highest rise es + 3 * (es.map heft).sum := by
  have hall : List.Forall₂ (fun e e' => e'.heft ≤ e.heft ∧
      e'.rise + 3 * e'.heft ≤ 0 + e.rise + 3 * e.heft) es es' :=
    (forall₂_and h hconfined).imp fun e e' h => by
      obtain ⟨hweight, hheight⟩ := h.2.heft
      rw [← heft] at hweight hheight
      rw [rise, rise, merge_isProduct h.1]
      constructor <;> omega
  have hbound := highest_add_sum_le hall
  rw [Nat.zero_add] at hbound
  exact ⟨sum_le_of_forall₂ (hall.imp fun _ _ h => h.1), hbound⟩

omit [Scalar α] in
/-- Expressions of a list that weigh nothing together are not high. -/
theorem highest_height_of_sum_weight (es : List (Expr α)) (h : (es.map weight).sum = 0) :
    highest height es = 0 := by
  refine Nat.le_zero.mp (highest_le_iff.mpr fun e he => ?_)
  have hzero : e.weight = 0 := List.sum_eq_zero_iff.mp h _ (List.mem_map_of_mem he)
  exact e.height_le_rise.trans (height_of_weight_eq_zero hzero).le

omit [Scalar α] in
/-- There are no factors that weigh nothing together. -/
theorem highest_rise_of_sum_heft (es : List (Expr α)) (h : (es.map heft).sum = 0) :
    highest rise es = 0 := by
  cases es with
  | nil => rfl
  | cons e es =>
    have := one_le_sum_heft (List.cons_ne_nil e es)
    omega

/-- A list is combined within a bound that suffices for each of its members. -/
theorem halts_mergeList {fuel : ℕ} {es : List (Expr α)} (h : ∀ e ∈ es, (merge fuel e).Halts) :
    (mergeList fuel es).Halts := by
  induction es with
  | nil => exact Reducing.halts_pure
  | cons e es ih =>
    rw [List.forall_mem_cons] at h
    exact h.1.bind fun _ _ => (ih h.2).bind fun _ _ => Reducing.halts_pure

section Unital

variable [Scalar.Unital α]

/-- A sum of combined addends is confined once these are combined. -/
theorem confined_sum {as as' : List (Expr α)}
    (h : List.Forall₂ (fun a a' => Confined a' a.weight a.height) as as') :
    (Expr.sum (mergeAddends as').value).height + 3 * (Expr.sum (mergeAddends as').value).weight ≤
      (Expr.sum as).height + 3 * (Expr.sum as).weight := by
  have hconfined : List.Forall₂ (fun a a' => a'.weight ≤ a.weight ∧
      a'.height + 3 * a'.weight ≤ 0 + a.height + 3 * a.weight) as as' :=
    h.imp fun a a' h => by rwa [Nat.zero_add]
  have hsum := sum_le_of_forall₂ (h.imp fun _ _ h => h.1)
  have hbound := highest_add_sum_le hconfined
  have hweight := (mergeAddends_weight_le as').trans
    ((sum_termWeight_likeTerms_le as').trans (sum_termWeight_le as'))
  have hheight := mergeAddends_height as'
  have hflat := highest_height_of_sum_weight as'
  rw [height_sum, height_sum, weight_sum, weight_sum]
  omega

/-- The combining pass makes an expression higher only where it takes weight away. -/
theorem merge_confined {fuel : ℕ} (e : Expr α) {e' : Expr α} (h : (merge fuel e).Returns e') :
    Confined e' e.weight e.height := by
  refine ⟨(merge_weight h).1, ?_⟩
  refine merge_induction (r := fun e e' => e'.height + 3 * e'.weight ≤ e.height + 3 * e.weight)
    (fun e e' step => ?_) e h
  replace step := step.imp (s := fun e e' => (merge fuel e).Returns e' ∧
    Confined e' e.weight e.height) fun _ _ _ h => ⟨h.1, (merge_weight h.1).1, h.2⟩
  cases step with
  | sum has => exact confined_sum (has.imp fun _ _ h => h.2)
  | @product c n d n' d' n'' d'' hn hd hn' hd' =>
    have hnBelow := rise_of_confined (hn.imp fun _ _ h => h.1) (hn.imp fun _ _ h => h.2)
    have hdBelow := rise_of_confined (hd.imp fun _ _ h => h.1) (hd.imp fun _ _ h => h.2)
    have hnBound := mergeFactors_height hn'
    have hdBound := mergeFactors_height hd'
    have hnWeight := (mergeFactors_weight hn').1
    have hdWeight := (mergeFactors_weight hd').1
    have hnNone := highest_rise_of_sum_heft n''
    have hdNone := highest_rise_of_sum_heft d''
    rw [height_product, height_product, weight_product, weight_product]
    omega
  | power hbase hexponent =>
    obtain ⟨hbaseWeight, hbaseHeight⟩ := hbase.2.heft
    obtain ⟨hexponentWeight, hexponentHeight⟩ := hexponent.2
    rw [← heft] at hbaseWeight hbaseHeight
    rw [height, height, weight_power, weight_power]
    omega
  | log hbase hbody =>
    obtain ⟨hbaseWeight, hbaseHeight⟩ := hbase.2.heft
    obtain ⟨hbodyWeight, hbodyHeight⟩ := hbody.2.heft
    rw [← heft] at hbaseWeight hbaseHeight hbodyWeight hbodyHeight
    rw [height, height, weight_log, weight_log]
    omega
  | trig hbody =>
    obtain ⟨hbodyWeight, hbodyHeight⟩ := hbody.2.heft
    rw [← heft] at hbodyWeight hbodyHeight
    rw [height, height, weight_trig, weight_trig]
    omega
  | var => exact le_refl _
  | number => exact le_refl _

end Unital

variable [Scalar.Signed α]

/-- Combining factors stays within a bound that suffices for their weight. -/
theorem halts_mergeFactors {H fuel : ℕ} {es : List (Expr α)}
    (hheight : highest rise es + 3 * (es.map heft).sum ≤ H)
    (hfuel : price H * (es.map heft).sum + 6 * H + 10 ≤ fuel) : (mergeFactors fuel es).Halts := by
  have hlow : ∀ group ∈ likeFactors es, LowGroup (highest rise es) group :=
    lowGroup_likeFactors fun e he => le_highest he
  refine Reducing.halts_liftM.bind fun _ _ => Reducing.halts_mapList fun group hgroup => ?_
  have hweight : groupWeight group ≤ (es.map heft).sum := by
    rw [← sum_groupWeight]
    exact List.single_le_sum (by simp) _ (List.mem_map_of_mem hgroup)
  obtain ⟨base, exponents⟩ := group
  have several (hlength : 2 ≤ exponents.length) :
      (powerRule fuel base (sumRule exponents).value).Halts := by
    obtain ⟨hlt, hle⟩ := (hlow _ hgroup).several_le hlength
    have hdepth := depth_le_of_height_le (by omega : base.height ≤ H)
    have := Nat.mul_le_mul_left (price H)
      (by omega : base.heft + (sumRule exponents).value.weight ≤ (es.map heft).sum)
    exact (suffices_all H fuel).power .twice (by omega) (by omega)
  have hne := ne_nil_of_mem_likeFactors hgroup
  match exponents, hne, several with
  | [exponent], _, _ => exact Reducing.halts_pure
  | x :: y :: exponents, _, several =>
    refine Reducing.halts_liftM.bind fun exponent hexponent => ?_
    rw [← Reducing.returns_liftM.mp hexponent]
    exact several (by simp)

/-- The combining pass stays within a bound that suffices for the weight of the expression. -/
theorem halts_merge {H fuel : ℕ} (e : Expr α) (hheight : e.height + 3 * e.weight ≤ H)
    (hfuel : price H * e.weight + 6 * H + 10 ≤ fuel) : (merge fuel e).Halts := by
  have below : ∀ child ∈ e.children, (merge fuel child).Halts := fun child hchild => by
    have hweight := weight_le_of_mem_children hchild
    have hhigh := height_le_of_mem_children hchild
    have := Nat.mul_le_mul_left (price H) hweight
    exact halts_merge (H := H) child (by omega) (by omega)
  cases e with
  | sum as =>
    exact (halts_mergeList below).bind fun _ _ => Reducing.halts_liftM.bind fun _ _ =>
      Reducing.halts_pure
  | product c n d =>
    rw [children, List.forall_mem_append] at below
    rw [height_product, weight_product] at hheight
    rw [weight_product] at hfuel
    refine (halts_mergeList below.1).bind fun n' hn => (halts_mergeList below.2).bind fun d' hd => ?_
    have combined {es es' : List (Expr α)} (h : (mergeList fuel es).Returns es') :=
      rise_of_confined (returns_mergeList.mp h)
        ((returns_mergeList.mp h).imp fun a a' h => merge_confined a h)
    obtain ⟨hnWeight, hnHeight⟩ := combined hn
    obtain ⟨hdWeight, hdHeight⟩ := combined hd
    have hnPrice := Nat.mul_le_mul_left (price H)
      (by omega : (n'.map heft).sum ≤ max 1 ((n.map heft).sum + (d.map heft).sum))
    have hdPrice := Nat.mul_le_mul_left (price H)
      (by omega : (d'.map heft).sum ≤ max 1 ((n.map heft).sum + (d.map heft).sum))
    exact (halts_mergeFactors (H := H) (by omega) (by omega)).bind fun _ _ =>
      (halts_mergeFactors (H := H) (by omega) (by omega)).bind fun _ _ => Reducing.halts_pure
  | power base exponent =>
    rw [children, List.forall_mem_cons, List.forall_mem_singleton] at below
    exact below.1.bind fun _ _ => below.2.bind fun _ _ => Reducing.halts_pure
  | log base body =>
    rw [children, List.forall_mem_cons, List.forall_mem_singleton] at below
    exact below.1.bind fun _ _ => below.2.bind fun _ _ => Reducing.halts_pure
  | trig f body =>
    rw [children, List.forall_mem_singleton] at below
    exact below.bind fun _ _ => Reducing.halts_pure
  | var x => exact Reducing.halts_pure
  | number v => exact Reducing.halts_pure
termination_by e.size
decreasing_by exact size_lt_of_mem_children hchild

/-- The combining pass stays within the bound for the number of nodes. -/
theorem merged_halts (e : Expr α) : (merged e).Halts := by
  have hfuel := le_nestingBound e
  exact halts_merge e (height_add_weight_le_size e) (by omega)

end SymbolicAlgebra.Reduction
