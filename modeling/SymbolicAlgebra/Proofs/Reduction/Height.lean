import SymbolicAlgebra.Proofs.Expr.Height
import SymbolicAlgebra.Proofs.Reduction.Weight

/-!
# Rules and heights

What the rules make of an expression is higher only if it is lighter: every unit of weight that is lost
pays for at most three levels. So the height of everything that a pass comes across is bounded by height
and weight of the expression that it started from.
-/

namespace SymbolicAlgebra.Reduction

open SymbolicAlgebra.Expr

variable {α : Type} [Scalar α]

/-- The expression weighs at most so much, and it is higher than the given height by no more than three
times the weight that it lacks. -/
def Confined (e : Expr α) (w h : ℕ) : Prop := e.weight ≤ w ∧ e.height + 3 * e.weight ≤ h + 3 * w

omit [Scalar α] in
/-- A confined expression is confined where literals are counted, too. -/
theorem Confined.heft {e : Expr α} {w h : ℕ} (hconfined : Confined e w h) :
    e.heft ≤ max 1 w ∧ e.height + 3 * e.heft ≤ h + 3 * max 1 w := by
  obtain ⟨hweight, hheight⟩ := hconfined
  refine ⟨max_le_max_left 1 hweight, ?_⟩
  by_cases hzero : e.weight = 0
  · have hflat := (height_le_rise e).trans (height_of_weight_eq_zero hzero).le
    rw [Expr.heft]
    omega
  · rw [Expr.heft]
    omega

omit [Scalar α] in
/-- An expression is also confined to more weight and more height. -/
theorem Confined.mono {e : Expr α} {w w' h h' : ℕ} (hconfined : Confined e w h) (hw : w ≤ w')
    (hh : h ≤ h') : Confined e w' h' := by
  obtain ⟨hweight, hheight⟩ := hconfined
  constructor <;> omega

omit [Scalar α] in
/-- Confined factors exceed the height to which they are confined only by what they lack in weight. -/
theorem confined_factors {n d n' d' : List (Expr α)} {k : ℕ}
    (hn : List.Forall₂ (fun a b => Confined b a.heft (k + a.rise)) n n')
    (hd : List.Forall₂ (fun a b => Confined b a.heft (k + a.rise)) d d') :
    (n'.map weight).sum + (d'.map heft).sum ≤ (n.map heft).sum + (d.map heft).sum ∧
      max (highest height n') (highest height d') +
          3 * ((n'.map weight).sum + (d'.map heft).sum) ≤
        k + max (highest rise n) (highest rise d) + 3 * ((n.map heft).sum + (d.map heft).sum) := by
  have hd : List.Forall₂ (fun a b => b.heft ≤ a.heft ∧
      b.height + 3 * b.heft ≤ k + a.rise + 3 * a.heft) d d' := hd.imp fun a b h => by
    have hheft := h.heft
    have hone := one_le_heft a
    constructor <;> omega
  have hnBound := highest_add_sum_le hn
  have hdBound := highest_add_sum_le hd
  have hnSum := sum_le_of_forall₂ (hn.imp fun _ _ h => h.1)
  have hdSum := sum_le_of_forall₂ (hd.imp fun _ _ h => h.1)
  constructor <;> omega

omit [Scalar α] in
/-- Confined expressions are confined as factors. -/
theorem confined_asFactor {es es' : List (Expr α)}
    (h : List.Forall₂ (fun a b => Confined b a.weight a.height) es es') :
    List.Forall₂ (fun a b => Confined b a.heft (0 + a.rise)) es es' :=
  h.imp fun a b h => h.mono a.weight_le_heft (by rw [Nat.zero_add]; exact a.height_le_rise)

/-- Powers of factors to a literal are confined as factors, up to one level more. -/
theorem confined_raised {es es' : List (Expr α)} {v : α}
    (h : List.Forall₂ (fun a b => Confined b (a.heft + (real v).weight)
      (max a.height (real v).height + 1)) es es') :
    List.Forall₂ (fun a b => Confined b a.heft (1 + a.rise)) es es' :=
  h.imp fun a b h => h.mono (le_refl _) (by
    have := a.height_le_rise
    change max a.height 0 + 1 ≤ _
    omega)

namespace Fraction

/-- The height of a product in the making. -/
def height (f : Fraction α) : ℕ := max (highest rise f.numerator) (highest rise f.denominator)

/-- Another coefficient does not make it higher. -/
theorem height_scale (side : Side) (c : Coefficient α) (f : Fraction α) :
    (f.scale side c).height = f.height := by cases side <;> rfl

omit [Scalar α] in
/-- Another factor makes it as high as the factor. -/
theorem height_place (side : Side) (e : Expr α) (f : Fraction α) :
    (f.place side e).height = max f.height e.rise := by
  have hsingle : highest rise [e] = e.rise := max_eq_left (Nat.zero_le _)
  cases side with
  | above =>
    simp only [place, height, highest_append, hsingle]
    omega
  | below =>
    simp only [place, height, highest_append, hsingle]
    omega

mutual

/-- Multiplying by an expression, or dividing by it, makes a product as high as the expression. -/
theorem height_absorb (side : Side) (f : Fraction α) (e : Expr α) :
    (absorb side f e).value.height ≤ max f.height e.height := by
  have placed (h : e.isProduct = false) : (f.place side e).height ≤ max f.height e.height := by
    rw [height_place, rise_of_not_product h]
  cases e with
  | number v =>
    cases v with
    | real v =>
      rw [absorb]
      split
      · exact le_max_left _ _
      · change (f.scale side _).height ≤ _
        rw [height_scale]
        exact le_max_left _ _
    | constant c => exact placed rfl
  | product c n d =>
    rw [absorb]
    split
    · exact le_max_left _ _
    · have hn := height_absorbAll side (f.scale side c) n
      have hd := height_absorbAll side.flip (absorbAll side (f.scale side c) n).value d
      have hnRise := highest_height_le_rise n
      have hdRise := highest_height_le_rise d
      rw [height_scale] at hn
      rw [height_product]
      change (absorbAll side.flip (absorbAll side (f.scale side c) n).value d).value.height ≤ _
      omega
  | _ => exact placed rfl

/-- Multiplying by expressions, or dividing by them, makes a product as high as the highest of them. -/
theorem height_absorbAll (side : Side) (f : Fraction α) (es : List (Expr α)) :
    (absorbAll side f es).value.height ≤ max f.height (highest Expr.height es) := by
  cases es with
  | nil => exact le_max_left _ _
  | cons e es =>
    have he := height_absorb side f e
    have hes := height_absorbAll side (absorb side f e).value es
    rw [highest_cons]
    change (absorbAll side (absorb side f e).value es).value.height ≤ _
    omega

end

/-- A product of factors starts no higher than the highest of them. -/
theorem height_absorbed (c : Coefficient α) (n d : List (Expr α)) :
    (absorbAll .below (absorbAll .above ({ coefficient := c } : Fraction α) n).value d).value.height ≤
      max (highest Expr.height n) (highest Expr.height d) := by
  have habove := height_absorbAll .above ({ coefficient := c } : Fraction α) n
  have hbelow := height_absorbAll .below
    (absorbAll .above ({ coefficient := c } : Fraction α) n).value d
  have hempty : ({ coefficient := c } : Fraction α).height = 0 := rfl
  omega

/-- A common base, its exponents and what is left beside its powers are no higher than the product. -/
theorem height_without_le {f : Fraction α} {common : Common α}
    (h : common? f.denominator f.numerator = some common) :
    (f.without common).height ≤ f.height ∧ common.base.height ≤ f.height ∧
      common.upper.height ≤ f.height ∧ common.lower.height ≤ f.height := by
  obtain ⟨before, e, after, hn, hnumerator, hparts, -, htake⟩ := common?_some h
  obtain ⟨before', e', after', hd, hdenominator, hbase, hlower⟩ := takeBase?_some htake
  have hupper := height_powerParts_le e
  have hbelow := height_powerParts_le e'
  rw [hparts] at hupper
  rw [hlower] at hbelow
  have habove : ∀ x ∈ f.numerator, x.rise ≤ f.height := fun x hx =>
    (le_highest hx).trans (le_max_left _ _)
  have hunder : ∀ x ∈ f.denominator, x.rise ≤ f.height := fun x hx =>
    (le_highest hx).trans (le_max_right _ _)
  rw [hn, List.forall_mem_append, List.forall_mem_cons] at habove
  rw [hd, List.forall_mem_append, List.forall_mem_cons] at hunder
  have he := e.height_le_rise.trans habove.2.1
  have he' := e'.height_le_rise.trans hunder.2.1
  refine ⟨max_le (highest_le_iff.mpr ?_) (highest_le_iff.mpr ?_), hupper.1.trans he, hupper.2.trans he,
    hbelow.2.trans he'⟩
  · rw [without, hnumerator, List.forall_mem_append]
    exact ⟨habove.1, habove.2.2⟩
  · rw [without, hdenominator, List.forall_mem_append]
    exact ⟨hunder.1, hunder.2.2⟩

/-- The zero that takes the place of other factors below the line is not high. -/
theorem highest_rise_divisors_le (f : Fraction α) :
    highest rise f.divisors ≤ highest rise f.denominator := by
  rw [divisors]
  split
  · exact highest_le_iff.mpr (by simp [Expr.zero, Expr.real, rise, Expr.height, isProduct])
  · exact le_refl _

end Fraction

/-- A sum that is collapsed where it can be is by one higher than its addends at most. -/
theorem height_collapseSum_le (terms : List (Expr α)) :
    (collapseSum terms).height ≤ highest Expr.height terms + 1 := by
  match terms with
  | [] => exact Nat.zero_le _
  | [e] => exact (le_highest List.mem_cons_self).trans (Nat.le_succ _)
  | _ :: _ :: _ => exact (height_sum _).le

/-- The rule for sums results in something higher by one than the addends at most. -/
theorem height_sumRule_le (addends : List (Expr α)) :
    (sumRule addends).value.height ≤ highest Expr.height addends + 1 := by
  rw [sumRule_value]
  refine (height_collapseSum_le _).trans (Nat.succ_le_succ (highest_le_iff.mpr fun a ha => ?_))
  obtain hkept | ⟨v, rfl, -⟩ := mem_sumTerms ((sort_perm _).mem_iff.mp ha)
  · obtain ⟨e, he, ha⟩ := List.mem_flatMap.mp (mem_keptAddends.mp hkept).1
    exact (height_le_of_mem_addends ha).trans (le_highest he)
  · exact Nat.zero_le _

/-- The exponent that is left of a common base is by one higher than those on both sides at most. -/
theorem height_difference_le (upper lower : Expr α) :
    (sumRule [upper, lower.neg]).value.height ≤ max upper.height lower.height + 1 := by
  have hsum := height_sumRule_le [upper, lower.neg]
  simpa [highest, height_neg] using hsum

/-- Distributing a coefficient does not make addends higher. -/
theorem highest_distribute_le (c : Coefficient α) (addends : List (Expr α)) :
    highest Expr.height (Fraction.distribute c addends) ≤ highest Expr.height addends := by
  rw [highest_le_iff, Fraction.distribute, List.forall_mem_map]
  exact fun e he => (height_rescaled_le _ e).trans (le_highest he)

/-- Assembling factors does not make them higher. -/
theorem height_assemble_le (c : Coefficient α) (n d : List (Expr α)) :
    (Fraction.assemble c n d).value.height ≤ max (highest rise n) (highest rise d) := by
  have single (e : Expr α) : e.rise ≤ max (highest rise [e]) (highest rise ([] : List (Expr α))) :=
    (le_highest List.mem_cons_self).trans (le_max_left _ _)
  have outcome := Fraction.assembly c n d
  generalize (Fraction.assemble c n d).value = e at outcome
  cases outcome with
  | @sum addends _ => exact (height_le_rise _).trans (single _)
  | @distributed addends =>
    refine le_trans ?_ ((height_le_rise (.sum addends)).trans (single _))
    rw [height_sum]
    exact (height_sumRule_le _).trans (Nat.succ_le_succ (highest_distribute_le c addends))
  | number => exact Nat.zero_le _
  | factor _ => exact (height_le_rise _).trans (single _)
  | product _ => exact (height_product c n d).le

/-- Finishing a product in the making does not make it higher. -/
theorem height_finish_le (f : Fraction α) : f.finish.value.height ≤ f.height := by
  cases hc : f.coefficient.isZero with
  | true =>
    rw [Fraction.finish, if_pos hc]
    exact Nat.zero_le _
  | false =>
    rw [Fraction.finish_eq hc]
    refine (height_assemble_le _ _ _).trans ?_
    rw [highest_perm (sort_perm f.numerator), highest_perm (sort_perm f.divisors)]
    exact max_le_max_left _ f.highest_rise_divisors_le

/-- A power that follows from its parts is no higher than the power. -/
theorem height_plainPower_le {base exponent : Expr α} {found : Traced (Expr α)}
    (h : plainPower? base exponent = some found) :
    Confined found.value (base.heft + exponent.weight) (max base.height exponent.height + 1) := by
  have outcome := powerOutcome h
  generalize found.value = e at outcome
  have hbase := base.weight_le_heft
  cases outcome with
  | exponentZero _ => exact ⟨Nat.zero_le _, Nat.zero_le _⟩
  | exponentOne _ => constructor <;> omega
  | baseOne _ => exact ⟨Nat.zero_le _, Nat.zero_le _⟩
  | literal _ => exact ⟨Nat.zero_le _, Nat.zero_le _⟩
  | logarithm _ =>
    have := e.weight_le_heft
    rw [weight_log, Expr.height]
    constructor <;> omega

/-- A logarithm that follows from its definition is no higher than the logarithm. -/
theorem height_logRule_le (base body : Expr α) :
    Confined (logRule base body).value (base.heft + body.heft) (max base.height body.height + 1) := by
  have outcome := logOutcome base body
  generalize (logRule base body).value = e at outcome
  cases outcome with
  | self _ => exact ⟨Nat.zero_le _, Nat.zero_le _⟩
  | bodyOne _ => exact ⟨Nat.zero_le _, Nat.zero_le _⟩
  | @power b _ _ =>
    have := weight_le_heft (.power b e)
    rw [weight_power] at this
    rw [Expr.height]
    constructor <;> omega
  | literal _ _ _ => exact ⟨Nat.zero_le _, Nat.zero_le _⟩
  | stays _ => exact ⟨(weight_log _ _).le, by rw [weight_log, Expr.height]⟩

/-- A function at an angle where it is known is no higher than the function. -/
theorem height_trigRule_le (f : Trig) (body : Expr α) :
    Confined (trigRule f body).value body.heft (body.height + 1) := by
  have outcome := trigOutcome f body
  generalize (trigRule f body).value = e at outcome
  cases outcome with
  | zero _ => cases f <;> exact ⟨Nat.zero_le _, Nat.zero_le _⟩
  | pi _ => cases f <;> exact ⟨Nat.zero_le _, Nat.zero_le _⟩
  | stays => exact ⟨(weight_trig _ _).le, by rw [weight_trig, Expr.height]⟩

/-- Cancelling makes a product in the making higher only if it is lighter. -/
def Lowered (f g : Fraction α) : Prop :=
  Lightened f g ∧ g.height + 3 * g.load ≤ f.height + 3 * f.load

/-- Putting a power of a common base back on one side makes a product in the making higher only by what
it is lighter. -/
theorem height_restored_le {f : Fraction α} {common : Fraction.Common α}
    (h : Fraction.common? f.denominator f.numerator = some common) (side : Side)
    {exponent factor : Expr α}
    (hweight : exponent.weight ≤ common.upper.weight + common.lower.weight)
    (hheight : exponent.height ≤ max common.upper.height common.lower.height + 1)
    (hfactor : Confined factor (common.base.heft + exponent.weight)
      (max common.base.height exponent.height + 1)) :
    (Fraction.absorb side (f.without common) factor).value.height +
      3 * (Fraction.absorb side (f.without common) factor).value.load ≤ f.height + 3 * f.load := by
  have hload := Fraction.load_absorb side (f.without common) factor
  have hburden := Fraction.burden_le_heft side factor
  have habsorb := Fraction.height_absorb side (f.without common) factor
  have hwithout := Fraction.load_without h
  obtain ⟨hrest, hbase, hupper, hlower⟩ := Fraction.height_without_le h
  obtain ⟨hheft, hfits⟩ := hfactor.heft
  have hone := one_le_heft common.base
  omega

variable [Scalar.Lawful α]

/-- The rules make expressions higher only where they take weight away. -/
theorem height_closed : Closed (α := α)
    (fun base exponent e =>
      Confined e (base.heft + exponent.weight) (max base.height exponent.height + 1))
    Lowered
    (fun _ n d e => Confined e ((n.map weight).sum + (d.map heft).sum)
      (max (highest Expr.height n) (highest Expr.height d)))
    (fun e e' => Confined e' e.weight e.height) where
  plain := height_plainPower_le
  relocate {base exponent positive moved e} h hneg hpositive hmoved he := by
    have hmovedHeft := hmoved.heft
    have hone := one_le_heft base
    obtain ⟨hweight, hheight⟩ := hpositive
    obtain ⟨heWeight, heHeight⟩ := he
    simp only [List.map_nil, List.sum_nil, List.map_singleton, List.sum_singleton, highest_cons]
      at heWeight heHeight
    rw [weight_neg, height_neg] at hheight
    rw [weight_neg] at hweight
    have hflat : highest Expr.height ([] : List (Expr α)) = 0 := rfl
    constructor <;> omega
  nest {inner inside exponent folded e k} h hneg hwhole hfolded he := by
    have hpower := weight_le_heft (.power inner inside)
    obtain ⟨hweight, hheight⟩ := he
    obtain ⟨hfoldedWeight, hfoldedHeight⟩ := hfolded
    have hflat : highest Expr.height ([] : List (Expr α)) = 0 := rfl
    simp only [List.map_cons, List.map_nil, List.sum_cons, List.sum_nil, highest_cons]
      at hfoldedWeight hfoldedHeight
    rw [weight_power] at hpower
    rw [Expr.height]
    constructor <;> omega
  spread {c n d n' d' exponent e k} h hneg hwhole hfinite hn hd he := by
    refine ⟨weight_closed.spread h hneg hwhole hfinite (hn.imp fun _ _ h => h.1)
      (hd.imp fun _ _ h => h.1) he.1, ?_⟩
    obtain ⟨hweight, hheight⟩ := he
    have hfactors := confined_factors (confined_raised hn) (confined_raised hd)
    have hle := weight_le_heft (.product c n d)
    rw [weight_product] at hle
    rw [height_product]
    omega
  remain {base exponent} _ _ _ := ⟨(weight_power base exponent).le, by rw [weight_power, Expr.height]⟩
  done h := ⟨.inl ⟨rfl, h⟩, le_refl _⟩
  cancelAbove h hu hl hpos hfactor hg :=
    ⟨weight_closed.cancelAbove h hu hl hpos hfactor.1 hg.1,
      hg.2.trans (height_restored_le h .above (Nat.zero_le _) (Nat.zero_le _) hfactor)⟩
  cancelBelow h hu hl hneg hfactor hg :=
    ⟨weight_closed.cancelBelow h hu hl hneg hfactor.1 hg.1,
      hg.2.trans (height_restored_le h .below (Nat.zero_le _) (Nat.zero_le _) hfactor)⟩
  cancelBoth {f g common u l} h hu hl hpos hneg hg := by
    refine ⟨weight_closed.cancelBoth h hu hl hpos hneg hg.1, hg.2.trans ?_⟩
    have hwithout := Fraction.load_without h
    have hheight := (Fraction.height_without_le h).1
    omega
  cancelSymbolic {f g common factor} h hsymbolic hfactor hg :=
    ⟨weight_closed.cancelSymbolic h hsymbolic hfactor.1 hg.1,
      hg.2.trans (height_restored_le h .above (weight_difference_le _ _)
        (height_difference_le _ _) hfactor)⟩
  multiply {c n d f} hf := by
    refine ⟨weight_closed.multiply hf.1, ?_⟩
    have hweight := weight_finish_le f
    have hheight := height_finish_le f
    have hload := Fraction.load_absorbed c n d
    have habsorbed := Fraction.height_absorbed c n d
    have := hf.2
    omega
  sum {as as'} h := by
    refine ⟨weight_closed.sum (h.imp fun _ _ h => h.1), ?_⟩
    have hweight := weight_sumRule_le as'
    have hheight := height_sumRule_le as'
    have hall : List.Forall₂ (fun a a' => a'.weight ≤ a.weight ∧
        a'.height + 3 * a'.weight ≤ 0 + a.height + 3 * a.weight) as as' :=
      h.imp fun a a' h => ⟨h.1, by rw [Nat.zero_add]; exact h.2⟩
    have haddends := highest_add_sum_le hall
    rw [weight_sum, height_sum]
    omega
  fraction {c n d n' d' e} hn hd he := by
    refine ⟨weight_closed.fraction (hn.imp fun _ _ h => h.1) (hd.imp fun _ _ h => h.1) he.1, ?_⟩
    obtain ⟨hweight, hheight⟩ := he
    have hfactors := confined_factors (confined_asFactor hn) (confined_asFactor hd)
    rw [weight_product, height_product]
    omega
  raise {base exponent base' exponent' e} hbase hexponent he := by
    refine ⟨weight_closed.raise hbase.1 hexponent.1 he.1, ?_⟩
    obtain ⟨hweight, hheight⟩ := he
    have hbaseHeft := hbase.heft
    have hexponentHeight := hexponent.2
    have hexponentWeight := hexponent.1
    rw [← Expr.heft] at hbaseHeft
    rw [weight_power, Expr.height]
    omega
  log {base body base' body'} hbase hbody := by
    refine ⟨weight_closed.log hbase.1 hbody.1, ?_⟩
    obtain ⟨hweight, hheight⟩ := height_logRule_le base' body'
    have hbaseHeft := hbase.heft
    have hbodyHeft := hbody.heft
    rw [← Expr.heft] at hbaseHeft hbodyHeft
    rw [weight_log, Expr.height]
    omega
  trig {f body body'} hbody := by
    refine ⟨weight_closed.trig hbody.1, ?_⟩
    obtain ⟨hweight, hheight⟩ := height_trigRule_le f body'
    have hbodyHeft := hbody.heft
    rw [← Expr.heft] at hbodyHeft
    rw [weight_trig, Expr.height]
    omega
  var _ := ⟨le_refl _, le_refl _⟩
  number _ := ⟨le_refl _, le_refl _⟩

end SymbolicAlgebra.Reduction
