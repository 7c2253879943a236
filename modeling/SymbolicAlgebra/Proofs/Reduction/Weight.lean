import SymbolicAlgebra.Proofs.Expr.Weight
import SymbolicAlgebra.Proofs.Reduction.Fraction
import SymbolicAlgebra.Proofs.Reduction.Outcomes

/-!
# Rules and weights

No rule makes an expression heavier, and cancelling makes a product in the making lighter. So a pass
that leaves the weight of an expression as it is has not cancelled anything.
-/

namespace SymbolicAlgebra.Reduction

open SymbolicAlgebra.Expr

variable {α : Type} [Scalar α]

namespace Fraction

/-- The weight of a product in the making; a zero that was put below its line counts as a divisor. -/
def load (f : Fraction α) : ℕ :=
  (f.numerator.map heft).sum + (f.denominator.map heft).sum + f.zeroDivisor.toNat

/-- Another coefficient has no weight. -/
theorem load_scale (side : Side) (c : Coefficient α) (f : Fraction α) :
    (f.scale side c).load = f.load := by cases side <;> rfl

omit [Scalar α] in
/-- A factor adds its weight. -/
theorem load_place (side : Side) (e : Expr α) (f : Fraction α) :
    (f.place side e).load = f.load + e.heft := by
  cases side with
  | above =>
    simp only [place, load, List.map_append, List.sum_append, List.map_singleton, List.sum_singleton]
    omega
  | below =>
    simp only [place, load, List.map_append, List.sum_append, List.map_singleton, List.sum_singleton]
    omega

omit [Scalar α] in
/-- A zero below the line adds at most the weight of a divisor. -/
theorem load_zeroDivisor (f : Fraction α) : { f with zeroDivisor := true }.load ≤ f.load + 1 := by
  simp only [load, Bool.toNat_true]
  omega

/-- The weight that an expression adds on one side: a literal above the line is only a coefficient. -/
def burden (side : Side) (e : Expr α) : ℕ :=
  match side with
  | .above => e.weight
  | .below => e.heft

omit [Scalar α] in
/-- An expression adds no less than it weighs. -/
theorem weight_le_burden (side : Side) (e : Expr α) : e.weight ≤ burden side e := by
  cases side with
  | above => exact le_refl _
  | below => exact e.weight_le_heft

omit [Scalar α] in
/-- An expression adds at most what it weighs where literals are counted. -/
theorem burden_le_heft (side : Side) (e : Expr α) : burden side e ≤ e.heft := by
  cases side with
  | above => exact e.weight_le_heft
  | below => exact le_refl _

omit [Scalar α] in
/-- What the members of a list add is at most what they weigh where literals are counted. -/
theorem sum_burden_le (side : Side) (es : List (Expr α)) :
    (es.map (burden side)).sum ≤ (es.map heft).sum :=
  sum_le_of_forall₂ (List.forall₂_same.mpr fun e _ => burden_le_heft side e)

mutual

/-- Multiplying by an expression, or dividing by it, adds at most its weight on that side. -/
theorem load_absorb (side : Side) (f : Fraction α) (e : Expr α) :
    (absorb side f e).value.load ≤ f.load + burden side e := by
  have placed (h : ∀ v, e ≠ number (.real v)) : (f.place side e).load ≤ f.load + burden side e := by
    have := weight_le_burden side e
    rw [load_place, heft_of_not_literal h]
    omega
  cases e with
  | number v =>
    cases v with
    | real v =>
      rw [absorb]
      split
      · rename_i hzero
        rw [Bool.and_eq_true, decide_eq_true_eq] at hzero
        obtain ⟨rfl, -⟩ := hzero
        exact load_zeroDivisor f
      · change (f.scale side _).load ≤ _
        rw [load_scale]
        exact Nat.le_add_right _ _
    | constant c => exact placed (by simp)
  | product c n d =>
    have hweight := weight_le_burden side (Expr.product c n d)
    rw [weight_product] at hweight
    rw [absorb]
    split
    · have hzero := load_zeroDivisor f
      change { f with zeroDivisor := true }.load ≤ _
      omega
    · have hn := load_absorbAll side (f.scale side c) n
      have hd := load_absorbAll side.flip (absorbAll side (f.scale side c) n).value d
      have hnBurden := sum_burden_le side n
      have hdBurden := sum_burden_le side.flip d
      rw [load_scale] at hn
      change (absorbAll side.flip (absorbAll side (f.scale side c) n).value d).value.load ≤ _
      omega
  | _ => exact placed (by simp)

/-- Multiplying by expressions, or dividing by them, adds at most their weight on that side. -/
theorem load_absorbAll (side : Side) (f : Fraction α) (es : List (Expr α)) :
    (absorbAll side f es).value.load ≤ f.load + (es.map (burden side)).sum := by
  cases es with
  | nil => exact le_refl _
  | cons e es =>
    have he := load_absorb side f e
    have hes := load_absorbAll side (absorb side f e).value es
    rw [List.map_cons, List.sum_cons]
    change (absorbAll side (absorb side f e).value es).value.load ≤ _
    omega

end

/-- A product of factors starts with their weights. -/
theorem load_absorbed (c : Coefficient α) (n d : List (Expr α)) :
    (absorbAll .below (absorbAll .above ({ coefficient := c } : Fraction α) n).value d).value.load ≤
      (n.map weight).sum + (d.map heft).sum := by
  have habove := load_absorbAll .above ({ coefficient := c } : Fraction α) n
  have hbelow := load_absorbAll .below
    (absorbAll .above ({ coefficient := c } : Fraction α) n).value d
  have hempty : ({ coefficient := c } : Fraction α).load = 0 := rfl
  calc
    _ ≤ _ + (d.map heft).sum := hbelow
    _ ≤ _ + (n.map weight).sum + (d.map heft).sum := Nat.add_le_add_right habove _
    _ = _ := by rw [hempty, Nat.zero_add]

/-- Taking the powers of a common base away takes their weight away. -/
theorem load_without {f : Fraction α} {common : Common α}
    (h : common? f.denominator f.numerator = some common) :
    (f.without common).load + common.base.heft + (common.base.heft + common.upper.weight +
      common.lower.weight) = f.load := by
  obtain ⟨before, e, after, hn, hnumerator, hparts, -, htake⟩ := common?_some h
  obtain ⟨before', e', after', hd, hdenominator, hbase, hlower⟩ := takeBase?_some htake
  have hupper := heft_powerParts e
  have hbelow := heft_powerParts e'
  rw [hparts] at hupper
  rw [heft_eq_of_beq hbase, hlower] at hbelow
  simp only [load, without, hnumerator, hdenominator, hn, hd, List.map_append, List.sum_append,
    List.map_cons, List.sum_cons] at *
  omega

/-- The factors of a product in the making, with the zero that takes the place of others, weigh no
more than it. -/
theorem sum_heft_divisors_le (f : Fraction α) :
    (f.numerator.map heft).sum + (f.divisors.map heft).sum ≤ f.load := by
  rw [divisors, load]
  cases f.zeroDivisor with
  | true =>
    have hzero : [(Expr.zero : Expr α)].map heft = [1] := rfl
    rw [if_pos rfl, hzero, List.sum_singleton, Bool.toNat_true]
    omega
  | false => exact Nat.le_add_right _ _

end Fraction

/-- Adding up the literals of a list and dropping its zeros does not add weight. -/
theorem sum_weight_sumTerms_le (flat : List (Expr α)) :
    ((sumTerms flat).map weight).sum ≤ (flat.map weight).sum := by
  have hkept : (keptAddends flat).Sublist flat :=
    List.filter_sublist.trans List.filter_sublist
  have hle := (hkept.map weight).sum_le_sum (by simp)
  rw [sumTerms]
  split
  · exact hle
  · rw [List.map_append, List.sum_append, List.map_singleton, List.sum_singleton, weight_real]
    exact hle

/-- The rule for sums does not add weight. -/
theorem weight_sumRule_le (addends : List (Expr α)) :
    (sumRule addends).value.weight ≤ (addends.map weight).sum := by
  have hflat (addends : List (Expr α)) :
      ((addends.flatMap Expr.addends).map weight).sum ≤ (addends.map weight).sum := by
    induction addends with
    | nil => exact le_refl _
    | cons e addends ih =>
      rw [List.flatMap_cons, List.map_append, List.sum_append, List.map_cons, List.sum_cons]
      exact add_le_add (sum_weight_addends_le e) ih
  rw [sumRule_value]
  refine le_trans ?_ ((sum_weight_sumTerms_le _).trans (hflat addends))
  have hliterals := countP_sumTerms (addends.flatMap Expr.addends)
  generalize sumTerms (addends.flatMap Expr.addends) = terms at hliterals
  rw [← ((sort_perm terms).map weight).sum_eq]
  rw [← (sort_perm terms).countP_eq] at hliterals
  match sort terms, hliterals with
  | [], _ => exact le_refl _
  | [e], _ => exact (List.sum_singleton).ge
  | a :: b :: rest, hliterals =>
    -- one of the first two is not a literal
    have hpos : a.weight ≠ 0 ∨ b.weight ≠ 0 := by
      rw [← not_and_or]
      rintro ⟨ha, hb⟩
      obtain ⟨u, rfl⟩ := weight_eq_zero.mp ha
      obtain ⟨v, rfl⟩ := weight_eq_zero.mp hb
      simp [real?, Number.real?] at hliterals
    rw [collapseSum.eq_3 _ (by simp) (by simp), weight_sum]
    simp only [List.map_cons, List.sum_cons]
    omega

/-- The exponent that is left of a common base weighs no more than those on both sides. -/
theorem weight_difference_le (upper lower : Expr α) :
    (sumRule [upper, lower.neg]).value.weight ≤ upper.weight + lower.weight := by
  have hsum := weight_sumRule_le [upper, lower.neg]
  simpa [weight_neg] using hsum

/-- A power that follows from its parts weighs no more than they do. -/
theorem weight_plainPower_le {base exponent : Expr α} {found : Traced (Expr α)}
    (h : plainPower? base exponent = some found) :
    found.value.weight ≤ base.heft + exponent.weight := by
  have outcome := powerOutcome h
  generalize found.value = e at outcome
  cases outcome with
  | exponentZero _ => exact Nat.zero_le _
  | exponentOne _ => exact base.weight_le_heft.trans (Nat.le_add_right _ _)
  | baseOne _ => exact Nat.zero_le _
  | literal _ => exact Nat.zero_le _
  | logarithm _ =>
    have := e.weight_le_heft
    rw [weight_log]
    omega

/-- The rule for logarithms does not add weight. -/
theorem weight_logRule_le (base body : Expr α) :
    (logRule base body).value.weight ≤ base.heft + body.heft := by
  have outcome := logOutcome base body
  generalize (logRule base body).value = e at outcome
  cases outcome with
  | self _ => exact Nat.zero_le _
  | bodyOne _ => exact Nat.zero_le _
  | @power b _ _ =>
    have := weight_le_heft (.power b e)
    rw [weight_power] at this
    omega
  | literal _ _ _ => exact Nat.zero_le _
  | stays _ => exact (weight_log _ _).le

/-- The rule for trigonometric functions does not add weight. -/
theorem weight_trigRule_le (f : Trig) (body : Expr α) :
    (trigRule f body).value.weight ≤ body.heft := by
  have outcome := trigOutcome f body
  generalize (trigRule f body).value = e at outcome
  cases outcome with
  | zero _ => cases f <;> exact Nat.zero_le _
  | pi _ => cases f <;> exact Nat.zero_le _
  | stays => exact (weight_trig f body).le

/-- What cancelling makes of a product in the making: itself, if there was nothing to cancel, or a
lighter one. -/
def Lightened (f g : Fraction α) : Prop :=
  (g = f ∧ Fraction.common? f.denominator f.numerator = none) ∨ g.load < f.load

/-- A product in the making is no heavier after cancelling. -/
theorem Lightened.load_le {f g : Fraction α} (h : Lightened f g) : g.load ≤ f.load := by
  obtain ⟨rfl, -⟩ | hlt := h
  · exact le_refl _
  · exact hlt.le

/-- Putting a power of a common base back on one side leaves a lighter product in the making. -/
theorem load_restored_lt {f : Fraction α} {common : Fraction.Common α}
    (h : Fraction.common? f.denominator f.numerator = some common) (side : Side) {factor : Expr α}
    (hfactor : factor.weight ≤ common.base.heft + common.upper.weight + common.lower.weight) :
    (Fraction.absorb side (f.without common) factor).value.load < f.load := by
  have hwithout := Fraction.load_without h
  have habsorb := Fraction.load_absorb side (f.without common) factor
  have hburden := Fraction.burden_le_heft side factor
  have hbase := one_le_heft common.base
  rw [heft] at hburden
  omega

variable [Scalar.Lawful α]

/-- Distributing a coefficient does not add weight. -/
theorem sum_weight_distribute_le (c : Coefficient α) (addends : List (Expr α)) :
    ((Fraction.distribute c addends).map weight).sum ≤ (addends.map weight).sum := by
  refine sum_le_of_forall₂ ?_
  rw [Fraction.distribute, List.forall₂_map_right_iff, List.forall₂_same]
  exact fun e _ => weight_rescaled_le _ e

/-- Assembling factors does not add weight. -/
theorem weight_assemble_le (c : Coefficient α) (n d : List (Expr α)) :
    (Fraction.assemble c n d).value.weight ≤ (n.map heft).sum + (d.map heft).sum := by
  fun_cases Fraction.assemble c n d with
  | case1 addends _ =>
    exact (weight_le_heft (.sum addends)).trans (List.sum_singleton).ge
  | case2 addends _ =>
    calc (sumRule (Fraction.distribute c addends)).value.weight
      _ ≤ ((Fraction.distribute c addends).map weight).sum := weight_sumRule_le _
      _ ≤ (addends.map weight).sum := sum_weight_distribute_le c addends
      _ ≤ (Expr.sum addends).weight := sum_weight_addends_le (.sum addends)
      _ ≤ (Expr.sum addends).heft := weight_le_heft _
      _ = _ := (List.sum_singleton).symm
  | case3 n d _ =>
    rw [Traced.pure_value]
    fun_cases Fraction.collapse c n d with
    | case1 => exact Nat.zero_le _
    | case2 e _ => exact e.weight_le_heft.trans (List.sum_singleton).ge
    | case3 e _ => exact (weight_single c e).le.trans (List.sum_singleton).ge
    | case4 n d hempty _ =>
      -- there is a factor, which counts even if it is a literal
      have hpos : 1 ≤ (n.map heft).sum + (d.map heft).sum := by
        obtain hn | hd := not_and_or.mp fun h : n = [] ∧ d = [] => hempty h.1 h.2
        · exact (one_le_sum_heft hn).trans (Nat.le_add_right _ _)
        · exact (one_le_sum_heft hd).trans (Nat.le_add_left _ _)
      rw [weight_product]
      omega

/-- Finishing a product in the making does not add weight. -/
theorem weight_finish_le (f : Fraction α) : f.finish.value.weight ≤ f.load := by
  cases hc : f.coefficient.isZero with
  | true =>
    rw [Fraction.finish, if_pos hc]
    exact Nat.zero_le _
  | false =>
    rw [Fraction.finish_eq hc]
    refine (weight_assemble_le _ _ _).trans ?_
    rw [((sort_perm f.numerator).map heft).sum_eq, ((sort_perm f.divisors).map heft).sum_eq]
    exact f.sum_heft_divisors_le

/-- No rule adds weight, and cancelling takes some away. -/
theorem weight_closed : Closed (α := α)
    (fun base exponent e => e.weight ≤ base.heft + exponent.weight)
    Lightened
    (fun _ n d e => e.weight ≤ (n.map weight).sum + (d.map heft).sum)
    (fun e e' => e'.weight ≤ e.weight) where
  plain := weight_plainPower_le
  relocate {base exponent positive moved e} _ _ hpositive hmoved he := by
    have hbase := one_le_heft base
    simp only [List.map_nil, List.sum_nil, List.map_singleton, List.sum_singleton, heft] at he
    rw [weight_neg] at hpositive
    omega
  nest {inner inside exponent folded e k} _ _ _ hfolded he := by
    have hinside := weight_le_heft (.power inner inside)
    rw [weight_power] at hinside
    simp only [List.map_cons, List.map_nil, List.sum_cons, List.sum_nil] at hfolded
    omega
  spread {c n d n' d' exponent e k} _ _ _ _ hn hd he := by
    have hfactors := weight_le_heft (.product c n d)
    have hn : (n'.map weight).sum ≤ (n.map heft).sum := sum_le_of_forall₂ hn
    have hd : (d'.map heft).sum ≤ (d.map heft).sum :=
      sum_le_of_forall₂ (hd.imp fun a b h => max_le (one_le_heft a) h)
    rw [weight_product] at hfactors
    omega
  remain {base exponent} _ _ _ := (weight_power base exponent).le
  done h := .inl ⟨rfl, h⟩
  cancelAbove h _ _ _ hfactor hg :=
    .inr (hg.load_le.trans_lt (load_restored_lt h .above (by rw [weight_real] at hfactor; omega)))
  cancelBelow h _ _ _ hfactor hg :=
    .inr (hg.load_le.trans_lt (load_restored_lt h .below (by rw [weight_real] at hfactor; omega)))
  cancelBoth {f g common u l} h _ _ _ _ hg := by
    have hwithout := Fraction.load_without h
    have hbase := one_le_heft common.base
    have hload := hg.load_le
    exact .inr (by omega)
  cancelSymbolic {f g common factor} h _ hfactor hg := by
    have hexponent := weight_difference_le common.upper common.lower
    exact .inr (hg.load_le.trans_lt (load_restored_lt h .above (by omega)))
  multiply hf := (weight_finish_le _).trans (hf.load_le.trans (Fraction.load_absorbed _ _ _))
  sum h := by
    rw [weight_sum]
    exact (weight_sumRule_le _).trans ((sum_le_of_forall₂ h).trans (le_max_right _ _))
  fraction {c n d n' d' e} hn hd he := by
    have hn : (n'.map weight).sum ≤ (n.map heft).sum :=
      sum_le_of_forall₂ (hn.imp fun a _ h => h.trans a.weight_le_heft)
    have hd : (d'.map heft).sum ≤ (d.map heft).sum :=
      sum_le_of_forall₂ (hd.imp fun a b h => max_le_max_left 1 h)
    rw [weight_product]
    omega
  raise {base exponent base' exponent' e} hbase hexponent he := by
    have : base'.heft ≤ base.heft := max_le_max_left 1 hbase
    rw [weight_power]
    omega
  log {base body base' body'} hbase hbody := by
    have hrule := weight_logRule_le base' body'
    have : base'.heft ≤ base.heft := max_le_max_left 1 hbase
    have : body'.heft ≤ body.heft := max_le_max_left 1 hbody
    rw [weight_log]
    omega
  trig {f body body'} hbody := by
    rw [weight_trig]
    exact (weight_trigRule_le f body').trans (max_le_max_left 1 hbody)
  var _ := le_refl _
  number _ := le_refl _

end SymbolicAlgebra.Reduction
