import SymbolicAlgebra.Proofs.Reduction.Settling
import SymbolicAlgebra.Proofs.Reduction.Stable
import SymbolicAlgebra.Proofs.Reduction.Weight

/-!
# Fixed points of simplification

Simplification returns a stable expression as it is. Whatever it makes of an expression without
making it lighter is stable; a result that is not stable comes from cancelling, which takes weight
away.
-/

namespace SymbolicAlgebra

namespace Reduction

open SymbolicAlgebra.Expr

/-- Members of two lists that are related in one way and in another are related in both. -/
theorem forall₂_and {β γ : Type} {r s : β → γ → Prop} {bs : List β} {cs : List γ}
    (hr : List.Forall₂ r bs cs) (hs : List.Forall₂ s bs cs) :
    List.Forall₂ (fun b c => r b c ∧ s b c) bs cs := by
  induction hr with
  | nil => exact .nil
  | cons h _ ih =>
    obtain _ | ⟨h', hs⟩ := hs
    exact .cons ⟨h, h'⟩ (ih hs)

variable {α : Type} [Scalar α]

section Lawful

variable [Scalar.Lawful α]

/-- The rule for products assembles factors of which a normal product could be made. -/
theorem productRule_returns {c : Coefficient α} {n d : List (Expr α)} (h : NormalProduct c n d)
    (fuel : Nat) : (productRule (fuel + 2) c n d).Returns (Fraction.assemble c n d).value := by
  have habove := absorbAll_factors .above ({ coefficient := c } : Fraction α) h.factors
  have hcommon : Fraction.common? d n = none := common?_eq_none h.apart
  have hfinish {f : Fraction α} (hc : f.coefficient = c) (hn : f.numerator = n)
      (hd : f.divisors = d) : f.finish.value = (Fraction.assemble c n d).value := by
    rw [Fraction.finish_eq (hc ▸ h.coefficient), hc, hn, hd, sort_of_sorted h.sortedAbove,
      sort_of_sorted h.sortedBelow]
  have hreturns {f : Fraction α} (hf : Fraction.common? f.denominator f.numerator = none)
      (hvalue : f.finish.value = (Fraction.assemble c n d).value)
      (habsorbed : (Fraction.absorbAll .below (Fraction.absorbAll .above
        ({ coefficient := c } : Fraction α) n).value d).value = f) :
      (productRule (fuel + 2) c n d).Returns (Fraction.assemble c n d).value := by
    simp only [productRule, Reducing.returns_bind, Reducing.returns_liftM]
    refine ⟨_, rfl, _, rfl, f, ?_, hvalue⟩
    rw [habsorbed, cancel, hf, Reducing.returns_pure]
  obtain hd | rfl := h.divisors
  · refine hreturns (f := ⟨c, n, d, false⟩) hcommon (hfinish rfl rfl rfl) ?_
    rw [habove, absorbAll_factors .below _ hd]
    rfl
  · -- the zero below the line is remembered and put back
    have hzero : Scalar.eq (Scalar.unsignZero (Scalar.zero : α)) Scalar.zero = true :=
      Scalar.Lawful.eq_zero_of_order _ Std.ReflCmp.compare_self
    refine hreturns (f := ⟨c, n, [], true⟩) (common?_eq_none (by simp)) (hfinish rfl rfl rfl) ?_
    rw [habove, Fraction.absorbAll]
    change (Fraction.absorb .below _ (.number (.real (Scalar.unsignZero Scalar.zero)))).value = _
    rw [Fraction.absorb, hzero]
    rfl

/-- The rule for products gives back a stable product. -/
theorem StableProduct.returns {c : Coefficient α} {n d : List (Expr α)} (h : StableProduct c n d)
    (fuel : Nat) : (productRule (fuel + 2) c n d).Returns (.product c n d) := by
  have hreturns := productRule_returns h.toNormalProduct fuel
  rwa [h.assemble] at hreturns

omit [Scalar.Lawful α] in
/-- The rule for powers gives back a power that no rule applies to. -/
theorem powerRule_returns {base exponent : Expr α} (h : StableNode (.power base exponent))
    (fuel : Nat) : (powerRule (fuel + 1) base exponent).Returns (.power base exponent) := by
  obtain ⟨hplain, hneg, hunraised⟩ := h
  unfold powerRule
  simp only [hplain, hneg, Bool.false_eq_true, if_false]
  split
  · rename_i k inner inside hwhole
    exact (hunraised k hwhole).elim
  · rename_i k c n d hwhole
    have hinfinite : Scalar.isFinite (c.zpow k).value = false := hunraised k hwhole
    simp [hinfinite]
  · simp

/-- Simplification gives back a stable expression. -/
theorem Stable.simplify_returns {e : Expr α} (h : Stable e) {fuel : Nat} (hfuel : e.depth + 2 ≤ fuel) :
    (simplify fuel e).Returns e := by
  obtain ⟨fuel, rfl⟩ := Nat.exists_eq_add_of_le' (Nat.le_of_add_left_le hfuel : 2 ≤ fuel)
  have below : ∀ child ∈ e.children, (simplify (fuel + 1) child).Returns child := by
    intro child hchild
    have hdepth := depth_lt_of_mem_children hchild
    exact Stable.simplify_returns (h.child hchild) (by omega)
  have all {es : List (Expr α)} (hes : ∀ a ∈ es, a ∈ e.children) :
      List.Forall₂ (fun a b => (simplify (fuel + 1) a).Returns b) es es :=
    List.forall₂_same.mpr fun a ha => below a (hes a ha)
  cases e with
  | sum as =>
    simp only [simplify, Reducing.returns_bind, Reducing.returns_mapList, Reducing.returns_liftM]
    exact ⟨as, all fun a ha => ha, (stable_sum.mp h).1⟩
  | product c n d =>
    simp only [simplify, Reducing.returns_bind, Reducing.returns_mapList]
    have hfuel' : 1 ≤ fuel := by
      rw [depth] at hfuel
      omega
    obtain ⟨fuel, rfl⟩ := Nat.exists_eq_add_of_le' hfuel'
    exact ⟨n, all fun a ha => List.mem_append_left d ha, d, all fun a ha => List.mem_append_right n ha,
      (stable_product.mp h).1.returns fuel⟩
  | power base exponent =>
    simp only [simplify, Reducing.returns_bind]
    exact ⟨base, below base (by simp [children]), exponent, below exponent (by simp [children]),
      powerRule_returns (stable_power.mp h).1 fuel⟩
  | log base body =>
    simp only [simplify, Reducing.returns_bind, Reducing.returns_liftM]
    exact ⟨base, below base (by simp [children]), body, below body (by simp [children]),
      (stable_log.mp h).1⟩
  | trig f body =>
    simp only [simplify, Reducing.returns_bind, Reducing.returns_liftM]
    exact ⟨body, below body (by simp [children]), (stable_trig.mp h).1⟩
  | var x => simp [simplify]
  | number v => simp [simplify]
termination_by e.size
decreasing_by exact size_lt_of_mem_children hchild

/-- The bound on nested calls is above the number of nodes. -/
theorem add_two_le_nestingBound (size : Nat) : size + 2 ≤ nestingBound size := by
  rw [nestingBound, Nat.pow_eq]
  nlinarith [Nat.pow_le_pow_left (Nat.le_add_left 2 size) 2]

/-- Simplification gives back a stable expression under the bound for its size. -/
theorem Stable.simplified_returns {e : Expr α} (h : Stable e) : (simplified e).Returns e :=
  h.simplify_returns ((Nat.add_le_add_right e.depth_le_size 2).trans (add_two_le_nestingBound e.size))

/-- A rewriting that does not take weight away results in something stable. -/
def Settles (e e' : Expr α) : Prop := e'.weight ≤ e.weight ∧ (e'.weight = e.weight → Stable e')

omit [Scalar.Lawful α] in
/-- Where the weight of a list does not fall, its members are stable. -/
theorem stable_of_sum_weight {es es' : List (Expr α)} (h : List.Forall₂ Settles es es')
    (hsum : (es.map weight).sum ≤ (es'.map weight).sum) : ∀ e ∈ es', Stable e := by
  have heq := forall₂_eq_of_sum_le (h.imp fun _ _ h => h.1) hsum
  exact forall_of_forall₂ (forall₂_and h heq) fun e _ e' h => h.1.2 h.2

omit [Scalar.Lawful α] in
/-- A literal is stable; so an expression is if it is stable as anything else of its weight. -/
theorem stable_of_heft {e : Expr α} {w : ℕ} (hheft : e.heft = w) (h : e.weight = w → Stable e) :
    Stable e := by
  by_cases hzero : e.weight = 0
  · obtain ⟨v, rfl⟩ := weight_eq_zero.mp hzero
    exact stable_number _
  · rw [heft] at hheft
    exact h (by omega)

omit [Scalar.Lawful α] in
/-- Where the weight of a list does not fall and literals are counted, its members are stable too. -/
theorem stable_of_sum_heft {es es' : List (Expr α)}
    (h : List.Forall₂ (fun e e' => e'.heft ≤ e.heft ∧ (e'.weight = e.heft → Stable e')) es es')
    (hsum : (es.map heft).sum ≤ (es'.map heft).sum) : ∀ e ∈ es', Stable e := by
  have heq := forall₂_eq_of_sum_le (h.imp fun _ _ h => h.1) hsum
  exact forall_of_forall₂ (forall₂_and h heq) fun e _ e' h => stable_of_heft h.2 h.1.2

omit [Scalar.Lawful α] in
/-- A rewriting that does not take weight away where literals are counted results in something stable. -/
theorem Settles.heft {e e' : Expr α} (h : Settles e e') :
    e'.heft ≤ e.heft ∧ (e'.weight = e.heft → Stable e') := by
  refine ⟨max_le_max_left 1 h.1, fun heq => h.2 (le_antisymm h.1 ?_)⟩
  rw [heq]
  exact e.weight_le_heft

end Lawful

variable [Scalar.Unital α]

/-- The rules make stable expressions of stable ones if they do not make them lighter. -/
theorem stable_closed : Closed (α := α)
    (fun base exponent e => e.weight ≤ base.heft + exponent.weight ∧
      (Stable base → Stable exponent → e.weight = base.heft + exponent.weight → Stable e))
    Lightened
    (fun _ n d e => e.weight ≤ (n.map weight).sum + (d.map heft).sum ∧
      ((∀ x ∈ n, Stable x) → (∀ x ∈ d, Stable x) →
        e.weight = (n.map weight).sum + (d.map heft).sum → Stable e))
    Settles where
  plain h :=
    ⟨weight_closed.plain h, fun hbase hexponent _ => plainPower?_stable h hbase hexponent⟩
  relocate {base exponent positive moved e} h hneg hpositive hmoved he := by
    refine ⟨weight_closed.relocate h hneg hpositive.1 hmoved.1 he.1, fun hbase _ heq => ?_⟩
    obtain ⟨hpositive, hstable⟩ := hpositive
    obtain ⟨hmoved, hmovedStable⟩ := hmoved
    obtain ⟨he, heStable⟩ := he
    simp only [List.map_nil, List.sum_nil, List.map_singleton, List.sum_singleton, zero_add]
      at he heStable
    rw [weight_neg] at hpositive hstable
    have hone := one_le_heft base
    have hheft : moved.heft = base.heft + exponent.weight := by
      rw [Expr.heft] at he ⊢
      omega
    have hexponent : positive.weight = exponent.weight := by
      rw [Expr.heft] at hheft
      omega
    refine heStable (by simp) (List.forall_mem_singleton.mpr ?_) (heq.trans hheft.symm)
    rw [hexponent] at hmovedStable
    exact stable_of_heft hheft (hmovedStable hbase (hstable hexponent))
  nest {inner inside exponent folded e k} h hneg hwhole hfolded he := by
    refine ⟨weight_closed.nest h hneg hwhole hfolded.1 he.1, fun hbase hexponent heq => ?_⟩
    obtain ⟨-, hinner, hinside⟩ := stable_power.mp hbase
    have hle := weight_le_heft (.power inner inside)
    obtain ⟨hfolded, hfoldedStable⟩ := hfolded
    simp only [List.map_cons, List.map_nil, List.sum_cons, List.sum_nil, add_zero]
      at hfolded hfoldedStable
    rw [weight_power] at hle
    have hfoldedEq : folded.weight = inside.weight + exponent.weight := by
      have := he.1
      omega
    have hstable : Stable folded := hfoldedStable (by simp [hinside, hexponent]) (by simp) hfoldedEq
    exact he.2 hinner hstable (by omega)
  spread {c n d n' d' exponent e k} h hneg hwhole hfinite hn hd he := by
    refine ⟨weight_closed.spread h hneg hwhole hfinite (hn.imp fun _ _ h => h.1)
      (hd.imp fun _ _ h => h.1) he.1, fun hbase _ heq => ?_⟩
    obtain ⟨shape, hnStable, hdStable⟩ := stable_product.mp hbase
    have raised {es es' : List (Expr α)} (hes : ∀ a ∈ es, Stable a)
        (h : List.Forall₂ (fun a b => b.weight ≤ a.heft + (real (Scalar.ofInt k : α)).weight ∧
          (Stable a → Stable (real (Scalar.ofInt k : α)) →
            b.weight = a.heft + (real (Scalar.ofInt k : α)).weight → Stable b)) es es') :
        List.Forall₂ (fun a b => b.heft ≤ a.heft ∧ (b.weight = a.heft → Stable b)) es es' :=
      ((List.forall₂_and_left _ _).mpr ⟨hes, h⟩).imp fun a b h =>
        ⟨max_le (one_le_heft a) h.2.1, h.2.2 h.1 (stable_number _)⟩
    replace hn := raised hnStable hn
    replace hd := raised hdStable hd
    have hnSum := sum_le_of_forall₂ (hn.imp fun _ _ h => h.1)
    have hdSum := sum_le_of_forall₂ (hd.imp fun _ _ h => h.1)
    have hnLe := sum_weight_le_sum_heft n'
    have hle := weight_le_heft (.product c n d)
    rw [weight_product] at hle
    obtain ⟨he, heStable⟩ := he
    refine heStable (stable_of_sum_heft hn ?_) (stable_of_sum_heft hd ?_) ?_ <;> omega
  remain {base exponent} h hneg hunraised :=
    ⟨(weight_power base exponent).le, fun hbase hexponent _ =>
      stable_power.mpr ⟨⟨h, hneg, hunraised⟩, hbase, hexponent⟩⟩
  done h := .inl ⟨rfl, h⟩
  cancelAbove h hu hl hpos hfactor hg := weight_closed.cancelAbove h hu hl hpos hfactor.1 hg
  cancelBelow h hu hl hneg hfactor hg := weight_closed.cancelBelow h hu hl hneg hfactor.1 hg
  cancelBoth h hu hl hpos hneg hg := weight_closed.cancelBoth h hu hl hpos hneg hg
  cancelSymbolic h hsymbolic hfactor hg := weight_closed.cancelSymbolic h hsymbolic hfactor.1 hg
  multiply {c n d f} hf := by
    refine ⟨weight_closed.multiply hf, fun hn hd heq => ?_⟩
    have has := Fraction.Has.gathered factors_stable c hn hd
    obtain ⟨rfl, hcommon⟩ | hlighter := hf
    · exact finish_stable has hcommon
    · -- what was cancelled would be missing from the result
      have habsorbed := Fraction.load_absorbed c n d
      have hresult := weight_finish_le f
      omega
  sum {as as'} h := by
    refine ⟨weight_closed.sum (h.imp fun _ _ h => h.1), fun heq => ?_⟩
    have hresult := weight_sumRule_le as'
    have hle := sum_le_of_forall₂ (h.imp fun _ _ h => h.1)
    rw [heq, weight_sum] at hresult
    have hstable := stable_of_sum_weight h (by omega)
    exact sumRule_stable fun e he => (hstable e he).addends
  fraction {c n d n' d' e} hn hd he := by
    refine ⟨weight_closed.fraction (hn.imp fun _ _ h => h.1) (hd.imp fun _ _ h => h.1) he.1,
      fun heq => ?_⟩
    replace hn := hn.imp fun _ _ h => h.heft
    replace hd := hd.imp fun _ _ h => h.heft
    have hnSum := sum_le_of_forall₂ (hn.imp fun _ _ h => h.1)
    have hdSum := sum_le_of_forall₂ (hd.imp fun _ _ h => h.1)
    have hnLe := sum_weight_le_sum_heft n'
    obtain ⟨he, heStable⟩ := he
    rw [weight_product] at heq
    refine heStable (stable_of_sum_heft hn ?_) (stable_of_sum_heft hd ?_) ?_ <;> omega
  raise {base exponent base' exponent' e} hbase hexponent he := by
    refine ⟨weight_closed.raise hbase.1 hexponent.1 he.1, fun heq => ?_⟩
    obtain ⟨hbaseLe, hbaseStable⟩ := hbase.heft
    obtain ⟨hexponentLe, hexponentStable⟩ := hexponent
    obtain ⟨he, heStable⟩ := he
    rw [weight_power] at heq
    exact heStable (stable_of_heft (by omega) hbaseStable) (hexponentStable (by omega)) (by omega)
  log {base body base' body'} hbase hbody := by
    refine ⟨weight_closed.log hbase.1 hbody.1, fun heq => ?_⟩
    obtain ⟨hbaseLe, hbaseStable⟩ := hbase.heft
    obtain ⟨hbodyLe, hbodyStable⟩ := hbody.heft
    have hresult := weight_logRule_le base' body'
    rw [heq, weight_log] at hresult
    exact logRule_stable (stable_of_heft (by omega) hbaseStable)
      (stable_of_heft (by omega) hbodyStable)
  trig {f body body'} hbody := by
    refine ⟨weight_closed.trig hbody.1, fun heq => ?_⟩
    obtain ⟨hbodyLe, hbodyStable⟩ := hbody.heft
    have hresult := weight_trigRule_le f body'
    rw [heq, weight_trig] at hresult
    exact trigRule_stable (stable_of_heft (le_antisymm hbodyLe hresult) hbodyStable)
  var x := ⟨le_refl _, fun _ => stable_var x⟩
  number v := ⟨le_refl _, fun _ => stable_number v⟩

end Reduction

end SymbolicAlgebra
