import SymbolicAlgebra.Proofs.Reduction.Ends
import SymbolicAlgebra.Proofs.Reduction.OrderFree

/-!
# Results without bounds

What a rule makes of its arguments under some bound is one expression, and the results of the rules are
put together as the rules say: results of nested calls under several bounds are results under a common
one.
-/

namespace SymbolicAlgebra.Reduction

open SymbolicAlgebra.Expr Fraction

variable {α : Type} [Scalar α]

/-- The rule for powers makes the last expression of a base and an exponent under some bound. -/
def Raises (base exponent e : Expr α) : Prop := ∃ fuel, (powerRule fuel base exponent).Returns e

/-- The rule for products makes the expression of a coefficient and factors under some bound. -/
def Multiplies (c : Coefficient α) (n d : List (Expr α)) (e : Expr α) : Prop :=
  ∃ fuel, (productRule fuel c n d).Returns e

/-- The cancellation makes the last product in the making of the first under some bound. -/
def Reduces (f g : Fraction α) : Prop := ∃ fuel, (cancel fuel f).Returns g

/-- The rule for powers makes one expression only. -/
theorem Raises.unique {base exponent e e' : Expr α} : Raises base exponent e →
    Raises base exponent e' → e = e'
  | ⟨_, h⟩, ⟨_, h'⟩ => Reducing.eq_of_returns (fun hle => (keptRules hle).power base exponent) h h'

/-- The rule for products makes one expression only. -/
theorem Multiplies.unique {c : Coefficient α} {n d : List (Expr α)} {e e' : Expr α} :
    Multiplies c n d e → Multiplies c n d e' → e = e'
  | ⟨_, h⟩, ⟨_, h'⟩ => Reducing.eq_of_returns (fun hle => (keptRules hle).product c n d) h h'

/-- The cancellation makes one product in the making only. -/
theorem Reduces.unique {f g g' : Fraction α} : Reduces f g → Reduces f g' → g = g'
  | ⟨_, h⟩, ⟨_, h'⟩ => Reducing.eq_of_returns (fun hle => (keptRules hle).cancel f) h h'

/-- The pass that applies all rules makes one expression only. -/
theorem Simplifies.unique {e s s' : Expr α} : Simplifies e s → Simplifies e s' → s = s'
  | ⟨_, h⟩, ⟨_, h'⟩ => Reducing.eq_of_returns (fun hle => (keptRules hle).simplify e) h h'

/-- What an expression is simplified to under some bound it is simplified to under that for its size. -/
theorem Simplifies.simplified_returns [Scalar.Signed α] {e s : Expr α} (h : Simplifies e s) :
    (simplified e).Returns s := by
  obtain ⟨s', hs'⟩ := simplified_halts e
  rwa [h.unique ⟨_, hs'⟩]

/-- What a list of calls under one bound returns is what they make under any bounds. -/
theorem results_unique {β γ : Type} {r s : β → γ → Prop} {bs : List β} {cs ds : List γ}
    (h : List.Forall₂ r bs cs) (h' : List.Forall₂ s bs ds) (hrs : ∀ b c, s b c → r b c)
    (hunique : ∀ b c d, r b c → r b d → c = d) : cs = ds :=
  List.right_unique_forall₂' (fun b c d hc hd => hunique b c d hc hd) h (h'.imp hrs)

/-- Under all bounds from some on the rule for powers returns its result. -/
theorem Raises.eventually {base exponent e : Expr α} (h : Raises base exponent e) :
    ∀ᶠ fuel in Filter.atTop, (powerRule fuel base exponent).Returns e := by
  obtain ⟨fuel, h⟩ := h
  filter_upwards [Filter.eventually_ge_atTop fuel] with fuel' hle
  exact ((keptRules hle).power base exponent).returns h

/-- Under all bounds from some on the cancellation returns its result. -/
theorem Reduces.eventually {f g : Fraction α} (h : Reduces f g) :
    ∀ᶠ fuel in Filter.atTop, (cancel fuel f).Returns g := by
  obtain ⟨fuel, h⟩ := h
  filter_upwards [Filter.eventually_ge_atTop fuel] with fuel' hle
  exact ((keptRules hle).cancel f).returns h

/-- Under all bounds from some on the rule for products returns its result. -/
theorem Multiplies.eventually {c : Coefficient α} {n d : List (Expr α)} {e : Expr α}
    (h : Multiplies c n d e) : ∀ᶠ fuel in Filter.atTop, (productRule fuel c n d).Returns e := by
  obtain ⟨fuel, h⟩ := h
  filter_upwards [Filter.eventually_ge_atTop fuel] with fuel' hle
  exact ((keptRules hle).product c n d).returns h

/-- Under all bounds from some on the pass that applies all rules returns its result. -/
theorem Simplifies.eventually {e s : Expr α} (h : Simplifies e s) :
    ∀ᶠ fuel in Filter.atTop, (simplify fuel e).Returns s := by
  obtain ⟨fuel, h⟩ := h
  filter_upwards [Filter.eventually_ge_atTop fuel] with fuel' hle
  exact ((keptRules hle).simplify e).returns h

/-- What comes true for each member of a list comes true for all of them. -/
theorem eventually_forall₂ {β γ : Type} {r : β → γ → Prop} {s : Nat → β → γ → Prop} {bs : List β}
    {cs : List γ} (h : List.Forall₂ r bs cs)
    (hrs : ∀ b c, r b c → ∀ᶠ fuel in Filter.atTop, s fuel b c) :
    ∀ᶠ fuel in Filter.atTop, List.Forall₂ (s fuel) bs cs := by
  induction h with
  | nil => exact .of_forall fun _ => .nil
  | cons hbc _ ih =>
    filter_upwards [hrs _ _ hbc, ih] with fuel hfirst hrest
    exact .cons hfirst hrest

/-- What is less than zero is not greater than zero. -/
theorem not_pos_of_neg [Scalar.Signed α] {v : α} (h : Scalar.lt v Scalar.zero = true) :
    Scalar.lt Scalar.zero v = false := by
  rw [Bool.eq_false_iff]
  intro hpos
  rw [Scalar.Signed.lt_of_pos v hpos] at h
  cases h

/-- The results of the rules respect every equation of the rules. -/
theorem results_closed [Scalar.Signed α] : Closed (α := α) Raises Reduces Multiplies Simplifies where
  plain h := ⟨1, by simp [powerRule, h]⟩
  relocate hplain hneg hpositive hmoved he := by
    obtain ⟨fuel, hpositive, hmoved, he⟩ :=
      (hpositive.eventually.and (hmoved.eventually.and he.eventually)).exists
    refine ⟨fuel + 1, ?_⟩
    simp only [powerRule, hplain, hneg, if_true, Reducing.returns_bind, Reducing.returns_liftM]
    exact ⟨(), trivial, _, hpositive, _, hmoved, he⟩
  nest hplain hneg hwhole hfolded he := by
    obtain ⟨fuel, hfolded, he⟩ := (hfolded.eventually.and he.eventually).exists
    refine ⟨fuel + 1, ?_⟩
    simp only [powerRule, hplain, hneg, hwhole, Bool.false_eq_true, if_false, Reducing.returns_bind,
      Reducing.returns_liftM]
    exact ⟨(), trivial, _, hfolded, he⟩
  spread hplain hneg hwhole hfinite hn hd he := by
    obtain ⟨fuel, hn, hd, he⟩ := ((eventually_forall₂ hn fun _ _ => Raises.eventually).and
      ((eventually_forall₂ hd fun _ _ => Raises.eventually).and he.eventually)).exists
    refine ⟨fuel + 1, ?_⟩
    simp only [powerRule, hplain, hneg, hwhole, hfinite, Bool.false_eq_true, if_false, if_true,
      Reducing.returns_bind, Reducing.returns_mapList, Reducing.returns_liftM]
    exact ⟨(), trivial, _, hn, _, hd, he⟩
  remain {base exponent} hplain hneg hunraised := by
    refine ⟨1, ?_⟩
    simp only [powerRule, hplain, hneg, Bool.false_eq_true, if_false]
    split
    · rename_i hwhole
      exact (hunraised _ hwhole).elim
    · rename_i hwhole
      have hinfinite := hunraised _ hwhole
      simp only [Unraised] at hinfinite
      simp [hinfinite]
    · exact Reducing.returns_pure.mpr rfl
  done hcommon := ⟨1, by simp [cancel, hcommon]⟩
  cancelAbove hcommon hu hl hpos hfactor hg := by
    obtain ⟨fuel, hfactor, hg⟩ := (hfactor.eventually.and hg.eventually).exists
    refine ⟨fuel + 1, ?_⟩
    simp only [cancel, hcommon, hu, hl, hpos, if_true, Reducing.returns_bind, Reducing.returns_liftM]
    exact ⟨(), trivial, _, hfactor, _, rfl, hg⟩
  cancelBelow hcommon hu hl hneg hfactor hg := by
    obtain ⟨fuel, hfactor, hg⟩ := (hfactor.eventually.and hg.eventually).exists
    refine ⟨fuel + 1, ?_⟩
    simp only [cancel, hcommon, hu, hl, not_pos_of_neg hneg, hneg, Bool.false_eq_true, if_false,
      if_true, Reducing.returns_bind, Reducing.returns_liftM]
    exact ⟨(), trivial, _, hfactor, _, rfl, hg⟩
  cancelBoth hcommon hu hl hpos hneg hg := by
    obtain ⟨fuel, hg⟩ := hg
    refine ⟨fuel + 1, ?_⟩
    simp only [cancel, hcommon, hu, hl, hpos, hneg, Bool.false_eq_true, if_false,
      Reducing.returns_bind, Reducing.returns_liftM]
    exact ⟨(), trivial, hg⟩
  cancelSymbolic hcommon hsymbolic hfactor hg := by
    obtain ⟨fuel, hfactor, hg⟩ := (hfactor.eventually.and hg.eventually).exists
    refine ⟨fuel + 1, ?_⟩
    simp only [cancel, hcommon, Reducing.returns_bind, Reducing.returns_liftM]
    refine ⟨(), trivial, ?_⟩
    split
    · rename_i hu hl
      obtain hnone | hnone := hsymbolic
      · rw [hu] at hnone
        cases hnone
      · rw [hl] at hnone
        cases hnone
    · simp only [Reducing.returns_bind, Reducing.returns_liftM]
      exact ⟨_, rfl, _, hfactor, _, rfl, hg⟩
  multiply hf := by
    obtain ⟨fuel, hf⟩ := hf
    refine ⟨fuel + 1, ?_⟩
    simp only [productRule, Reducing.returns_bind, Reducing.returns_liftM]
    exact ⟨_, rfl, _, rfl, _, hf, rfl⟩
  sum h := by
    obtain ⟨fuel, h⟩ := (eventually_forall₂ h fun _ _ => Simplifies.eventually).exists
    refine ⟨fuel + 1, ?_⟩
    simp only [simplify, Reducing.returns_bind, Reducing.returns_mapList, Reducing.returns_liftM]
    exact ⟨_, h, rfl⟩
  fraction hn hd he := by
    obtain ⟨fuel, hn, hd, he⟩ := ((eventually_forall₂ hn fun _ _ => Simplifies.eventually).and
      ((eventually_forall₂ hd fun _ _ => Simplifies.eventually).and he.eventually)).exists
    refine ⟨fuel + 1, ?_⟩
    simp only [simplify, Reducing.returns_bind, Reducing.returns_mapList]
    exact ⟨_, hn, _, hd, he⟩
  raise hbase hexponent he := by
    obtain ⟨fuel, hbase, hexponent, he⟩ :=
      (hbase.eventually.and (hexponent.eventually.and he.eventually)).exists
    refine ⟨fuel + 1, ?_⟩
    simp only [simplify, Reducing.returns_bind]
    exact ⟨_, hbase, _, hexponent, he⟩
  log hbase hbody := by
    obtain ⟨fuel, hbase, hbody⟩ := (hbase.eventually.and hbody.eventually).exists
    refine ⟨fuel + 1, ?_⟩
    simp only [simplify, Reducing.returns_bind, Reducing.returns_liftM]
    exact ⟨_, hbase, _, hbody, rfl⟩
  trig hbody := by
    obtain ⟨fuel, hbody⟩ := hbody
    refine ⟨fuel + 1, ?_⟩
    simp only [simplify, Reducing.returns_bind, Reducing.returns_liftM]
    exact ⟨_, hbody, rfl⟩
  var name := ⟨1, by rw [simplify]; exact Reducing.returns_pure.mpr rfl⟩
  number n := ⟨1, by rw [simplify]; exact Reducing.returns_pure.mpr rfl⟩

/-- A variable is multiplied by a coefficient other than zero. -/
theorem multiplies_var [Scalar.Signed α] {c : Coefficient α} (hc : c.isZero = false) (name : String) :
    Multiplies c [var name] [] (collapse c [var name] []) := by
  have hdone : Reduces (gather c [(var name : Expr α)] []) { coefficient := c, numerator := [var name] } :=
    results_closed.done rfl
  have hmultiplies := results_closed.multiply hdone
  rwa [finish_single hc rfl] at hmultiplies

/-- A power of a variable to which no rule applies is left as it is. -/
theorem raises_var (name : String) [Scalar.Signed α] {exponent : Expr α}
    (hplain : plainPower? (var name) exponent = none) (hneg : exponent.isNegative = false) :
    Raises (var name) exponent (power (var name) exponent) :=
  results_closed.remain hplain hneg fun _ _ => trivial

end SymbolicAlgebra.Reduction
