import SymbolicAlgebra.Proofs.Reduction.MergeHalting

/-!
# Rewriting to its end

A bound on nested calls does nothing but stop the rules: whatever they return within one bound they return
within every larger one, with the same steps. Since every expression has a bound that suffices, each rule
comes to one result, and the bounds have no part in it.
-/

namespace SymbolicAlgebra

namespace Reducing

variable {β γ : Type}

/-- What the first rewriting returns within its bound the second returns as well, with the same steps. -/
def Kept (x y : Reducing β) : Prop := ∀ found, x = lift found → y = lift found

/-- A rewriting keeps its own result. -/
theorem Kept.refl (x : Reducing β) : Kept x x := fun _ h => h

/-- A rewriting whose bound is reached has no result to keep. -/
theorem Kept.exhausted (y : Reducing β) : Kept exhausted y := nofun

/-- Rewriting in two stages has the result of the second stage, with the steps of both. -/
theorem bind_eq_lift {x : Reducing β} {f : β → Reducing γ} {found : Traced γ} :
    x >>= f = lift found ↔ ∃ first second, x = lift first ∧ f first.value = lift second ∧
      found = ⟨second.value, first.steps ++ second.steps⟩ := by
  constructor
  · intro h
    cases x with
    | none => cases h
    | some first =>
      cases hf : f first.value with
      | none => simp [bind, hf, lift] at h
      | some second =>
        simp only [bind, hf, lift] at h
        exact ⟨first, second, rfl, hf, (Option.some.inj h).symm⟩
  · rintro ⟨first, second, rfl, hf, rfl⟩
    simp only [bind, lift]
    rw [hf]
    rfl

/-- Stages keep the result of two stages if each of them keeps its own. -/
theorem Kept.bind {x y : Reducing β} {f g : β → Reducing γ} (h : Kept x y)
    (hfg : ∀ b, Kept (f b) (g b)) : Kept (x >>= f) (y >>= g) := by
  intro found hfound
  obtain ⟨first, second, hx, hf, rfl⟩ := bind_eq_lift.mp hfound
  exact bind_eq_lift.mpr ⟨first, second, h first hx, hfg first.value second hf, rfl⟩

/-- The results for the elements of a list are kept if that for each element is. -/
theorem Kept.mapList {f g : β → Reducing γ} (h : ∀ b, Kept (f b) (g b)) (bs : List β) :
    Kept (mapList f bs) (mapList g bs) := by
  induction bs with
  | nil => exact .refl _
  | cons b bs ih => exact (h b).bind fun _ => ih.bind fun _ => .refl _

/-- A value is kept with the result. -/
theorem Kept.returns {x y : Reducing β} (h : Kept x y) {b : β} (hb : x.Returns b) : y.Returns b := by
  obtain ⟨found, hfound, rfl⟩ := hb
  exact ⟨found, h found hfound, rfl⟩

/-- A rewriting that is kept by larger bounds returns one value only. -/
theorem eq_of_returns {run : Nat → Reducing β}
    (hkept : ∀ {fuel fuel'}, fuel ≤ fuel' → Kept (run fuel) (run fuel')) {fuel fuel' : Nat} {b c : β}
    (hb : (run fuel).Returns b) (hc : (run fuel').Returns c) : b = c :=
  ((hkept (le_max_left fuel fuel')).returns hb).unique ((hkept (le_max_right fuel fuel')).returns hc)

/-- A rewriting with a bound comes to the same result, steps included, under all bounds from one on. -/
def Ends (run : Nat → Reducing β) : Prop := ∃ bound found, ∀ fuel, bound ≤ fuel → run fuel = lift found

/-- A rewriting that is kept by larger bounds ends once some bound suffices. -/
theorem ends_of_halts {run : Nat → Reducing β} {bound : Nat} (h : (run bound).Halts)
    (hkept : ∀ {fuel fuel'}, fuel ≤ fuel' → Kept (run fuel) (run fuel')) :
    ∃ found, ∀ fuel, bound ≤ fuel → run fuel = lift found := by
  obtain ⟨_, found, hfound, -⟩ := h
  exact ⟨found, fun fuel hle => hkept hle found hfound⟩

end Reducing

namespace Reduction

open Reducing

variable {α : Type} [Scalar α]

/-- What the rules return within one bound they return within another. -/
structure KeptRules (α : Type) [Scalar α] (fuel fuel' : Nat) : Prop where
  power (base exponent : Expr α) : Kept (powerRule fuel base exponent) (powerRule fuel' base exponent)
  cancel (f : Fraction α) : Kept (Reduction.cancel fuel f) (Reduction.cancel fuel' f)
  product (c : Coefficient α) (n d : List (Expr α)) :
    Kept (productRule fuel c n d) (productRule fuel' c n d)
  simplify (e : Expr α) : Kept (Reduction.simplify fuel e) (Reduction.simplify fuel' e)

namespace KeptRules

variable {fuel fuel' : Nat}

/-- The power rule keeps its results if the calls in it do. -/
theorem power_succ (ih : KeptRules α fuel fuel') (base exponent : Expr α) :
    Kept (powerRule (fuel + 1) base exponent) (powerRule (fuel' + 1) base exponent) := by
  unfold powerRule
  cases plainPower? base exponent with
  | some found => exact .refl _
  | none =>
    cases exponent.isNegative with
    | true =>
      exact .bind (.refl _) fun _ => (ih.simplify _).bind fun positive =>
        (ih.power base positive).bind fun moved => ih.product _ _ _
    | false =>
      simp only [Bool.false_eq_true, if_false]
      split
      · exact .bind (.refl _) fun _ => (ih.product _ _ _).bind fun folded => ih.power _ folded
      · split
        · refine .bind (.refl _) fun _ => ?_
          refine (Kept.mapList (fun a => ih.power a _) _).bind fun n' => ?_
          exact (Kept.mapList (fun a => ih.power a _) _).bind fun d' => ih.product _ n' d'
        · exact .refl _
      · exact .refl _

/-- The cancellation keeps its results if the calls in it do. -/
theorem cancel_succ (ih : KeptRules α fuel fuel') (f : Fraction α) :
    Kept (Reduction.cancel (fuel + 1) f) (Reduction.cancel (fuel' + 1) f) := by
  unfold Reduction.cancel
  cases Fraction.common? f.denominator f.numerator with
  | none => exact .refl _
  | some common =>
    have restore (side : Side) (rest : Fraction α) (exponent : Expr α) :
        Kept (powerRule fuel common.base exponent >>= fun factor =>
            liftM (Fraction.absorb side rest factor) >>= Reduction.cancel fuel)
          (powerRule fuel' common.base exponent >>= fun factor =>
            liftM (Fraction.absorb side rest factor) >>= Reduction.cancel fuel') :=
      (ih.power _ _).bind fun factor => .bind (.refl _) fun g => ih.cancel g
    refine .bind (.refl _) fun _ => ?_
    split
    · split
      · exact restore .above _ _
      · split
        · exact restore .below _ _
        · exact ih.cancel _
    · exact .bind (.refl _) fun exponent => restore .above _ exponent

/-- The rule for products keeps its results if the cancellation does. -/
theorem product_succ (ih : KeptRules α fuel fuel') (c : Coefficient α) (n d : List (Expr α)) :
    Kept (productRule (fuel + 1) c n d) (productRule (fuel' + 1) c n d) := by
  rw [productRule, productRule]
  refine .bind (.refl _) fun f => .bind (.refl _) fun g => ?_
  exact (ih.cancel g).bind fun _ => .refl _

/-- The pass that applies all rules keeps its results if the calls in it do. -/
theorem simplify_succ (ih : KeptRules α fuel fuel') (e : Expr α) :
    Kept (Reduction.simplify (fuel + 1) e) (Reduction.simplify (fuel' + 1) e) := by
  cases e with
  | sum as => exact (Kept.mapList ih.simplify as).bind fun _ => .refl _
  | product c n d =>
    exact (Kept.mapList ih.simplify n).bind fun n' =>
      (Kept.mapList ih.simplify d).bind fun d' => ih.product c n' d'
  | power base exponent =>
    exact (ih.simplify base).bind fun base' =>
      (ih.simplify exponent).bind fun exponent' => ih.power base' exponent'
  | log base body =>
    exact (ih.simplify base).bind fun _ => (ih.simplify body).bind fun _ => .refl _
  | trig f body => exact (ih.simplify body).bind fun _ => .refl _
  | var x => exact .refl _
  | number v => exact .refl _

end KeptRules

/-- The rules keep their results within larger bounds. -/
theorem keptRules {fuel fuel' : Nat} (h : fuel ≤ fuel') : KeptRules α fuel fuel' := by
  induction fuel generalizing fuel' with
  | zero =>
    refine ⟨fun base exponent => ?_, fun f => ?_, fun c n d => ?_, fun e => ?_⟩
    · rw [powerRule]
      exact .exhausted _
    · rw [cancel]
      exact .exhausted _
    · rw [productRule]
      exact .exhausted _
    · rw [simplify]
      exact .exhausted _
  | succ fuel ih =>
    obtain ⟨fuel', rfl⟩ := Nat.exists_eq_add_of_le' (Nat.lt_of_lt_of_le (Nat.succ_pos fuel) h)
    have below : KeptRules α fuel fuel' := ih (Nat.le_of_succ_le_succ h)
    exact ⟨below.power_succ, below.cancel_succ, below.product_succ, below.simplify_succ⟩

section Merge

variable {fuel fuel' : Nat}

/-- The power of a base to the sum of its exponents is kept within larger bounds. -/
theorem kept_gatherPower (h : fuel ≤ fuel') (base : Expr α) (exponents : List (Expr α)) :
    Kept (gatherPower fuel base exponents) (gatherPower fuel' base exponents) := by
  match exponents with
  | [] => exact .bind (.refl _) fun exponent => (keptRules h).power base exponent
  | [exponent] => exact .refl _
  | x :: y :: rest => exact .bind (.refl _) fun exponent => (keptRules h).power base exponent

/-- Combined factors are kept within larger bounds. -/
theorem kept_mergeFactors (h : fuel ≤ fuel') (factors : List (Expr α)) :
    Kept (mergeFactors fuel factors) (mergeFactors fuel' factors) := by
  refine .bind (.refl _) fun _ => .mapList (fun group => ?_) _
  exact kept_gatherPower h group.1 group.2

mutual

/-- What is combined is kept within larger bounds. -/
theorem kept_merge (h : fuel ≤ fuel') (e : Expr α) : Kept (merge fuel e) (merge fuel' e) := by
  cases e with
  | sum as =>
    rw [merge, merge]
    exact (kept_mergeList h as).bind fun _ => .refl _
  | product c n d =>
    rw [merge, merge]
    exact (kept_mergeList h n).bind fun n' => (kept_mergeList h d).bind fun d' =>
      (kept_mergeFactors h n').bind fun _ => (kept_mergeFactors h d').bind fun _ => .refl _
  | power base exponent =>
    rw [merge, merge]
    exact (kept_merge h base).bind fun _ => (kept_merge h exponent).bind fun _ => .refl _
  | log base body =>
    rw [merge, merge]
    exact (kept_merge h base).bind fun _ => (kept_merge h body).bind fun _ => .refl _
  | trig f body =>
    rw [merge, merge]
    exact (kept_merge h body).bind fun _ => .refl _
  | var x =>
    rw [merge, merge]
    exact .refl _
  | number v =>
    rw [merge, merge]
    exact .refl _

/-- What the expressions of a list are combined to is kept within larger bounds. -/
theorem kept_mergeList (h : fuel ≤ fuel') (es : List (Expr α)) :
    Kept (mergeList fuel es) (mergeList fuel' es) := by
  cases es with
  | nil =>
    rw [mergeList, mergeList]
    exact .refl _
  | cons e es =>
    rw [mergeList, mergeList]
    exact (kept_merge h e).bind fun _ => (kept_mergeList h es).bind fun _ => .refl _

end

end Merge

end Reduction

end SymbolicAlgebra
