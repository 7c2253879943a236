import Mathlib
import SymbolicAlgebra.Reduction.Merge

/-!
# Results of bounded rewriting

A rewriting that takes a bound returns a value when its bound suffices; the steps noted on the way
are forgotten here. The main statement is an induction principle for the rules of powers and
products and for the pass that applies all rules: what is closed under their equations holds of
every value that they return.
-/

namespace SymbolicAlgebra

namespace Reducing

variable {β γ : Type}

/-- The rewriting stays within its bound and gives the value. -/
def Returns (x : Reducing β) (b : β) : Prop := ∃ found, x.result? = some found ∧ found.value = b

/-- A bounded rewriting returns one value only. -/
theorem Returns.unique {x : Reducing β} {b c : β} (hb : x.Returns b) (hc : x.Returns c) : b = c := by
  obtain ⟨found, hfound, rfl⟩ := hb
  obtain ⟨found', hfound', rfl⟩ := hc
  rw [hfound] at hfound'
  cases hfound'
  rfl

/-- A rewriting without a rule returns its argument. -/
@[simp] theorem returns_pure {b c : β} : (pure b : Reducing β).Returns c ↔ b = c :=
  ⟨fun ⟨_, h, hc⟩ => by cases h; exact hc, fun h => ⟨_, rfl, h⟩⟩

/-- A rewriting whose bound is reached returns nothing. -/
@[simp] theorem not_returns_exhausted {b : β} : ¬ (exhausted : Reducing β).Returns b :=
  fun ⟨_, h, _⟩ => by cases h

/-- A traced result is returned as it is. -/
@[simp] theorem returns_lift {x : Traced β} {b : β} : (lift x).Returns b ↔ x.value = b :=
  ⟨fun ⟨_, h, hb⟩ => by cases h; exact hb, fun h => ⟨_, rfl, h⟩⟩

/-- A traced result among bounded rewritings is returned as it is. -/
@[simp] theorem returns_liftM {x : Traced β} {b : β} :
    (liftM x : Reducing β).Returns b ↔ x.value = b := returns_lift

/-- Rewriting in two stages goes through a value that the first of them returns. -/
@[simp] theorem returns_bind {x : Reducing β} {f : β → Reducing γ} {c : γ} :
    (x >>= f).Returns c ↔ ∃ b, x.Returns b ∧ (f b).Returns c := by
  constructor
  · rintro ⟨found, h, rfl⟩
    cases x with
    | none => cases h
    | some first =>
      cases hf : f first.value with
      | none => simp [result?, bind, hf] at h
      | some second =>
        simp only [result?, bind, hf, Option.some.injEq] at h
        subst h
        exact ⟨first.value, ⟨first, rfl, rfl⟩, second, hf, rfl⟩
  · rintro ⟨b, ⟨first, rfl, rfl⟩, second, hf, rfl⟩
    refine ⟨⟨second.value, first.steps ++ second.steps⟩, ?_, rfl⟩
    have hf : f first.value = some second := hf
    simp [result?, bind, hf]

/-- The elements of a list are rewritten one by one. -/
@[simp] theorem returns_mapList {f : β → Reducing γ} {bs : List β} {cs : List γ} :
    (mapList f bs).Returns cs ↔ List.Forall₂ (fun b c => (f b).Returns c) bs cs := by
  induction bs generalizing cs with
  | nil =>
    rw [mapList, returns_pure, List.forall₂_nil_left_iff]
    exact eq_comm
  | cons b bs ih =>
    simp only [mapList, returns_bind, returns_pure, ih]
    constructor
    · rintro ⟨c, hc, rest, hrest, rfl⟩
      exact .cons hc hrest
    · rintro (_ | ⟨hc, hrest⟩)
      exact ⟨_, hc, _, hrest, rfl⟩

/-- The rewriting stays within its bound. -/
def Halts (x : Reducing β) : Prop := ∃ b, x.Returns b

/-- A rewriting without a rule stays within its bound. -/
theorem halts_pure {b : β} : (pure b : Reducing β).Halts := ⟨b, returns_pure.mpr rfl⟩

/-- A traced result has no bound to stay within. -/
theorem halts_lift {x : Traced β} : (lift x).Halts := ⟨x.value, returns_lift.mpr rfl⟩

/-- A traced result among bounded rewritings has no bound to stay within. -/
theorem halts_liftM {x : Traced β} : (liftM x : Reducing β).Halts := halts_lift

/-- Rewriting in two stages stays within its bound if the first of them does, and the second with what
the first returns. -/
theorem Halts.bind {x : Reducing β} {f : β → Reducing γ} (hx : x.Halts)
    (hf : ∀ b, x.Returns b → (f b).Halts) : (x >>= f).Halts := by
  obtain ⟨b, hb⟩ := hx
  obtain ⟨c, hc⟩ := hf b hb
  exact ⟨c, returns_bind.mpr ⟨b, hb, hc⟩⟩

/-- A list can be rewritten if each of its elements can. -/
theorem halts_mapList {f : β → Reducing γ} {bs : List β} (h : ∀ b ∈ bs, (f b).Halts) :
    (mapList f bs).Halts := by
  induction bs with
  | nil => exact halts_pure
  | cons b bs ih =>
    rw [List.forall_mem_cons] at h
    exact h.1.bind fun _ _ => (ih h.2).bind fun _ _ => halts_pure

end Reducing

namespace Reduction

/-- What every member of a list is related to has a property that follows from being related. -/
theorem forall_of_forall₂ {β γ : Type} {r : β → γ → Prop} {q : γ → Prop} {bs : List β}
    {cs : List γ} (h : List.Forall₂ r bs cs) (hr : ∀ b ∈ bs, ∀ c, r b c → q c) :
    ∀ c ∈ cs, q c := by
  induction h with
  | nil => simp
  | cons hbc _ ih =>
    rw [List.forall_mem_cons] at hr ⊢
    exact ⟨hr.1 _ hbc, ih hr.2⟩

/-- A relation between two lists follows from another one if it does for the members of the first. -/
theorem forall₂_imp_of_mem {β γ : Type} {r s : β → γ → Prop} {bs : List β} {cs : List γ}
    (h : List.Forall₂ r bs cs) (hrs : ∀ b ∈ bs, ∀ c, r b c → s b c) : List.Forall₂ s bs cs :=
  ((List.forall₂_and_left _ _).mpr ⟨hrs, h⟩).imp fun _ _ h => h.1 _ h.2

/-- What is related to two lists around an element is two lists around what is related to it. -/
theorem forall₂_middle {β γ : Type} {r : β → γ → Prop} {before after : List β} {b : β}
    {cs : List γ} (h : List.Forall₂ r (before ++ b :: after) cs) :
    ∃ before' c after', cs = before' ++ c :: after' ∧ List.Forall₂ r before before' ∧ r b c ∧
      List.Forall₂ r after after' := by
  induction before generalizing cs with
  | nil =>
    obtain _ | ⟨hb, hafter⟩ := h
    exact ⟨[], _, _, rfl, .nil, hb, hafter⟩
  | cons x before ih =>
    obtain _ | ⟨hx, hrest⟩ := h
    obtain ⟨before', c, after', rfl, hbefore, hc, hafter⟩ := ih hrest
    exact ⟨_ :: before', c, after', rfl, .cons hx hbefore, hc, hafter⟩

variable {α : Type} [Scalar α]

/-- A fraction with the factors that are left beside a common base. -/
def Fraction.without (f : Fraction α) (common : Fraction.Common α) : Fraction α :=
  { f with numerator := common.numerator, denominator := common.denominator }

/-- A whole exponent is not multiplied into this base: it is no power, and no product whose coefficient
has a finite power. -/
def Unraised (k : Int) : Expr α → Prop
  | .power _ _ => False
  | .product c _ _ => Scalar.isFinite (c.zpow k).value = false
  | _ => True

/-- Relations between arguments and results that respect every equation of the rules for powers
and products and of the pass that applies all rules, but for the one of logarithms. -/
structure ClosedButLogs (P : Expr α → Expr α → Expr α → Prop) (C : Fraction α → Fraction α → Prop)
    (Q : Coefficient α → List (Expr α) → List (Expr α) → Expr α → Prop)
    (S : Expr α → Expr α → Prop) : Prop where
  plain {base exponent : Expr α} {found : Traced (Expr α)} :
    plainPower? base exponent = some found → P base exponent found.value
  relocate {base exponent positive moved e : Expr α} :
    plainPower? base exponent = none → exponent.isNegative = true →
    S exponent.neg positive → P base positive moved → Q .one [] [moved] e → P base exponent e
  nest {inner inside exponent folded e : Expr α} {k : Int} :
    plainPower? (.power inner inside) exponent = none → exponent.isNegative = false →
    wholeExponent? exponent = some k → Q .one [inside, exponent] [] folded →
    P inner folded e → P (.power inner inside) exponent e
  spread {c : Coefficient α} {n d n' d' : List (Expr α)} {exponent e : Expr α} {k : Int} :
    plainPower? (.product c n d) exponent = none → exponent.isNegative = false →
    wholeExponent? exponent = some k → Scalar.isFinite (c.zpow k).value = true →
    List.Forall₂ (fun a b => P a (.real (Scalar.ofInt k)) b) n n' →
    List.Forall₂ (fun a b => P a (.real (Scalar.ofInt k)) b) d d' →
    Q (c.zpow k) n' d' e → P (.product c n d) exponent e
  remain {base exponent : Expr α} :
    plainPower? base exponent = none → exponent.isNegative = false →
    (∀ k, wholeExponent? exponent = some k → Unraised k base) →
    P base exponent (.power base exponent)
  done {f : Fraction α} : Fraction.common? f.denominator f.numerator = none → C f f
  cancelAbove {f g : Fraction α} {common : Fraction.Common α} {u l : α} {factor : Expr α} :
    Fraction.common? f.denominator f.numerator = some common →
    common.upper.real? = some u → common.lower.real? = some l →
    Scalar.lt Scalar.zero (u - l) = true → P common.base (.real (u - l)) factor →
    C (Fraction.absorb .above (f.without common) factor).value g → C f g
  cancelBelow {f g : Fraction α} {common : Fraction.Common α} {u l : α} {factor : Expr α} :
    Fraction.common? f.denominator f.numerator = some common →
    common.upper.real? = some u → common.lower.real? = some l →
    Scalar.lt (u - l) Scalar.zero = true → P common.base (.real (-(u - l))) factor →
    C (Fraction.absorb .below (f.without common) factor).value g → C f g
  cancelBoth {f g : Fraction α} {common : Fraction.Common α} {u l : α} :
    Fraction.common? f.denominator f.numerator = some common →
    common.upper.real? = some u → common.lower.real? = some l →
    Scalar.lt Scalar.zero (u - l) = false → Scalar.lt (u - l) Scalar.zero = false →
    C (f.without common) g → C f g
  cancelSymbolic {f g : Fraction α} {common : Fraction.Common α} {factor : Expr α} :
    Fraction.common? f.denominator f.numerator = some common →
    (common.upper.real? = none ∨ common.lower.real? = none) →
    P common.base (sumRule [common.upper, common.lower.neg]).value factor →
    C (Fraction.absorb .above (f.without common) factor).value g → C f g
  multiply {c : Coefficient α} {n d : List (Expr α)} {f : Fraction α} :
    C (Fraction.absorbAll .below
      (Fraction.absorbAll .above { coefficient := c } n).value d).value f →
    Q c n d f.finish.value
  sum {addends addends' : List (Expr α)} :
    List.Forall₂ S addends addends' → S (.sum addends) (sumRule addends').value
  fraction {c : Coefficient α} {n d n' d' : List (Expr α)} {e : Expr α} :
    List.Forall₂ S n n' → List.Forall₂ S d d' → Q c n' d' e → S (.product c n d) e
  raise {base exponent base' exponent' e : Expr α} :
    S base base' → S exponent exponent' → P base' exponent' e → S (.power base exponent) e
  trig {function : Trig} {body body' : Expr α} :
    S body body' → S (.trig function body) (trigRule function body').value
  var (name : String) : S (.var name) (.var name)
  number (n : Number α) : S (.number n) (.number n)

/-- Relations between arguments and results that respect every equation of the rules for powers
and products and of the pass that applies all rules. -/
structure Closed (P : Expr α → Expr α → Expr α → Prop) (C : Fraction α → Fraction α → Prop)
    (Q : Coefficient α → List (Expr α) → List (Expr α) → Expr α → Prop)
    (S : Expr α → Expr α → Prop) : Prop extends ClosedButLogs P C Q S where
  log {base body base' body' : Expr α} :
    S base base' → S body body' → S (.log base body) (logRule base' body').value

namespace Closed

variable {P : Expr α → Expr α → Expr α → Prop} {C : Fraction α → Fraction α → Prop}
  {Q : Coefficient α → List (Expr α) → List (Expr α) → Expr α → Prop}
  {S : Expr α → Expr α → Prop}

/-- What the rules return under a bound is related to their arguments. -/
def Bounded (P : Expr α → Expr α → Expr α → Prop) (C : Fraction α → Fraction α → Prop)
    (Q : Coefficient α → List (Expr α) → List (Expr α) → Expr α → Prop)
    (S : Expr α → Expr α → Prop) (fuel : Nat) : Prop :=
  (∀ {base exponent e}, (powerRule fuel base exponent).Returns e → P base exponent e) ∧
  (∀ {f g}, (Reduction.cancel fuel f).Returns g → C f g) ∧
  (∀ {c n d e}, (productRule fuel c n d).Returns e → Q c n d e) ∧
  (∀ {e e'}, (Reduction.simplify fuel e).Returns e' → S e e')

/-- One more nested call of the power rule. -/
theorem power_succ (closed : Closed P C Q S) {fuel : Nat} (ih : Bounded P C Q S fuel)
    {base exponent e : Expr α} (h : (powerRule (fuel + 1) base exponent).Returns e) :
    P base exponent e := by
  obtain ⟨hP, -, hQ, hS⟩ := ih
  unfold powerRule at h
  cases hplain : plainPower? base exponent with
  | some found =>
    rw [hplain] at h
    rw [← Reducing.returns_lift.mp h]
    exact closed.plain hplain
  | none =>
    simp only [hplain] at h
    cases hneg : exponent.isNegative with
    | true =>
      simp only [hneg, if_true, Reducing.returns_bind] at h
      obtain ⟨-, -, positive, hpositive, moved, hmoved, he⟩ := h
      exact closed.relocate hplain hneg (hS hpositive) (hP hmoved) (hQ he)
    | false =>
      have stays (hunraised : ∀ k, wholeExponent? exponent = some k → Unraised k base)
          (h : (pure (.power base exponent) : Reducing (Expr α)).Returns e) :
          P base exponent e := by
        rw [← Reducing.returns_pure.mp h]
        exact closed.remain hplain hneg hunraised
      simp only [hneg, Bool.false_eq_true, if_false] at h
      split at h
      · rename_i k inner inside hwhole
        simp only [Reducing.returns_bind] at h
        obtain ⟨-, -, folded, hfolded, he⟩ := h
        exact closed.nest hplain hneg hwhole (hQ hfolded) (hP he)
      · rename_i k c n d hwhole
        split at h
        · rename_i hfinite
          simp only [Reducing.returns_bind, Reducing.returns_mapList] at h
          obtain ⟨-, -, n', hn, d', hd, he⟩ := h
          exact closed.spread hplain hneg hwhole hfinite (hn.imp fun _ _ => hP)
            (hd.imp fun _ _ => hP) (hQ he)
        · rename_i hinfinite
          refine stays (fun k' hk' => ?_) h
          obtain rfl : k = k' := Option.some.inj (hwhole.symm.trans hk')
          exact Bool.eq_false_iff.mpr hinfinite
      · rename_i base _ _ hpower hproduct
        refine stays (fun k hk => ?_) h
        cases base with
        | power inner inside => exact hpower k inner inside hk rfl
        | product c n d => exact (hproduct k c n d hk rfl).elim
        | _ => trivial

/-- One more nested call of the cancellation. -/
theorem cancel_succ (closed : Closed P C Q S) {fuel : Nat} (ih : Bounded P C Q S fuel)
    {f g : Fraction α} (h : (Reduction.cancel (fuel + 1) f).Returns g) : C f g := by
  obtain ⟨hP, hC, -, -⟩ := ih
  unfold Reduction.cancel at h
  cases hcommon : Fraction.common? f.denominator f.numerator with
  | none =>
    simp only [hcommon] at h
    rw [← Reducing.returns_pure.mp h]
    exact closed.done hcommon
  | some common =>
    obtain ⟨base, upper, lower, n, d⟩ := common
    simp only [hcommon, Reducing.returns_bind, Reducing.returns_liftM] at h
    obtain ⟨-, -, h⟩ := h
    split at h
    · rename_i u l hu hl
      split at h
      · rename_i hpos
        simp only [Reducing.returns_bind, Reducing.returns_liftM] at h
        obtain ⟨factor, hfactor, _, rfl, hg⟩ := h
        exact closed.cancelAbove hcommon hu hl hpos (hP hfactor) (hC hg)
      · rename_i hpos
        split at h
        · rename_i hneg
          simp only [Reducing.returns_bind, Reducing.returns_liftM] at h
          obtain ⟨factor, hfactor, _, rfl, hg⟩ := h
          exact closed.cancelBelow hcommon hu hl hneg (hP hfactor) (hC hg)
        · rename_i hneg
          exact closed.cancelBoth hcommon hu hl (Bool.eq_false_iff.mpr hpos)
            (Bool.eq_false_iff.mpr hneg) (hC h)
    · rename_i hsymbolic
      simp only [Reducing.returns_bind, Reducing.returns_liftM] at h
      obtain ⟨_, rfl, factor, hfactor, _, rfl, hg⟩ := h
      refine closed.cancelSymbolic hcommon ?_ (hP hfactor) (hC hg)
      cases hu : upper.real? with
      | none => exact .inl rfl
      | some u =>
        cases hl : lower.real? with
        | none => exact .inr rfl
        | some l => exact (hsymbolic u l hu hl).elim

/-- One more nested call of the pass that applies all rules. -/
theorem simplify_succ (closed : Closed P C Q S) {fuel : Nat} (ih : Bounded P C Q S fuel)
    {e e' : Expr α} (h : (Reduction.simplify (fuel + 1) e).Returns e') : S e e' := by
  obtain ⟨hP, -, hQ, hS⟩ := ih
  have hall {es es' : List (Expr α)}
      (h : List.Forall₂ (fun e e' => (Reduction.simplify fuel e).Returns e') es es') :
      List.Forall₂ S es es' := h.imp fun _ _ => hS
  cases e with
  | sum addends =>
    simp only [Reduction.simplify, Reducing.returns_bind, Reducing.returns_mapList,
      Reducing.returns_liftM] at h
    obtain ⟨addends', haddends, rfl⟩ := h
    exact closed.sum (hall haddends)
  | product c n d =>
    simp only [Reduction.simplify, Reducing.returns_bind, Reducing.returns_mapList] at h
    obtain ⟨n', hn, d', hd, he⟩ := h
    exact closed.fraction (hall hn) (hall hd) (hQ he)
  | power base exponent =>
    simp only [Reduction.simplify, Reducing.returns_bind] at h
    obtain ⟨base', hbase, exponent', hexponent, he⟩ := h
    exact closed.raise (hS hbase) (hS hexponent) (hP he)
  | log base body =>
    simp only [Reduction.simplify, Reducing.returns_bind, Reducing.returns_liftM] at h
    obtain ⟨base', hbase, body', hbody, rfl⟩ := h
    exact closed.log (hS hbase) (hS hbody)
  | trig function body =>
    simp only [Reduction.simplify, Reducing.returns_bind, Reducing.returns_liftM] at h
    obtain ⟨body', hbody, rfl⟩ := h
    exact closed.trig (hS hbody)
  | var name =>
    rw [Reduction.simplify] at h
    rw [← Reducing.returns_pure.mp h]
    exact closed.var name
  | number n =>
    rw [Reduction.simplify] at h
    rw [← Reducing.returns_pure.mp h]
    exact closed.number n

/-- Relations that respect every equation hold of whatever the rules return, under any bound. -/
theorem bounded (closed : Closed P C Q S) (fuel : Nat) : Bounded P C Q S fuel := by
  induction fuel with
  | zero =>
    refine ⟨?_, ?_, ?_, ?_⟩ <;> intros <;> rename_i h
    · rw [powerRule] at h; exact (Reducing.not_returns_exhausted h).elim
    · rw [Reduction.cancel] at h; exact (Reducing.not_returns_exhausted h).elim
    · rw [productRule] at h; exact (Reducing.not_returns_exhausted h).elim
    · rw [Reduction.simplify] at h; exact (Reducing.not_returns_exhausted h).elim
  | succ fuel ih =>
    refine ⟨closed.power_succ ih, closed.cancel_succ ih, ?_, closed.simplify_succ ih⟩
    intro c n d e h
    simp only [productRule, Reducing.returns_bind, Reducing.returns_liftM] at h
    obtain ⟨_, rfl, _, rfl, f, hf, rfl⟩ := h
    exact closed.multiply (ih.2.1 hf)

/-- The power rule relates its arguments to what it returns. -/
theorem power_returns (closed : Closed P C Q S) {fuel : Nat} {base exponent e : Expr α}
    (h : (powerRule fuel base exponent).Returns e) : P base exponent e :=
  (closed.bounded fuel).1 h

/-- The product rule relates its arguments to what it returns. -/
theorem product_returns (closed : Closed P C Q S) {fuel : Nat} {c : Coefficient α}
    {n d : List (Expr α)} {e : Expr α} (h : (productRule fuel c n d).Returns e) : Q c n d e :=
  (closed.bounded fuel).2.2.1 h

/-- The pass that applies all rules relates its argument to what it returns. -/
theorem simplify_returns (closed : Closed P C Q S) {fuel : Nat} {e e' : Expr α}
    (h : (Reduction.simplify fuel e).Returns e') : S e e' :=
  (closed.bounded fuel).2.2.2 h

end Closed

end Reduction

end SymbolicAlgebra
