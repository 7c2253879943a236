import SymbolicAlgebra.Proofs.Expr.Reordered
import SymbolicAlgebra.Proofs.Reduction.Results
import SymbolicAlgebra.Proofs.Reduction.Stable

/-!
# Passes without a step

A pass that notes no step has changed next to nothing: addends and factors may be in another order,
and sums and products of fewer than two parts may be replaced by what they stand for. There is one
exception. A zero below the fraction line takes the place of all other divisors, and no step is
noted for that. So a pass without a step says that nothing else has changed only where no product
divides by a zero and by something else.
-/

namespace SymbolicAlgebra

namespace Reducing

variable {β γ : Type}

/-- The rewriting stays within its bound and gives the value without noting a step. -/
def Silent (x : Reducing β) (b : β) : Prop := x.result? = some ⟨b, []⟩

/-- A rewriting without a rule notes nothing. -/
@[simp] theorem silent_pure {b c : β} : (pure b : Reducing β).Silent c ↔ b = c :=
  ⟨fun h => by cases h; rfl, fun h => by cases h; rfl⟩

/-- A rewriting whose bound is reached gives no value. -/
@[simp] theorem not_silent_exhausted {b : β} : ¬ (exhausted : Reducing β).Silent b := nofun

/-- A traced result is silent if it comes without steps. -/
@[simp] theorem silent_lift {x : Traced β} {b : β} :
    (lift x).Silent b ↔ x.value = b ∧ x.steps = [] := by
  obtain ⟨value, steps⟩ := x
  constructor
  · rintro ⟨⟩
    exact ⟨rfl, rfl⟩
  · rintro ⟨rfl, rfl⟩
    rfl

/-- A traced result among bounded rewritings is silent if it comes without steps. -/
@[simp] theorem silent_liftM {x : Traced β} {b : β} :
    (liftM x : Reducing β).Silent b ↔ x.value = b ∧ x.steps = [] := silent_lift

/-- Rewriting in two stages is silent if both stages are. -/
@[simp] theorem silent_bind {x : Reducing β} {f : β → Reducing γ} {c : γ} :
    (x >>= f).Silent c ↔ ∃ b, x.Silent b ∧ (f b).Silent c := by
  constructor
  · intro h
    cases x with
    | none => cases h
    | some first =>
      obtain ⟨value, steps⟩ := first
      cases hf : f value with
      | none => simp [Silent, result?, bind, hf] at h
      | some second =>
        simp only [Silent, result?, bind, hf, Option.some.injEq, Traced.mk.injEq,
          List.append_eq_nil_iff] at h
        obtain ⟨rfl, rfl, hsteps⟩ := h
        exact ⟨value, rfl, by rw [Silent, hf, ← hsteps]; rfl⟩
  · rintro ⟨b, hx, hf⟩
    have hx : x = some ⟨b, []⟩ := hx
    have hf : f b = some ⟨c, []⟩ := hf
    simp [Silent, result?, bind, hx, hf]

/-- A list is rewritten silently if its elements are. -/
@[simp] theorem silent_mapList {f : β → Reducing γ} {bs : List β} {cs : List γ} :
    (mapList f bs).Silent cs ↔ List.Forall₂ (fun b c => (f b).Silent c) bs cs := by
  induction bs generalizing cs with
  | nil =>
    rw [mapList, silent_pure, List.forall₂_nil_left_iff]
    exact eq_comm
  | cons b bs ih =>
    simp only [mapList, silent_bind, silent_pure, ih]
    constructor
    · rintro ⟨c, hc, rest, hrest, rfl⟩
      exact .cons hc hrest
    · rintro (_ | ⟨hc, hrest⟩)
      exact ⟨_, hc, _, hrest, rfl⟩

end Reducing

namespace Expr

variable {α : Type} [Scalar α]

/-- The second expression is the first one with addends and factors in another order, and with sums
and products without parts or with a single one replaced by what they stand for. -/
inductive Arranged : Expr α → Expr α → Prop
  | sum {as as' bs : List (Expr α)} : List.Forall₂ Arranged as as' → as'.Perm bs →
    Arranged (.sum as) (.sum bs)
  | sumEmpty : Arranged (.sum []) .zero
  | sumSingle {a b : Expr α} : Arranged a b → Arranged (.sum [a]) b
  | product {c : Coefficient α} {n n' m d d' k : List (Expr α)} : List.Forall₂ Arranged n n' →
    List.Forall₂ Arranged d d' → n'.Perm m → d'.Perm k → Arranged (.product c n d) (.product c m k)
  | productEmpty {c : Coefficient α} : Arranged (.product c [] []) (.real c.value)
  | productSingle {c : Coefficient α} {a b : Expr α} : c.isOne = true → Arranged a b →
    Arranged (.product c [a] []) b
  | power {base exponent base' exponent' : Expr α} :
    Arranged base base' → Arranged exponent exponent' →
    Arranged (.power base exponent) (.power base' exponent')
  | log {base body base' body' : Expr α} : Arranged base base' → Arranged body body' →
    Arranged (.log base body) (.log base' body')
  | trig {function : Trig} {body body' : Expr α} : Arranged body body' →
    Arranged (.trig function body) (.trig function body')
  | var (name : String) : Arranged (.var name) (.var name)
  | number (n : Number α) : Arranged (.number n) (.number n)

/-- The expression stands for zero without a rule: the literal, the sum without addends, or a
product without factors whose number is zero. -/
def isPlainZero : Expr α → Bool
  | .number n => (Expr.number n).isZero
  | .sum [] => true
  | .product c [] [] => Scalar.eq c.value Scalar.zero
  | _ => false

/-- The second expression is the first one rearranged, and it is zero only if the first one stands
for zero without a rule. -/
def KeptAs (e e' : Expr α) : Prop :=
  Arranged e e' ∧ (e'.isZero = true → e.isPlainZero = true ∧ e' = .zero)

/-- What an expression is rearranged into keeps it if it is not zero. -/
theorem KeptAs.of_isZero {e e' : Expr α} (h : Arranged e e') (hzero : e'.isZero = false) :
    KeptAs e e' :=
  ⟨h, fun htrue => absurd (hzero.symm.trans htrue) Bool.false_ne_true⟩

/-- At this node, nothing else is divided by beside a zero, and a literal zero has no sign, as no
constructor gives it one. -/
def ZeroAlone : Expr α → Prop
  | .product _ _ d => ∀ e ∈ d, e.isPlainZero = true → d = [e]
  | .number n => (Expr.number n).isZero = true → Expr.number n = .zero
  | _ => True

end Expr

namespace Reduction

open SymbolicAlgebra.Expr Fraction

variable {α : Type} [Scalar α]

/-- Every rule by which a power follows from its parts notes a step. -/
theorem steps_of_plainPower {base exponent : Expr α} {found : Traced (Expr α)}
    (h : plainPower? base exponent = some found) : found.steps ≠ [] := by
  rw [plainPower?] at h
  split at h
  · cases h; exact List.cons_ne_nil _ _
  · split at h
    · cases h; exact List.cons_ne_nil _ _
    · split at h
      · cases h; exact List.cons_ne_nil _ _
      · split at h
        · cases h; exact List.cons_ne_nil _ _
        · obtain ⟨body, -, rfl⟩ := Option.map_eq_some_iff.mp h
          exact List.cons_ne_nil _ _

/-- A power for which no step is noted stays as it is. -/
theorem silent_powerRule {fuel : Nat} {base exponent e : Expr α}
    (h : (powerRule fuel base exponent).Silent e) : e = .power base exponent := by
  have noted {step : Step} {rest : Unit → Reducing (Expr α)}
      (h : ((Traced.note step : Reducing Unit) >>= rest).Silent e) : False := by
    simp [Traced.note] at h
  cases fuel with
  | zero => rw [powerRule] at h; exact (Reducing.not_silent_exhausted h).elim
  | succ fuel =>
    unfold powerRule at h
    split at h
    · rename_i found hplain
      exact (steps_of_plainPower hplain (Reducing.silent_lift.mp h).2).elim
    · split at h
      · exact (noted h).elim
      · split at h
        · exact (noted h).elim
        · split at h
          · exact (noted h).elim
          · exact (Reducing.silent_pure.mp h).symm
        · exact (Reducing.silent_pure.mp h).symm

/-- A logarithm for which no step is noted stays as it is. -/
theorem silent_logRule {base body : Expr α} (h : (logRule base body).steps = []) :
    (logRule base body).value = .log base body := by
  rw [logRule] at h ⊢
  split at h
  · cases h
  · rename_i hself
    rw [if_neg hself]
    split at h
    · cases h
    · rename_i hone
      rw [if_neg hone]
      split at h
      · cases h
      · rw [foldLog] at h ⊢
        split at h
        · split at h
          · cases h
          · rfl
        · rfl

/-- A function for which no step is noted stays as it is. -/
theorem silent_trigRule {f : Trig} {body : Expr α} (h : (trigRule f body).steps = []) :
    (trigRule f body).value = .trig f body := by
  rw [trigRule] at h ⊢
  split at h
  · cases h
  · rename_i hzero
    split at h
    · cases h
    · rename_i hpi
      rw [if_neg hzero, if_neg hpi]
      rfl

/-- A factor that is taken into a product above the line without a step is put there as it is, and
it is not zero. -/
theorem silent_absorb_above {f : Fraction α} {e : Expr α} (h : (absorb .above f e).steps = []) :
    (absorb .above f e).value = f.place .above e ∧ e.isZero = false := by
  cases e with
  | number v =>
    cases v with
    | real v => simp [absorb] at h
    | constant c => exact ⟨rfl, rfl⟩
  | product c n d => simp [absorb, Traced.note] at h
  | _ => exact ⟨rfl, rfl⟩

/-- A factor that is not zero and is taken into a product below the line without a step is put there
as it is. -/
theorem silent_absorb_below {f : Fraction α} {e : Expr α} (h : (absorb .below f e).steps = [])
    (hzero : e.isZero = false) : (absorb .below f e).value = f.place .below e := by
  cases e with
  | number v =>
    cases v with
    | real v =>
      have hv : Scalar.eq v Scalar.zero = false := hzero
      simp [absorb, hv] at h
    | constant c => rfl
  | product c n d =>
    have hc : c.isZero = false := hzero
    simp [absorb, hc, Traced.note] at h
  | _ => rfl

/-- A zero below the line is only remembered, and no step is noted for it. -/
theorem absorb_below_zero {f : Fraction α} {e : Expr α} (h : e.isZero = true) :
    absorb .below f e = pure { f with zeroDivisor := true } := by
  cases e with
  | number v =>
    cases v with
    | real v =>
      have hv : Scalar.eq v Scalar.zero = true := h
      simp [absorb, hv]
    | constant c => cases h
  | product c n d =>
    have hc : c.isZero = true := h
    simp [absorb, hc]
  | _ => cases h

/-- Factors that are taken into a product above the line without a step are put there as they are,
and none is zero. -/
theorem silent_absorbAll_above {f : Fraction α} {es : List (Expr α)}
    (h : (absorbAll .above f es).steps = []) :
    (absorbAll .above f es).value = { f with numerator := f.numerator ++ es } ∧
      ∀ e ∈ es, e.isZero = false := by
  induction es generalizing f with
  | nil => simp [absorbAll]
  | cons e es ih =>
    rw [absorbAll, Traced.bind_steps, List.append_eq_nil_iff] at h
    obtain ⟨hvalue, hzero⟩ := silent_absorb_above h.1
    rw [hvalue] at h
    obtain ⟨hrest, hzeros⟩ := ih h.2
    rw [absorbAll, Traced.bind_value, hvalue, hrest, List.forall_mem_cons]
    exact ⟨by simp [place], hzero, hzeros⟩

/-- Factors that are taken into a product below the line without a step are put there as they are,
apart from the zeros. -/
theorem silent_absorbAll_below {f : Fraction α} {es : List (Expr α)}
    (h : (absorbAll .below f es).steps = []) :
    (absorbAll .below f es).value =
      { f with
        denominator := f.denominator ++ es.filter fun e => !e.isZero
        zeroDivisor := f.zeroDivisor || es.any isZero } := by
  induction es generalizing f with
  | nil => simp [absorbAll]
  | cons e es ih =>
    rw [absorbAll, Traced.bind_steps, List.append_eq_nil_iff] at h
    rw [absorbAll, Traced.bind_value]
    cases hzero : e.isZero with
    | true =>
      rw [absorb_below_zero hzero, Traced.pure_value] at h ⊢
      rw [ih h.2]
      simp [hzero]
    | false =>
      rw [silent_absorb_below h.1 hzero] at h ⊢
      rw [ih h.2]
      simp [hzero, place]

/-- A cancellation for which no step is noted leaves the fraction as it is. -/
theorem silent_cancel {fuel : Nat} {f g : Fraction α} (h : (cancel fuel f).Silent g) : g = f := by
  cases fuel with
  | zero => rw [cancel] at h; exact (Reducing.not_silent_exhausted h).elim
  | succ fuel =>
    rw [cancel] at h
    split at h
    · exact (Reducing.silent_pure.mp h).symm
    · simp [Traced.note] at h

/-- A product that is finished without a step has its factors sorted and is collapsed; its
coefficient is not zero. -/
theorem silent_finish {f : Fraction α} (h : f.finish.steps = []) :
    f.coefficient.isZero = false ∧
      f.finish.value = collapse f.coefficient (sort f.numerator) (sort f.divisors) := by
  cases hzero : f.coefficient.isZero with
  | true =>
    rw [finish, if_pos hzero] at h
    cases h
  | false =>
    rw [finish_eq hzero] at h ⊢
    refine ⟨rfl, ?_⟩
    generalize sort f.numerator = n at h ⊢
    generalize sort f.divisors = d at h ⊢
    fun_cases assemble f.coefficient n d with
    | case1 addends hone => simp [collapse, hone]
    | case2 addends hone => simp [assemble, hone, Traced.note] at h
    | case3 n d hsum => rfl

/-- A product for which no step is noted has its factors sorted, with only a zero below the line if
there is one, and is collapsed. Neither its coefficient nor a factor above the line is zero. -/
theorem silent_productRule {fuel : Nat} {c : Coefficient α} {n d : List (Expr α)} {e : Expr α}
    (h : (productRule fuel c n d).Silent e) :
    c.isZero = false ∧ (∀ x ∈ n, x.isZero = false) ∧
      e = collapse c (sort n) (sort (if d.any isZero then [.zero] else d)) := by
  cases fuel with
  | zero => rw [productRule] at h; exact (Reducing.not_silent_exhausted h).elim
  | succ fuel =>
    simp only [productRule, Reducing.silent_bind, Reducing.silent_liftM] at h
    obtain ⟨_, ⟨rfl, habove⟩, _, ⟨rfl, hbelow⟩, g, hcancel, rfl, hfinish⟩ := h
    obtain rfl := silent_cancel hcancel
    obtain ⟨hvalue, hzeros⟩ := silent_absorbAll_above habove
    rw [hvalue] at hbelow hfinish ⊢
    rw [silent_absorbAll_below hbelow] at hfinish ⊢
    obtain ⟨hc, hfinish⟩ := silent_finish hfinish
    refine ⟨hc, hzeros, ?_⟩
    rw [hfinish]
    cases hany : d.any isZero with
    | true => simp [divisors]
    | false =>
      have hkept : d.filter (fun e => !e.isZero) = d :=
        List.filter_eq_self.mpr fun e he => by simpa using List.any_eq_false.mp hany e he
      simp [divisors, hkept]

/-- Zero is zero. -/
theorem eq_zero_zero [Scalar.Lawful α] : Scalar.eq (Scalar.zero : α) Scalar.zero = true := by
  simpa [total] using total_nil (α := α)

/-- The literal zero is zero. -/
theorem isZero_zero [Scalar.Lawful α] : (zero : Expr α).isZero = true := by
  show Scalar.eq (Scalar.unsignZero Scalar.zero : α) Scalar.zero = true
  rw [Scalar.Lawful.eq_unsignZero, eq_zero_zero]

/-- The total of a single literal is added to zero. -/
theorem total_singleton (v : α) : total [v] = Scalar.zero + v := by
  rw [total, List.mergeSort_singleton]
  rfl

omit [Scalar α] in
/-- The literals of a list are its literals' values put back. -/
theorem filter_literals (es : List (Expr α)) :
    es.filter (fun e => e.real?.isSome) = (es.filterMap real?).map fun v => .number (.real v) := by
  induction es with
  | nil => rfl
  | cons e es ih =>
    cases hreal : e.real? with
    | none => simp [hreal, ih]
    | some v =>
      rw [List.filter_cons_of_pos (by simp [hreal]), List.filterMap_cons_some hreal, List.map_cons,
        ih, ← eq_number_of_real? hreal]

/-- A sum for which no step is noted has none of its addends changed but only sorted, where the
zeros among them have no sign; none is zero. -/
theorem silent_sumRule [Scalar.Unital α] {es : List (Expr α)} (h : (sumRule es).steps = [])
    (hes : ∀ e ∈ es, e.isZero = true → e = .zero) :
    (∀ e ∈ es, e.isZero = false) ∧ ∃ fs, es.Perm fs ∧ (sumRule es).value = collapseSum fs := by
  simp only [sumRule, List.append_eq_nil_iff] at h
  obtain ⟨⟨hflat, hfolded⟩, hdropped⟩ := h
  have hsums : ∀ e ∈ es, e.isSum = false := by
    intro e he
    cases hsum : e.isSum with
    | true =>
      have hmem :=
        List.mem_map_of_mem (f := fun _ => Step.flattenSum) (List.mem_filter.mpr ⟨he, hsum⟩)
      rw [hflat] at hmem
      cases hmem
    | false => rfl
  rw [sumRule_value]
  rw [flatMap_addends hsums] at hfolded hdropped ⊢
  split at hdropped
  · cases hdropped
  rename_i hnothing
  rw [Bool.not_eq_true, Bool.or_eq_false_iff] at hnothing
  obtain ⟨hlength, hvanishes⟩ := hnothing
  have hkept : keptAddends es = es.filter fun e => e.real?.isNone :=
    List.filter_sublist.eq_of_length (by simpa [keptAddends] using hlength)
  have hothers : ∀ e ∈ es, e.real? = none → e.isZero = false := by
    intro e he hreal
    have hmem : e ∈ keptAddends es := by
      rw [hkept, List.mem_filter]
      exact ⟨he, by simp [hreal]⟩
    exact (mem_keptAddends.mp hmem).2.2
  have hperm : es.Perm (keptAddends es ++ (es.filterMap real?).map fun v => .number (.real v)) := by
    have hsplit := (List.filter_append_perm (fun e : Expr α => e.real?.isNone) es).symm
    simpa [hkept, ← filter_literals] using hsplit
  cases hliterals : es.filterMap real? with
  | nil =>
    have hall : ∀ e ∈ es, e.real? = none := List.filterMap_eq_nil_iff.mp hliterals
    refine ⟨fun e he => hothers e he (hall e he), _, ?_, rfl⟩
    rw [hliterals, List.map_nil, List.append_nil] at hperm
    rw [sumTerms, hliterals, if_pos total_nil]
    exact hperm.trans (sort_perm _).symm
  | cons v rest =>
    rw [hliterals] at hfolded hvanishes hperm
    obtain rfl : rest = [] := by
      cases rest with
      | nil => rfl
      | cons w rest => simp at hfolded
    have hconstant : Scalar.eq (Scalar.zero + v) Scalar.zero = false := by
      rw [← total_singleton]
      simpa using hvanishes
    have hmem : .number (.real v) ∈ es := hperm.mem_iff.mpr (by simp)
    have hv : Scalar.eq v Scalar.zero = false := by
      cases hzero : Scalar.eq v Scalar.zero with
      | false => rfl
      | true =>
        -- a zero among the addends has no sign, so that the total of the literals would be zero
        obtain rfl : v = Scalar.unsignZero Scalar.zero := by
          have hsame := hes _ hmem hzero
          cases hsame
          rfl
        rw [Scalar.unsignZero, Scalar.Unital.add_zero_of_zero _ eq_zero_zero,
          Scalar.Unital.add_zero_of_zero _ eq_zero_zero, eq_zero_zero] at hconstant
        cases hconstant
    have hreal : (.real (total [v]) : Expr α) = .number (.real v) := by
      rw [total_singleton, Scalar.Unital.zero_add v hv, real, Number.literal,
        Scalar.unsignZero_of_ne hv]
    refine ⟨fun e he => ?_, _, ?_, rfl⟩
    · cases hliteral : e.real? with
      | none => exact hothers e he hliteral
      | some w =>
        have hw : w ∈ es.filterMap real? := List.mem_filterMap.mpr ⟨e, he, hliteral⟩
        rw [hliterals, List.mem_singleton] at hw
        rw [eq_number_of_real? hliteral, hw]
        exact hv
    · rw [sumTerms, hliterals, if_neg (by simp [total_singleton, hconstant]), hreal]
      exact hperm.trans (sort_perm _).symm

/-- Collapsing addends that have been kept and none of which is zero keeps their sum. -/
theorem keptAs_collapseSum {as as' fs : List (Expr α)} (has : List.Forall₂ KeptAs as as')
    (hzeros : ∀ a ∈ as', a.isZero = false) (hperm : as'.Perm fs) :
    KeptAs (.sum as) (collapseSum fs) := by
  match fs with
  | [] =>
    obtain rfl := hperm.eq_nil
    cases has
    exact ⟨.sumEmpty, fun _ => ⟨rfl, rfl⟩⟩
  | [b] =>
    obtain rfl := List.perm_singleton.mp hperm
    obtain _ | ⟨ha, _ | _⟩ := has
    exact .of_isZero (.sumSingle ha.1) (hzeros b List.mem_cons_self)
  | b :: b' :: fs => exact .of_isZero (.sum (has.imp fun _ _ ha => ha.1) hperm) rfl

/-- Collapsing factors that have been kept keeps their product, if its coefficient and the factors
above the line are not zero. -/
theorem keptAs_collapse [Scalar.Unital α] {c : Coefficient α} {n n' m d d' k : List (Expr α)}
    (hc : c.isZero = false) (hn : List.Forall₂ KeptAs n n') (hd : List.Forall₂ KeptAs d d')
    (hzeros : ∀ e ∈ n', e.isZero = false) (hm : n'.Perm m) (hk : d'.Perm k) :
    KeptAs (.product c n d) (collapse c m k) := by
  have hproduct : KeptAs (.product c n d) (.product c m k) :=
    .of_isZero (.product (hn.imp fun _ _ h => h.1) (hd.imp fun _ _ h => h.1) hm hk) hc
  fun_cases collapse c m k with
  | case1 =>
    obtain rfl := hm.eq_nil
    obtain rfl := hk.eq_nil
    cases hn
    cases hd
    refine ⟨.productEmpty, fun hzero => ?_⟩
    have hvalue : Scalar.eq c.value Scalar.zero = true := by
      rw [← Scalar.Lawful.eq_unsignZero]
      exact hzero
    refine ⟨hvalue, ?_⟩
    rw [zero, real, real, Number.literal, Number.literal, Scalar.unsignZero, Scalar.unsignZero,
      Scalar.Unital.add_zero_of_zero _ hvalue, Scalar.Unital.add_zero_of_zero _ eq_zero_zero]
  | case2 b hone =>
    obtain rfl := List.perm_singleton.mp hm
    obtain rfl := hk.eq_nil
    obtain _ | ⟨ha, _ | _⟩ := hn
    cases hd
    exact .of_isZero (.productSingle hone ha.1) (hzeros b List.mem_cons_self)
  | case3 b hone => exact hproduct
  | case4 m k => exact hproduct

/-- The pass keeps the expressions of a list if it keeps every expression that divides by zero
alone. -/
theorem keptAs_list {fuel : Nat} {es es' : List (Expr α)} (hes : ∀ e ∈ es, e.Everywhere ZeroAlone)
    (ih : ∀ e e' : Expr α, (simplify fuel e).Silent e' → e.Everywhere ZeroAlone → KeptAs e e')
    (h : List.Forall₂ (fun e e' => (simplify fuel e).Silent e') es es') :
    List.Forall₂ KeptAs es es' :=
  ((List.forall₂_and_left es es').mpr ⟨hes, h⟩).imp fun e e' he => ih e e' he.2 he.1

/-- Factors below the line are replaced by a zero among them only if it is the only one. -/
theorem divisors_eq {d d' : List (Expr α)} (hd : List.Forall₂ KeptAs d d')
    (halone : ∀ e ∈ d, e.isPlainZero = true → d = [e]) :
    (if d'.any isZero then [.zero] else d') = d' := by
  split
  · rename_i hany
    obtain ⟨b, hb, hzero⟩ := List.any_eq_true.mp hany
    have hsource : ∃ a ∈ d, KeptAs a b :=
      forall_of_forall₂ (q := fun b => ∃ a ∈ d, KeptAs a b) hd (fun a ha _ hab => ⟨a, ha, hab⟩) b hb
    obtain ⟨a, ha, hab⟩ := hsource
    obtain ⟨hplain, rfl⟩ := hab.2 hzero
    -- the zero is all that is divided by, and it takes its own place
    rw [halone a ha hplain] at hd
    obtain _ | ⟨-, _ | _⟩ := hd
    rw [List.mem_singleton.mp hb]
  · rfl

/-- A pass for which no step is noted keeps an expression in which everything is divided by zero
alone. -/
theorem silent_simplify [Scalar.Unital α] {fuel : Nat} {e e' : Expr α}
    (h : (simplify fuel e).Silent e') (he : e.Everywhere ZeroAlone) : KeptAs e e' := by
  induction fuel generalizing e e' with
  | zero => rw [simplify] at h; exact (Reducing.not_silent_exhausted h).elim
  | succ fuel ih =>
    obtain ⟨halone, hchildren⟩ := everywhere_iff.mp he
    cases e with
    | sum as =>
      simp only [simplify, Reducing.silent_bind, Reducing.silent_liftM,
        Reducing.silent_mapList] at h
      obtain ⟨as', has, rfl, hsteps⟩ := h
      have has := keptAs_list hchildren (fun _ _ => ih) has
      obtain ⟨hzeros, fs, hperm, hvalue⟩ := silent_sumRule hsteps <|
        forall_of_forall₂ has fun _ _ _ ha hzero => (ha.2 hzero).2
      rw [hvalue]
      exact keptAs_collapseSum has hzeros hperm
    | product c n d =>
      simp only [simplify, Reducing.silent_bind, Reducing.silent_mapList] at h
      obtain ⟨n', hn, d', hd, h⟩ := h
      have hn :=
        keptAs_list (fun e he => hchildren e (List.mem_append_left d he)) (fun _ _ => ih) hn
      have hd :=
        keptAs_list (fun e he => hchildren e (List.mem_append_right n he)) (fun _ _ => ih) hd
      obtain ⟨hc, hzeros, rfl⟩ := silent_productRule h
      rw [divisors_eq hd halone]
      exact keptAs_collapse hc hn hd hzeros (sort_perm n').symm (sort_perm d').symm
    | power base exponent =>
      simp only [simplify, Reducing.silent_bind] at h
      obtain ⟨base', hbase, exponent', hexponent, h⟩ := h
      obtain rfl := silent_powerRule h
      have hbase := ih hbase (hchildren _ (by simp [children]))
      have hexponent := ih hexponent (hchildren _ (by simp [children]))
      exact .of_isZero (.power hbase.1 hexponent.1) rfl
    | log base body =>
      simp only [simplify, Reducing.silent_bind, Reducing.silent_liftM] at h
      obtain ⟨base', hbase, body', hbody, rfl, hsteps⟩ := h
      rw [silent_logRule hsteps]
      have hbase := ih hbase (hchildren _ (by simp [children]))
      have hbody := ih hbody (hchildren _ (by simp [children]))
      exact .of_isZero (.log hbase.1 hbody.1) rfl
    | trig function body =>
      simp only [simplify, Reducing.silent_bind, Reducing.silent_liftM] at h
      obtain ⟨body', hbody, rfl, hsteps⟩ := h
      rw [silent_trigRule hsteps]
      exact .of_isZero (.trig (ih hbody (hchildren _ (by simp [children]))).1) rfl
    | var name =>
      obtain rfl := Reducing.silent_pure.mp h
      exact .of_isZero (.var name) rfl
    | number v =>
      obtain rfl := Reducing.silent_pure.mp h
      exact ⟨.number v, fun hzero => ⟨hzero, halone hzero⟩⟩

/-- Of variables and a zero below the line the variables are put there, and the zero is
remembered. -/
theorem absorbAll_below_vars [Scalar.Lawful α] (f : Fraction α) (names : List String) :
    absorbAll .below f (names.map var ++ [zero]) =
      pure { f with denominator := f.denominator ++ names.map var, zeroDivisor := true } := by
  induction names generalizing f with
  | nil =>
    rw [List.map_nil, List.nil_append, List.append_nil, absorbAll, absorb_below_zero isZero_zero]
    rfl
  | cons name names ih =>
    rw [List.map_cons, List.cons_append, absorbAll]
    refine (ih (f.place .below (var name))).trans ?_
    simp [place]

/-- A variable divided by other variables and by zero is divided by zero alone, and no step is
noted. -/
theorem silent_over_zero [Scalar.Unital α] (fuel : Nat) (name : String) (names : List String)
    (h : name ∉ names) :
    (simplify (fuel + 3) (product .one [var name] (names.map var ++ [zero]) : Expr α)).Silent
      (product .one [var name] [zero]) := by
  let f : Fraction α :=
    { coefficient := .one, numerator := [var name], denominator := names.map var,
      zeroDivisor := true }
  have hleaves : List.Forall₂ (fun e e' : Expr α => (simplify (fuel + 2) e).Silent e')
      (names.map var ++ [zero]) (names.map var ++ [zero]) := by
    refine List.forall₂_same.mpr fun e he => ?_
    obtain he | he := List.mem_append.mp he
    · obtain ⟨name, -, rfl⟩ := List.mem_map.mp he
      rfl
    · obtain rfl := List.mem_singleton.mp he
      rfl
  have hcommon : common? f.denominator f.numerator = none := by
    refine common?_eq_none fun a ha b hb hbase => ?_
    obtain rfl := List.mem_singleton.mp ha
    obtain ⟨other, hother, rfl⟩ := List.mem_map.mp hb
    have hsame : other = name := Std.LawfulEqCmp.eq_of_compare (beq_iff.mp hbase)
    exact absurd (hsame ▸ hother) h
  have hcancel : (cancel (fuel + 1) f).Silent f := by
    rw [cancel, hcommon]
    rfl
  have hfinish : f.finish = pure (product .one [var name] [zero]) := by
    rw [finish_eq (show f.coefficient.isZero = false from Scalar.Unital.eq_one_zero)]
    show assemble .one (sort [var name]) (sort [zero]) = _
    rw [sort, sort, List.mergeSort_singleton, List.mergeSort_singleton]
    rfl
  rw [simplify]
  simp only [Reducing.silent_bind, Reducing.silent_mapList]
  refine ⟨[var name], .cons rfl .nil, _, hleaves, ?_⟩
  rw [productRule]
  simp only [Reducing.silent_bind, Reducing.silent_liftM]
  refine ⟨_, ⟨rfl, rfl⟩, f, ?_, f, hcancel, by rw [hfinish]; exact ⟨rfl, rfl⟩⟩
  rw [absorbAll_below_vars]
  exact ⟨rfl, rfl⟩

end Reduction

namespace Expr

open Reduction

/-- Every expression is simplified. If no step is noted for it and no product in it divides by a
zero and by something else, then nothing has been dropped, combined or moved: addends and factors
have been put into another order, and sums and products without parts or with a single one have been
replaced by what they stand for. -/
theorem arranged_simplified (e : Expr Float) (he : e.Everywhere ZeroAlone) :
    ∃ found, (simplified e).result? = some found ∧ (found.steps = [] → Arranged e found.value) := by
  obtain ⟨-, found, hfound, -⟩ := simplified_halts e
  refine ⟨found, hfound, fun hsteps => ?_⟩
  have hsilent : (simplify (nestingBound e.size) e).Silent found.value := by
    rw [Reducing.Silent, ← hsteps]
    exact hfound
  exact (silent_simplify hsilent he).1

/-- A variable divided by zero is left as it is. -/
theorem arranged_simplified_quotient :
    let e : Expr Float := product .one [var "x"] [zero]
    e.Everywhere ZeroAlone ∧
      ∃ found, (simplified e).result? = some found ∧ found.steps = [] ∧ Arranged e found.value := by
  intro e
  have he : e.Everywhere ZeroAlone := by
    refine everywhere_iff.mpr ⟨fun b hb _ => by rw [List.mem_singleton.mp hb], fun a ha => ?_⟩
    obtain ha | ha := List.mem_append.mp ha
    · obtain rfl := List.mem_singleton.mp ha
      exact everywhere_of_leaf rfl trivial
    · obtain rfl := List.mem_singleton.mp ha
      exact everywhere_of_leaf rfl fun _ => rfl
  have hsilent : (simplified e).Silent e := silent_over_zero _ "x" [] List.not_mem_nil
  obtain ⟨found, hfound, harranged⟩ := arranged_simplified e he
  obtain rfl : found = ⟨e, []⟩ := Option.some.inj (hfound.symm.trans hsilent)
  exact ⟨he, _, hfound, rfl, harranged rfl⟩

/-- A variable divided by another one and by zero is divided by zero alone afterwards, although no
step is noted: a divisor has been dropped. -/
theorem not_arranged_simplified :
    let e : Expr Float := product .one [var "x"] [var "y", zero]
    ∃ found, (simplified e).result? = some found ∧ found.steps = [] ∧ ¬ Arranged e found.value := by
  intro e
  have hsilent : (simplified e).Silent (product .one [var "x"] [zero]) :=
    silent_over_zero _ "x" ["y"] (by decide)
  refine ⟨_, hsilent, rfl, ?_⟩
  show ¬ Arranged (product .one [var "x"] [var "y", zero])
    (product .one [var "x"] [zero] : Expr Float)
  intro harranged
  cases harranged with
  | product _ hd _ hk =>
    have hlength := hd.length_eq.trans hk.length_eq
    cases hlength

end Expr

end SymbolicAlgebra
