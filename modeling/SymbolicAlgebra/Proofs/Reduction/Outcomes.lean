import SymbolicAlgebra.Proofs.Expr.Normal
import SymbolicAlgebra.Proofs.Scalar.Lawful
import SymbolicAlgebra.Reduction.Simplify

/-!
# Outcomes of single rules

What the rules for powers, logarithms and trigonometric functions can result in, with the conditions
under which they do. Whatever is proved of these rules is proved by going through their outcomes. The rule
for sums keeps the addends that are neither literals nor zero, puts the sum of the literals after them unless
it is zero, and sorts what it has.
-/

namespace SymbolicAlgebra.Reduction

open SymbolicAlgebra.Expr

variable {α : Type} [Scalar α]

/-- A power that follows from its base or its exponent alone, or from literals. -/
inductive PowerOutcome (base : Expr α) : Expr α → Expr α → Prop
  | exponentZero {exponent : Expr α} :
    exponent.isReal Scalar.zero = true → PowerOutcome base exponent .one
  | exponentOne {exponent : Expr α} :
    exponent.isReal Scalar.one = true → PowerOutcome base exponent base
  | baseOne {exponent : Expr α} : base.isReal Scalar.one = true → PowerOutcome base exponent .one
  | literal {exponent : Expr α} {v : α} :
    literalPower? base exponent = some v → PowerOutcome base exponent (.real v)
  | logarithm {b body : Expr α} : (b == base) = true → PowerOutcome base (.log b body) body

/-- A power that follows from its parts is one of these. -/
theorem powerOutcome {base exponent : Expr α} {found : Traced (Expr α)}
    (h : plainPower? base exponent = some found) : PowerOutcome base exponent found.value := by
  rw [plainPower?] at h
  split at h
  · rename_i hzero
    cases h
    exact .exponentZero hzero
  · split at h
    · rename_i hone
      cases h
      exact .exponentOne hone
    · split at h
      · rename_i hone
        cases h
        exact .baseOne hone
      · split at h
        · rename_i v hv
          cases h
          exact .literal hv
        · obtain ⟨body, hbody, rfl⟩ := Option.map_eq_some_iff.mp h
          cases exponent with
          | log b inside =>
            rw [logBody?] at hbody
            split at hbody
            · rename_i hb
              cases hbody
              exact .logarithm hb
            · cases hbody
          | _ => cases hbody

/-- A logarithm that follows from its definition or from literals, or that stays one. -/
inductive LogOutcome (base : Expr α) : Expr α → Expr α → Prop
  | self {body : Expr α} : (body == base) = true → LogOutcome base body .one
  | bodyOne {body : Expr α} : body.isReal Scalar.one = true → LogOutcome base body .zero
  | power {b exponent : Expr α} : (b == base) = true → LogOutcome base (.power b exponent) exponent
  | literal {body : Expr α} {x y v : α} :
    base.real? = some x → body.real? = some y → literalLog? x y = some v →
    LogOutcome base body (.real v)
  | stays {body : Expr α} : NormalLog base body → LogOutcome base body (.log base body)

/-- The rule for logarithms results in one of these. -/
theorem logOutcome (base body : Expr α) : LogOutcome base body (logRule base body).value := by
  rw [logRule]
  cases hself : body == base with
  | true => exact .self hself
  | false =>
    cases hone : body.isReal Scalar.one with
    | true => exact .bodyOne hone
    | false =>
      simp only [Bool.false_eq_true, if_false]
      cases hpower : exponentOver? base body with
      | some exponent =>
        cases body with
        | power b inside =>
          rw [exponentOver?] at hpower
          split at hpower
          · rename_i hb
            cases hpower
            exact .power hb
          · cases hpower
        | _ => cases hpower
      | none =>
        have stays : LogOutcome base body (.log base body) := by
          refine .stays ⟨hself, hone, ?_⟩
          rintro b exponent rfl
          rw [exponentOver?] at hpower
          split at hpower
          · cases hpower
          · rename_i hne
            exact Bool.eq_false_iff.mpr hne
        simp only [foldLog]
        split
        · rename_i x y hx hy
          split
          · rename_i v hv
            exact .literal hx hy hv
          · exact stays
        · exact stays

/-- A function at an angle where it is known, or that stays one. -/
inductive TrigOutcome (f : Trig) (body : Expr α) : Expr α → Prop
  | zero : body.isZero = true → TrigOutcome f body (trigAtZero f)
  | pi : (body == .constant .pi) = true → TrigOutcome f body (trigAtPi f)
  | stays : TrigOutcome f body (.trig f body)

/-- The rule for trigonometric functions results in one of these. -/
theorem trigOutcome (f : Trig) (body : Expr α) : TrigOutcome f body (trigRule f body).value := by
  rw [trigRule]
  split
  · rename_i hzero
    exact .zero hzero
  · split
    · rename_i hpi
      exact .pi hpi
    · exact .stays

/-! ### Sums taken apart -/

/-- The addends that are neither literals nor zero. -/
def keptAddends (flat : List (Expr α)) : List (Expr α) :=
  (flat.filter fun e => e.real?.isNone).filter fun e => !e.isZero

/-- The addends that are left, with the sum of the literals at the end unless it is zero. -/
def sumTerms (flat : List (Expr α)) : List (Expr α) :=
  let constant := total (flat.filterMap Expr.real?)
  if Scalar.eq constant Scalar.zero then keptAddends flat else keptAddends flat ++ [.real constant]

/-- The rule for sums sorts the addends that are left. -/
theorem sumRule_value (addends : List (Expr α)) :
    (sumRule addends).value = collapseSum (sort (sumTerms (addends.flatMap Expr.addends))) := rfl

/-- An addend that is left is one of the addends, neither a literal nor zero. -/
theorem mem_keptAddends {flat : List (Expr α)} {a : Expr α} :
    a ∈ keptAddends flat ↔ a ∈ flat ∧ a.real? = none ∧ a.isZero = false := by
  simp only [keptAddends, List.mem_filter, Option.isNone_iff_eq_none, Bool.not_eq_true',
    and_assoc]

/-- What is added up is an addend that is left or the sum of the literals. -/
theorem mem_keptAddends_or_total {flat : List (Expr α)} {a : Expr α} (h : a ∈ sumTerms flat) :
    let constant := total (flat.filterMap Expr.real?)
    a ∈ keptAddends flat ∨ a = .real constant ∧ Scalar.eq constant Scalar.zero = false := by
  rw [sumTerms] at h
  split at h
  · exact .inl h
  · rename_i hconstant
    obtain h | h := List.mem_append.mp h
    · exact .inl h
    · exact .inr ⟨List.mem_singleton.mp h, Bool.eq_false_iff.mpr hconstant⟩

/-- What is added up is an addend that is left or a literal that is not zero. -/
theorem mem_sumTerms {flat : List (Expr α)} {a : Expr α} (h : a ∈ sumTerms flat) :
    a ∈ keptAddends flat ∨
      (∃ v, a = .real v ∧ Scalar.eq v Scalar.zero = false) :=
  (mem_keptAddends_or_total h).imp_right fun htotal => ⟨_, htotal⟩

/-- Only the sum of the literals is a literal. -/
theorem countP_sumTerms (flat : List (Expr α)) :
    (sumTerms flat).countP (fun a => a.real?.isSome) ≤ 1 := by
  have hnone : (keptAddends flat).countP (fun a => a.real?.isSome) = 0 := by
    rw [List.countP_eq_zero]
    intro a ha
    simp [(mem_keptAddends.mp ha).2.1]
  rw [sumTerms]
  split
  · omega
  · rw [List.countP_append, hnone, List.countP_singleton]
    split <;> decide

/-- The sum of no literals is zero. -/
theorem total_nil [Scalar.Lawful α] : Scalar.eq (total ([] : List α)) Scalar.zero = true := by
  have hself : Scalar.order (Scalar.unsignZero (Scalar.zero : α)) (Scalar.unsignZero Scalar.zero) =
      .eq := Std.ReflCmp.compare_self
  have hzero := Scalar.Lawful.eq_zero_of_order _ hself
  rw [Scalar.Lawful.eq_unsignZero] at hzero
  rw [total, List.mergeSort_nil]
  exact hzero

end SymbolicAlgebra.Reduction
