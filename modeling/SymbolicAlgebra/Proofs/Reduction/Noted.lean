import SymbolicAlgebra.Proofs.Reduction.Logged
import SymbolicAlgebra.Proofs.Reduction.Performed

/-!
# The operations that the logs are of

Which operations with numbers the rules consist of is given by lists that are computed beside the
rules. Here they are compared with the logs of the rules: taking in a factor, finishing a product
and combining like terms make the fractions of the operations in these lists, in their order, and
besides only literals are put over one.
-/

namespace SymbolicAlgebra

variable {α β γ : Type} [Scalar α]

namespace Reduction

open Fraction

/-- The numerator and the denominator that an operation on coefficients makes a fraction of. -/
def Operation.fraction? : Operation α → Option (α × α)
  | .multiply a b => some (a.numer * b.numer, a.denom * b.denom)
  | .divide a b => some (a.numer * b.denom, a.denom * b.numer)
  | .add a b => some (a.numer * b.denom + b.numer * a.denom, a.denom * b.denom)
  | .raise c (.ofNat n) => some (Scalar.npow c.numer n, Scalar.npow c.denom n)
  | .raise c (.negSucc n) => some (Scalar.npow c.denom (n + 1), Scalar.npow c.numer (n + 1))
  | _ => none

/-- The log consists of the fractions of the operations, one after the other, and of literals over
one. -/
inductive Notes : List (α × α) → List (Operation α) → Prop
  | nil : Notes [] []
  | literal (v : α) {made : List (α × α)} {ops : List (Operation α)} : Notes made ops →
    Notes ((v, Scalar.one) :: made) ops
  | fraction {parts : α × α} {op : Operation α} {made : List (α × α)} {ops : List (Operation α)} :
    op.fraction? = some parts → Notes made ops → Notes (parts :: made) (op :: ops)
  | silent {op : Operation α} {made : List (α × α)} {ops : List (Operation α)} :
    op.fraction? = none → Notes made ops → Notes made (op :: ops)

/-- Logs one after the other are of operations one after the other. -/
theorem Notes.append {made made' : List (α × α)} {ops ops' : List (Operation α)}
    (h : Notes made ops) (h' : Notes made' ops') : Notes (made ++ made') (ops ++ ops') := by
  induction h with
  | nil => exact h'
  | literal v _ ih => exact .literal v ih
  | fraction hop _ ih => exact .fraction hop ih
  | silent hop _ ih => exact .silent hop ih

/-- What an operation makes a fraction of is in the log. -/
theorem Notes.mem {made : List (α × α)} {ops : List (Operation α)} (h : Notes made ops)
    {op : Operation α} (hop : op ∈ ops) {parts : α × α} (hparts : op.fraction? = some parts) :
    parts ∈ made := by
  induction h with
  | nil => cases hop
  | literal v _ ih => exact List.mem_cons_of_mem _ (ih hop)
  | fraction hfirst _ ih =>
    obtain rfl | hop := List.mem_cons.mp hop
    · rw [hparts, Option.some.injEq] at hfirst
      exact hfirst ▸ List.mem_cons_self
    · exact List.mem_cons_of_mem _ (ih hop)
  | silent hfirst _ ih =>
    obtain rfl | hop := List.mem_cons.mp hop
    · rw [hparts] at hfirst
      cases hfirst
    · exact ih hop

end Reduction

namespace Logged

open Reduction Reduction.Fraction

omit [Scalar α] in
/-- The log of rules that make no fraction is empty. -/
theorem returns_after {x : Traced β} {f : β → Logged α γ} {c : γ} {made : List (α × α)} :
    (liftM x >>= f).Returns c made ↔ (f x.value).Returns c made := by
  rw [returns_bind]
  constructor
  · rintro ⟨b, first, second, ⟨_, ⟨⟩, hb⟩, hsecond, rfl⟩
    obtain ⟨rfl, rfl⟩ := Prod.mk.inj hb
    exact hsecond
  · exact fun h => ⟨x.value, [], made, ⟨_, rfl, rfl⟩, h, rfl⟩

omit [Scalar α] in
/-- The log of a rule that makes no fraction is empty. -/
theorem returns_liftM {x : Traced β} {b : β} {made : List (α × α)} :
    (liftM x : Logged α β).Returns b made ↔ x.value = b ∧ made = [] := by
  constructor
  · rintro ⟨_, ⟨⟩, h⟩
    obtain ⟨rfl, rfl⟩ := Prod.mk.inj h
    exact ⟨rfl, rfl⟩
  · rintro ⟨rfl, rfl⟩
    exact ⟨_, rfl, rfl⟩

/-- The log of making a fraction is that fraction. -/
theorem returns_fraction {numer denom : α} {c : Coefficient α} {made : List (α × α)} :
    (fraction numer denom).Returns c made ↔
      c = .ofFraction numer denom ∧ made = [(numer, denom)] := by
  refine Reducing.returns_pure.trans ?_
  rw [Prod.mk.injEq, eq_comm, eq_comm (b := made)]

/-- The log of raising a coefficient is the operation by which it is raised. -/
theorem returns_zpow {c c' : Coefficient α} {k : Int} {made : List (α × α)}
    (h : (zpow c k).Returns c' made) : c' = c.zpow k ∧ Notes made [.raise c k] := by
  cases k with
  | ofNat n =>
    obtain ⟨rfl, rfl⟩ := returns_fraction.mp h
    exact ⟨rfl, .fraction rfl .nil⟩
  | negSucc n =>
    obtain ⟨rfl, rfl⟩ := returns_fraction.mp h
    exact ⟨rfl, .fraction rfl .nil⟩

/-- The log of scaling is the operation by which the coefficient is scaled. -/
theorem returns_scale {side : Side} {c : Coefficient α} {f g : Fraction α} {made : List (α × α)}
    (h : (scale side c f).Returns g made) : g = f.scale side c ∧ Notes made [f.scaling side c] := by
  cases side with
  | above =>
    obtain ⟨_, first, second, hfirst, hsecond, rfl⟩ := returns_bind.mp h
    obtain ⟨rfl, rfl⟩ := returns_fraction.mp hfirst
    obtain ⟨rfl, rfl⟩ := returns_pure.mp hsecond
    exact ⟨rfl, .fraction rfl .nil⟩
  | below =>
    obtain ⟨_, first, second, hfirst, hsecond, rfl⟩ := returns_bind.mp h
    obtain ⟨rfl, rfl⟩ := returns_fraction.mp hfirst
    obtain ⟨rfl, rfl⟩ := returns_pure.mp hsecond
    exact ⟨rfl, .fraction rfl .nil⟩

mutual

/-- The log of taking in a factor consists of the operations by which its numbers get into the
coefficient. -/
theorem returns_absorb {side : Side} {f g : Fraction α} {e : Expr α} {made : List (α × α)}
    (h : (absorb side f e).Returns g made) :
    g = (Fraction.absorb side f e).value ∧ Notes made (scalings side f e) := by
  cases e with
  | number v =>
    cases v with
    | real v =>
      rw [absorb] at h
      rw [Fraction.absorb, scalings]
      split at h
      · rename_i hzero
        obtain ⟨rfl, rfl⟩ := returns_pure.mp h
        rw [if_pos hzero, if_pos hzero]
        exact ⟨rfl, .nil⟩
      · rename_i hzero
        replace h := returns_after.mp h
        obtain ⟨c, first, second, hfirst, hsecond, rfl⟩ := returns_bind.mp h
        obtain ⟨rfl, rfl⟩ := returns_fraction.mp hfirst
        obtain ⟨rfl, hnotes⟩ := returns_scale hsecond
        rw [if_neg hzero, if_neg hzero]
        exact ⟨rfl, .literal v hnotes⟩
    | constant c =>
      obtain ⟨rfl, rfl⟩ := returns_pure.mp h
      exact ⟨rfl, .nil⟩
  | product c n d =>
    rw [absorb] at h
    rw [Fraction.absorb, scalings]
    split at h
    · rename_i hzero
      obtain ⟨rfl, rfl⟩ := returns_pure.mp h
      rw [if_pos hzero, if_pos hzero]
      exact ⟨rfl, .nil⟩
    · rename_i hzero
      replace h := returns_after.mp h
      obtain ⟨_, first, rest, hfirst, hrest, rfl⟩ := returns_bind.mp h
      obtain ⟨rfl, hscaling⟩ := returns_scale hfirst
      obtain ⟨_, above, below, habove, hbelow, rfl⟩ := returns_bind.mp hrest
      obtain ⟨rfl, hupper⟩ := returns_absorbAll habove
      obtain ⟨rfl, hlower⟩ := returns_absorbAll hbelow
      rw [if_neg hzero, if_neg hzero]
      exact ⟨rfl, hscaling.append (hupper.append hlower)⟩
  | _ =>
    obtain ⟨rfl, rfl⟩ := returns_pure.mp h
    exact ⟨rfl, .nil⟩

/-- The log of taking in factors consists of the operations by which their numbers get into the
coefficient. -/
theorem returns_absorbAll {side : Side} {f g : Fraction α} {es : List (Expr α)}
    {made : List (α × α)} (h : (absorbAll side f es).Returns g made) :
    g = (Fraction.absorbAll side f es).value ∧ Notes made (scalingsAll side f es) := by
  cases es with
  | nil =>
    obtain ⟨rfl, rfl⟩ := returns_pure.mp h
    exact ⟨rfl, .nil⟩
  | cons e es =>
    rw [absorbAll] at h
    obtain ⟨_, first, rest, hfirst, hrest, rfl⟩ := returns_bind.mp h
    obtain ⟨rfl, hone⟩ := returns_absorb hfirst
    obtain ⟨rfl, hall⟩ := returns_absorbAll hrest
    exact ⟨rfl, hone.append hall⟩

end

/-- The log of taking an expression apart has at most a literal. -/
theorem returns_scaleParts {e : Expr α} {parts : Coefficient α × Expr α} {made : List (α × α)}
    (h : (scaleParts e).Returns parts made) : parts = e.scaleParts ∧ Notes made [] := by
  unfold scaleParts at h
  split at h
  · rename_i v
    obtain ⟨c, first, second, hfirst, hsecond, rfl⟩ := returns_bind.mp h
    obtain ⟨rfl, rfl⟩ := returns_fraction.mp hfirst
    obtain ⟨rfl, rfl⟩ := returns_pure.mp hsecond
    exact ⟨rfl, .literal v .nil⟩
  · obtain ⟨rfl, rfl⟩ := returns_pure.mp h
    exact ⟨rfl, .nil⟩

/-- The log of multiplying a coefficient into addends consists of its multiplications with
theirs. -/
theorem returns_distribute {c : Coefficient α} {addends es : List (Expr α)} {made : List (α × α)}
    (h : (distribute c addends).Returns es made) : es = Fraction.distribute c addends ∧
      Notes made (addends.map fun a => .multiply c a.scaleParts.1) := by
  induction addends generalizing es made with
  | nil =>
    obtain ⟨rfl, rfl⟩ := returns_pure.mp h
    exact ⟨rfl, .nil⟩
  | cons a addends ih =>
    obtain ⟨e, first, second, hfirst, hsecond, rfl⟩ := returns_bind.mp h
    obtain ⟨parts, literals, rest, hparts, hrest, rfl⟩ := returns_bind.mp hfirst
    obtain ⟨product, fractions, last, hproduct, hlast, rfl⟩ := returns_bind.mp hrest
    obtain ⟨rfl, hliterals⟩ := returns_scaleParts hparts
    obtain ⟨rfl, rfl⟩ := returns_fraction.mp hproduct
    obtain ⟨rfl, rfl⟩ := returns_pure.mp hlast
    obtain ⟨others, more, last, hothers, hlast, rfl⟩ := returns_bind.mp hsecond
    obtain ⟨rfl, hmore⟩ := ih hothers
    obtain ⟨rfl, rfl⟩ := returns_pure.mp hlast
    refine ⟨rfl, ?_⟩
    have hparts : (Operation.multiply c a.scaleParts.1).fraction? =
        some (c.numer * a.scaleParts.1.numer, c.denom * a.scaleParts.1.denom) := rfl
    simp only [List.append_nil]
    exact (hliterals.append (.fraction hparts .nil)).append hmore

/-- The log of finishing a product consists of the operations by which its coefficient is multiplied
into a sum, which is not done if the coefficient is zero or one. -/
theorem returns_finish {f : Fraction α} {e : Expr α} {made : List (α × α)}
    (h : (finish f).Returns e made) :
    Notes made (if f.coefficient.isZero || f.coefficient.isOne then [] else f.distributions) := by
  rw [finish] at h
  split at h
  · rename_i hzero
    replace h := returns_after.mp h
    obtain ⟨-, rfl⟩ := returns_pure.mp h
    rw [hzero]
    exact .nil
  · rename_i hzero
    rw [Bool.eq_false_iff.mpr hzero, Bool.false_or, distributions]
    dsimp only at h
    rw [show (if f.zeroDivisor then [.zero] else f.denominator) = f.divisors from rfl] at h
    generalize Expr.sort f.numerator = n at h ⊢
    generalize Expr.sort f.divisors = d at h ⊢
    split at h
    · rename_i addends
      split at h
      · rename_i hone
        obtain ⟨-, rfl⟩ := returns_pure.mp h
        rw [if_pos hone]
        exact .nil
      · rename_i hone
        replace h := returns_after.mp h
        obtain ⟨es, first, second, hfirst, hsecond, rfl⟩ := returns_bind.mp h
        obtain ⟨rfl, hnotes⟩ := returns_distribute hfirst
        obtain ⟨-, rfl⟩ := returns_liftM.mp hsecond
        rw [if_neg hone, List.append_nil]
        exact .silent rfl hnotes
    · obtain ⟨-, rfl⟩ := returns_pure.mp h
      simp only [ite_self]
      exact .nil

/-- The log of adding a term to those before it consists of the addition, if there is one. -/
theorem returns_addTerm {c : Coefficient α} {key : Expr α}
    {terms terms' : List (Coefficient α × Expr α)} {made : List (α × α)}
    (h : (addTerm c key terms).Returns terms' made) :
    terms' = Reduction.addTerm c key terms ∧ Notes made (termAdditions c key terms) := by
  induction terms generalizing terms' made with
  | nil =>
    obtain ⟨rfl, rfl⟩ := returns_pure.mp h
    exact ⟨rfl, .nil⟩
  | cons term terms ih =>
    rw [addTerm] at h
    rw [Reduction.addTerm, termAdditions]
    split at h
    · rename_i hsame
      obtain ⟨total, first, last, htotal, hlast, rfl⟩ := returns_bind.mp h
      obtain ⟨rfl, rfl⟩ := returns_fraction.mp htotal
      obtain ⟨rfl, rfl⟩ := returns_pure.mp hlast
      rw [if_pos hsame, if_pos hsame]
      exact ⟨rfl, .fraction rfl .nil⟩
    · rename_i hother
      obtain ⟨rest, first, last, hrest, hlast, rfl⟩ := returns_bind.mp h
      obtain ⟨rfl, hnotes⟩ := ih hrest
      obtain ⟨rfl, rfl⟩ := returns_pure.mp hlast
      rw [if_neg hother, if_neg hother, List.append_nil]
      exact ⟨rfl, hnotes⟩

/-- The log of combining addends with terms before them consists of the additions by which they are
combined. -/
theorem returns_foldList_addTerm {terms terms' : List (Coefficient α × Expr α)}
    {addends : List (Expr α)} {made : List (α × α)}
    (h : (foldList (fun terms e => scaleParts e >>= fun parts => addTerm parts.1 parts.2 terms) terms
      addends).Returns terms' made) : Notes made (additions terms addends) := by
  induction addends generalizing terms terms' made with
  | nil =>
    obtain ⟨-, rfl⟩ := returns_pure.mp h
    exact .nil
  | cons e addends ih =>
    obtain ⟨next, first, rest, hnext, hrest, rfl⟩ := returns_bind.mp h
    obtain ⟨parts, literals, last, hparts, hlast, rfl⟩ := returns_bind.mp hnext
    obtain ⟨rfl, hliterals⟩ := returns_scaleParts hparts
    obtain ⟨rfl, hterm⟩ := returns_addTerm hlast
    exact (hliterals.append hterm).append (ih hrest)

/-- The log of combining like terms consists of the additions by which they are combined. -/
theorem returns_mergeAddends {addends es : List (Expr α)} {made : List (α × α)}
    (h : (mergeAddends addends).Returns es made) : Notes made (additions [] addends) := by
  obtain ⟨terms, first, last, hterms, hlast, rfl⟩ := returns_bind.mp h
  replace hlast := returns_after.mp hlast
  obtain ⟨-, rfl⟩ := returns_pure.mp hlast
  rw [List.append_nil]
  exact returns_foldList_addTerm hterms

end Logged

namespace Reduction

open SymbolicAlgebra.Expr Fraction

/-- A fraction in the log is that of one of the operations, or it is a literal over one. -/
theorem Notes.cases_mem {made : List (α × α)} {ops : List (Operation α)} (h : Notes made ops)
    {parts : α × α} (hmem : parts ∈ made) :
    parts.2 = Scalar.one ∨ ∃ op ∈ ops, op.fraction? = some parts := by
  induction h with
  | nil => cases hmem
  | literal v _ ih =>
    obtain rfl | hmem := List.mem_cons.mp hmem
    · exact .inl rfl
    · exact ih hmem
  | fraction hop _ ih =>
    obtain rfl | hmem := List.mem_cons.mp hmem
    · exact .inr ⟨_, List.mem_cons_self, hop⟩
    · exact (ih hmem).imp_right fun ⟨op, hmem, hop⟩ => ⟨op, List.mem_cons_of_mem _ hmem, hop⟩
  | silent _ _ ih =>
    exact (ih hmem).imp_right fun ⟨op, hmem, hop⟩ => ⟨op, List.mem_cons_of_mem _ hmem, hop⟩

namespace Call

/-- The call performs the operation, or it raises the coefficient of a product only to see whether
the power is finite. -/
inductive Tries : Call α → Operation α → Prop
  | performs {call : Call α} {op : Operation α} : call.Performs op → Tries call op
  | probe {c : Coefficient α} {n d : List (Expr α)} {exponent : Expr α} {k : Int} :
    plainPower? (.product c n d) exponent = none → exponent.isNegative = false →
    wholeExponent? exponent = some k → Tries (power (.product c n d) exponent) (.raise c k)

/-- The fraction is that of an operation that the call tries, by itself or by the calls that it
makes, or it is a literal over one. -/
def Sources (call : Call α) (parts : α × α) : Prop :=
  parts.2 = Scalar.one ∨ ∃ callee op,
    Relation.ReflTransGen Makes call callee ∧ callee.Tries op ∧ op.fraction? = some parts

/-- What a call that is made is the source of, the call that makes it is. -/
theorem Sources.of_makes {caller callee : Call α} (h : Makes caller callee) (parts : α × α) :
    callee.Sources parts → caller.Sources parts :=
  Or.imp_right fun ⟨other, op, hreach, hop⟩ => ⟨other, op, .head h hreach, hop⟩

/-- A call is the source of the fractions of the operations that it performs itself. -/
theorem sources_of_notes {call : Call α} {ops : List (Operation α)}
    (hops : ∀ op ∈ ops, call.Performs op) {made : List (α × α)} (h : Notes made ops) :
    ∀ parts ∈ made, call.Sources parts := by
  intro parts hmem
  obtain hone | ⟨op, hop, hparts⟩ := h.cases_mem hmem
  · exact .inl hone
  · exact .inr ⟨call, op, .refl, .performs (hops op hop), hparts⟩

end Call

open Logged

/-- What is made while a factor is taken in comes from a call that performs the operations for
it. -/
theorem ensures_sources_absorb {call : Call α} {side : Side} {f : Fraction α} {e : Expr α}
    (hops : ∀ op ∈ scalings side f e, call.Performs op) :
    (Logged.absorb side f e).Ensures call.Sources (· = (Fraction.absorb side f e).value) := by
  intro g made h
  obtain ⟨rfl, hnotes⟩ := returns_absorb h
  exact ⟨rfl, Call.sources_of_notes hops hnotes⟩

/-- What is made while factors are taken in comes from a call that performs the operations for
it. -/
theorem ensures_sources_absorbAll {call : Call α} {side : Side} {f : Fraction α}
    {es : List (Expr α)} (hops : ∀ op ∈ scalingsAll side f es, call.Performs op) :
    (Logged.absorbAll side f es).Ensures call.Sources
      (· = (Fraction.absorbAll side f es).value) := by
  intro g made h
  obtain ⟨rfl, hnotes⟩ := returns_absorbAll h
  exact ⟨rfl, Call.sources_of_notes hops hnotes⟩

/-- The log of raising a coefficient is the operation by which it is raised. -/
theorem ensures_sources_zpow {call : Call α} {c : Coefficient α} {k : Int}
    (h : call.Tries (.raise c k)) :
    (Logged.zpow c k).Ensures call.Sources (· = c.zpow k) := by
  intro _ made hmade
  obtain ⟨rfl, hnotes⟩ := returns_zpow hmade
  refine ⟨rfl, fun parts hmem => ?_⟩
  obtain hone | ⟨op, hop, hparts⟩ := hnotes.cases_mem hmem
  · exact .inl hone
  · obtain rfl := List.mem_singleton.mp hop
    exact .inr ⟨call, _, .refl, h, hparts⟩

/-- Under the bound, all fractions that the rules for powers and products and the pass that applies
all rules make come from operations that they try, or from literals. -/
structure SourcedRules (α : Type) [Scalar α] (fuel : Nat) : Prop where
  power (base exponent : Expr α) : (Logged.powerRule fuel base exponent).Ensures
    (Call.power base exponent).Sources (Raises base exponent)
  cancel (f : Fraction α) : (Logged.cancel fuel f).Ensures (Call.cancel f).Sources (Reduces f)
  product (c : Coefficient α) (n d : List (Expr α)) : (Logged.productRule fuel c n d).Ensures
    (Call.product c n d).Sources (Multiplies c n d)
  simplify (e : Expr α) : (Logged.simplify fuel e).Ensures (Call.simplify e).Sources (Simplifies e)

namespace SourcedRules

variable {fuel : Nat} (ih : SourcedRules α fuel)

include ih

/-- A power has its sources in operations if what the calls that are made for it make has. -/
theorem power_succ (base exponent : Expr α) : (Logged.powerRule (fuel + 1) base exponent).Ensures
    (Call.power base exponent).Sources (Raises base exponent) := by
  refine Ensures.of_erase (p := fun _ => True) ?_ fun e he =>
    ⟨fuel + 1, (erase_rules _).1 base exponent ▸ he⟩
  unfold Logged.powerRule
  cases hplain : plainPower? base exponent with
  | some found => exact ensures_silent fun _ _ => trivial
  | none =>
    dsimp only
    split
    · rename_i hneg
      refine .after (((ih.simplify _).imp (.of_makes (.unsign hplain hneg))).bind
        fun positive hpositive => ?_)
      refine ((ih.power base positive).imp (.of_makes (.relocate hplain hneg hpositive))).bind
        fun moved hmoved => ?_
      exact ((ih.product _ _ _).imp (.of_makes (.invert hplain hneg hpositive hmoved))).of_erase
        fun _ _ => trivial
    · rename_i hneg
      replace hneg := Bool.eq_false_iff.mpr hneg
      split
      · rename_i k inner inside hwhole
        refine .after (((ih.product _ _ _).imp (.of_makes (.fold hplain hneg hwhole))).bind
          fun folded hfolded => ?_)
        exact ((ih.power inner folded).imp (.of_makes (.nest hplain hneg hwhole hfolded))).of_erase
          fun _ _ => trivial
      · rename_i k c n d hwhole
        have hraise := ensures_sources_zpow (.probe hplain hneg hwhole)
        refine hraise.bind ?_
        rintro _ rfl
        split
        · rename_i hfinite
          have hfactors {es : List (Expr α)} (hes : ∀ e ∈ es, e ∈ n ++ d) :
              (Logged.mapList
                (fun e => Logged.powerRule fuel e (.real (Scalar.ofInt k))) es).Ensures
                (Call.power (.product c n d) exponent).Sources
                (List.Forall₂ (fun a b => Raises a (.real (Scalar.ofInt k)) b) es) :=
            ensures_forall₂ fun e he => (ih.power e (.real (Scalar.ofInt k))).imp
              (.of_makes (.spread hplain hneg hwhole hfinite (hes e he)))
          refine .after ((hfactors fun e he => List.mem_append_left d he).bind fun n' hn => ?_)
          refine (hfactors fun e he => List.mem_append_right n he).bind fun d' hd => ?_
          refine hraise.bind ?_
          rintro _ rfl
          exact ((ih.product _ n' d').imp
            (.of_makes (.collect hplain hneg hwhole hfinite hn hd))).of_erase fun _ _ => trivial
        · exact ensures_pure trivial
      · exact ensures_pure trivial

/-- A cancellation has its sources in operations if what the calls that are made for it make has. -/
theorem cancel_succ (f : Fraction α) :
    (Logged.cancel (fuel + 1) f).Ensures (Call.cancel f).Sources (Reduces f) := by
  refine Ensures.of_erase (p := fun _ => True) ?_ fun g hg => ⟨fuel + 1, (erase_rules _).2.1 f ▸ hg⟩
  rw [Logged.cancel]
  cases hcommon : common? f.denominator f.numerator with
  | none => exact ensures_pure trivial
  | some common =>
    have restored {side : Side} {exponent : Expr α} (hleaves : common.Leaves side exponent) :
        (Logged.powerRule fuel common.base exponent >>= fun factor =>
          Logged.absorb side (f.without common) factor >>= Logged.cancel fuel).Ensures
            (Call.cancel f).Sources fun _ => True := by
      refine ((ih.power _ _).imp (.of_makes (.leave hcommon hleaves))).bind fun factor hfactor => ?_
      refine (ensures_sources_absorb fun op hop => .restore hcommon hleaves hfactor hop).bind ?_
      rintro _ rfl
      exact ((ih.cancel _).imp (.of_makes (.restore hcommon hleaves hfactor))).of_erase
        fun _ _ => trivial
    dsimp only
    refine .after ?_
    split
    · rename_i u l hu hl
      split
      · rename_i hpos
        exact restored (.above hu hl hpos)
      · rename_i hpos
        replace hpos := Bool.eq_false_iff.mpr hpos
        split
        · rename_i hneg
          exact restored (.below hu hl hpos hneg)
        · rename_i hneg
          replace hneg := Bool.eq_false_iff.mpr hneg
          exact ((ih.cancel _).imp (.of_makes (.drop hcommon hu hl hpos hneg))).of_erase
            fun _ _ => trivial
    · rename_i hnone
      refine .after (restored (.symbolic ?_))
      cases hu : common.upper.real? with
      | none => exact .inl rfl
      | some u =>
        cases hl : common.lower.real? with
        | none => exact .inr rfl
        | some l => exact (hnone u l hu hl).elim

/-- A product has its sources in operations if what the calls that are made for it make has. -/
theorem product_succ (c : Coefficient α) (n d : List (Expr α)) :
    (Logged.productRule (fuel + 1) c n d).Ensures (Call.product c n d).Sources
      (Multiplies c n d) := by
  refine Ensures.of_erase (p := fun _ => True) ?_ fun e he =>
    ⟨fuel + 1, (erase_rules _).2.2.1 c n d ▸ he⟩
  rw [Logged.productRule]
  refine (ensures_sources_absorbAll fun op hop => .above hop).bind ?_
  rintro _ rfl
  refine (ensures_sources_absorbAll fun op hop => .below hop).bind ?_
  rintro _ rfl
  refine ((ih.cancel (gather c n d)).imp (.of_makes .gather)).bind fun f hf => fun e made he => ?_
  refine ⟨trivial, Call.sources_of_notes (fun op hop => ?_) (returns_finish he)⟩
  split at hop
  · cases hop
  · rename_i hother
    rw [Bool.or_eq_true, not_or, Bool.not_eq_true, Bool.not_eq_true] at hother
    exact .distribute hf hother.1 hother.2 hop

/-- The pass that applies all rules has its sources in operations if what the calls that are made
for it make has. -/
theorem simplify_succ (e : Expr α) :
    (Logged.simplify (fuel + 1) e).Ensures (Call.simplify e).Sources (Simplifies e) := by
  refine Ensures.of_erase (p := fun _ => True) ?_ fun s hs =>
    ⟨fuel + 1, (erase_rules _).2.2.2 e ▸ hs⟩
  have child {a : Expr α} (ha : a ∈ e.children) :
      (Logged.simplify fuel a).Ensures (Call.simplify e).Sources (Simplifies a) :=
    (ih.simplify a).imp (.of_makes (.child ha))
  cases e with
  | sum as => exact (ensures_forall₂ fun a ha => child ha).bind fun _ _ => ensures_liftM trivial
  | product c n d =>
    refine (ensures_forall₂ fun a ha => child (List.mem_append_left d ha)).bind fun n' hn => ?_
    refine (ensures_forall₂ fun a ha => child (List.mem_append_right n ha)).bind fun d' hd => ?_
    exact ((ih.product c n' d').imp (.of_makes (.multiply hn hd))).of_erase fun _ _ => trivial
  | power base exponent =>
    refine (child (by simp [children])).bind fun base' hbase => ?_
    refine (child (by simp [children])).bind fun exponent' hexponent => ?_
    exact ((ih.power base' exponent').imp (.of_makes (.raise hbase hexponent))).of_erase
      fun _ _ => trivial
  | log base body =>
    refine (child (by simp [children])).bind fun base' _ => ?_
    exact (child (by simp [children])).bind fun body' _ => ensures_liftM trivial
  | trig f body => exact (child (by simp [children])).bind fun body' _ => ensures_liftM trivial
  | var name => exact ensures_pure trivial
  | number v => exact ensures_pure trivial

end SourcedRules

/-- All fractions that the rules for powers and products and the pass that applies all rules make
come from operations that they try, or from literals. -/
theorem sourcedRules (fuel : Nat) : SourcedRules α fuel := by
  induction fuel with
  | zero =>
    exact ⟨fun _ _ => ensures_exhausted, fun _ => ensures_exhausted, fun _ _ _ => ensures_exhausted,
      fun _ => ensures_exhausted⟩
  | succ fuel ih => exact ⟨ih.power_succ, ih.cancel_succ, ih.product_succ, ih.simplify_succ⟩

/-- The log of a run of the call. -/
def Call.Logs : Call α → List (α × α) → Prop
  | .power base exponent, made => ∃ fuel e, (Logged.powerRule fuel base exponent).Returns e made
  | .cancel f, made => ∃ fuel g, (Logged.cancel fuel f).Returns g made
  | .product c n d, made => ∃ fuel e, (Logged.productRule fuel c n d).Returns e made
  | .simplify e, made => ∃ fuel s, (Logged.simplify fuel e).Returns s made

/-- A run of the rule for powers raises the coefficient of a product first, to see whether its power
is finite. -/
theorem exists_raised {c : Coefficient α} {n d : List (Expr α)} {exponent : Expr α} {k : Int}
    (hplain : plainPower? (.product c n d) exponent = none) (hneg : exponent.isNegative = false)
    (hwhole : wholeExponent? exponent = some k) {made : List (α × α)}
    (hrun : (Call.power (.product c n d) exponent).Logs made) :
    ∃ first rest, Notes first [.raise c k] ∧ made = first ++ rest := by
  obtain ⟨fuel | fuel, e, he⟩ := hrun
  · obtain ⟨_, ⟨⟩, _⟩ := he
  unfold Logged.powerRule at he
  simp only [hplain, hneg, hwhole, Bool.false_eq_true, if_false] at he
  obtain ⟨power, first, rest, hfirst, -, rfl⟩ := Logged.returns_bind.mp he
  exact ⟨first, rest, (returns_zpow hfirst).2, rfl⟩

/-- A run of the cancellation that puts a factor back takes the factor in after it is made. -/
theorem exists_restored {f : Fraction α} {common : Common α} {side : Side}
    {exponent factor : Expr α} (hcommon : common? f.denominator f.numerator = some common)
    (hleaves : common.Leaves side exponent) (hfactor : Raises common.base exponent factor)
    {made : List (α × α)} (hrun : (Call.cancel f).Logs made) :
    ∃ first second third, Notes second (scalings side (f.without common) factor) ∧
      made = first ++ (second ++ third) := by
  obtain ⟨fuel | fuel, g, h⟩ := hrun
  · obtain ⟨_, ⟨⟩, _⟩ := h
  rw [Logged.cancel] at h
  simp only [hcommon] at h
  replace h := returns_after.mp h
  have hrestored : ((do
      let factor ← Logged.powerRule fuel common.base exponent
      let f ← Logged.absorb side (f.without common) factor
      Logged.cancel fuel f) : Logged α (Fraction α)).Returns g made := by
    cases hleaves with
    | above hu hl hpos =>
      simp only [hu, hl, hpos, if_true] at h
      exact h
    | below hu hl hpos hneg =>
      simp only [hu, hl, hpos, hneg, if_true, Bool.false_eq_true, if_false] at h
      exact h
    | symbolic hnone =>
      split at h
      · rename_i u l hu hl
        rw [hu, hl] at hnone
        obtain h | h := hnone <;> cases h
      · exact returns_after.mp h
  obtain ⟨factor', first, rest, hraised, hrest, rfl⟩ := Logged.returns_bind.mp hrestored
  obtain ⟨next, second, third, habsorbed, -, rfl⟩ := Logged.returns_bind.mp hrest
  have hraises : Raises common.base exponent factor' :=
    ⟨fuel, (erase_rules (α := α) fuel).1 _ _ ▸ returns_erase.mpr ⟨first, hraised⟩⟩
  rw [hfactor.unique hraises]
  exact ⟨first, second, third, (returns_absorb habsorbed).2, rfl⟩

/-- A run of the rule for products takes in the factors, then the divisors, and finishes the product
after the cancellation. -/
theorem exists_multiplied {c : Coefficient α} {n d : List (Expr α)} {made : List (α × α)}
    (hrun : (Call.product c n d).Logs made) :
    ∃ (f : Fraction α) (e : Expr α) (above below between last : List (α × α)),
      Notes above (scalingsAll .above { coefficient := c } n) ∧
      Notes below (scalingsAll .below (Fraction.absorbAll .above { coefficient := c } n).value d) ∧
      Reduces (gather c n d) f ∧ (Logged.finish f).Returns e last ∧
      made = above ++ (below ++ (between ++ last)) := by
  obtain ⟨fuel | fuel, e, he⟩ := hrun
  · obtain ⟨_, ⟨⟩, _⟩ := he
  obtain ⟨f, above, rest, habove, hrest, rfl⟩ := Logged.returns_bind.mp he
  obtain ⟨rfl, hupper⟩ := returns_absorbAll habove
  obtain ⟨g, below, rest, hbelow, hrest, rfl⟩ := Logged.returns_bind.mp hrest
  obtain ⟨rfl, hlower⟩ := returns_absorbAll hbelow
  obtain ⟨f, between, last, hcancel, hlast, rfl⟩ := Logged.returns_bind.mp hrest
  have hreduces : Reduces (gather c n d) f :=
    ⟨fuel, (erase_rules (α := α) fuel).2.1 _ ▸ returns_erase.mpr ⟨between, hcancel⟩⟩
  exact ⟨f, e, above, below, between, last, hupper, hlower, hreduces, hlast, rfl⟩

/-- The fraction that an operation makes is in the log of the call that tries it. -/
theorem Call.Tries.mem {call : Call α} {op : Operation α} (h : call.Tries op) {parts : α × α}
    (hparts : op.fraction? = some parts) {made : List (α × α)} (hrun : call.Logs made) :
    parts ∈ made := by
  cases h with
  | probe hplain hneg hwhole =>
    obtain ⟨first, rest, hnotes, rfl⟩ := exists_raised hplain hneg hwhole hrun
    exact List.mem_append_left _ (hnotes.mem (List.mem_singleton_self _) hparts)
  | performs h =>
    cases h with
    | raise hplain hneg hwhole _ =>
      obtain ⟨first, rest, hnotes, rfl⟩ := exists_raised hplain hneg hwhole hrun
      exact List.mem_append_left _ (hnotes.mem (List.mem_singleton_self _) hparts)
    | restore hcommon hleaves hfactor hop =>
      obtain ⟨first, second, third, hnotes, rfl⟩ :=
        exists_restored hcommon hleaves hfactor hrun
      exact List.mem_append_right _ (List.mem_append_left _ (hnotes.mem hop hparts))
    | above hop =>
      obtain ⟨f, e, above, below, between, last, hupper, -, -, -, rfl⟩ := exists_multiplied hrun
      exact List.mem_append_left _ (hupper.mem hop hparts)
    | below hop =>
      obtain ⟨f, e, above, below, between, last, -, hlower, -, -, rfl⟩ := exists_multiplied hrun
      exact List.mem_append_right _ (List.mem_append_left _ (hlower.mem hop hparts))
    | distribute hf hzero hone hop =>
      obtain ⟨f, e, above, below, between, last, -, -, hg, hlast, rfl⟩ := exists_multiplied hrun
      obtain rfl := hg.unique hf
      have hnotes := returns_finish hlast
      rw [hzero, hone] at hnotes
      have hmem := hnotes.mem hop hparts
      exact List.mem_append_right _ (List.mem_append_right _ (List.mem_append_right _ hmem))
    | _ => cases hparts

/-- The log of a call has the fractions of all operations that it performs itself, and besides only
those that it makes to see whether a power is finite, those of the calls that it makes, and literals
over one. -/
theorem Call.Logs.of_operations {call : Call α} {made : List (α × α)} (h : call.Logs made) :
    (∀ op parts, call.Performs op → op.fraction? = some parts → parts ∈ made) ∧
      ∀ parts ∈ made, call.Sources parts := by
  refine ⟨fun op parts hop hparts => (Call.Tries.performs hop).mem hparts h, ?_⟩
  cases call with
  | power base exponent =>
    obtain ⟨fuel, e, he⟩ := h
    exact ((sourcedRules fuel).power base exponent e made he).2
  | cancel f =>
    obtain ⟨fuel, g, hg⟩ := h
    exact ((sourcedRules fuel).cancel f g made hg).2
  | product c n d =>
    obtain ⟨fuel, e, he⟩ := h
    exact ((sourcedRules fuel).product c n d e made he).2
  | simplify e =>
    obtain ⟨fuel, s, hs⟩ := h
    exact ((sourcedRules fuel).simplify e s made hs).2

end Reduction

end SymbolicAlgebra
