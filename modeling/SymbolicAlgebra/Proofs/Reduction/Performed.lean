import SymbolicAlgebra.Proofs.Reduction.Calls
import SymbolicAlgebra.Proofs.Reduction.Operations
import SymbolicAlgebra.Proofs.Reduction.Settling

/-!
# Operations of a run

Which operations with numbers a call performs, by itself and by the calls that it makes, is a relation, and so
is which ones the pass that combines like parts performs, and a whole run of rounds. What is to be said of a
result can then be said under a condition on the operations that led to it.
-/

namespace SymbolicAlgebra.Reduction

open SymbolicAlgebra.Expr Fraction

variable {α : Type} [Scalar α]

namespace Call

/-- The call performs the operation, by itself and not by a call in between. -/
inductive Performs : Call α → Operation α → Prop
  | fold {base exponent : Expr α} {found : Traced (Expr α)} : plainPower? base exponent = some found →
    Performs (power base exponent) (.power base exponent)
  | raise {c : Coefficient α} {n d : List (Expr α)} {exponent : Expr α} {k : Int} :
    plainPower? (.product c n d) exponent = none → exponent.isNegative = false →
    wholeExponent? exponent = some k → Scalar.isFinite (c.zpow k).value = true →
    Performs (power (.product c n d) exponent) (.raise c k)
  | subtract {f : Fraction α} {common : Common α} {u l : α} :
    common? f.denominator f.numerator = some common → common.upper.real? = some u →
    common.lower.real? = some l → Performs (cancel f) (.subtract u l)
  | difference {f : Fraction α} {common : Common α} :
    common? f.denominator f.numerator = some common →
    common.upper.real? = none ∨ common.lower.real? = none →
    Performs (cancel f) (.difference common.upper common.lower)
  | restore {f : Fraction α} {common : Common α} {side : Side} {exponent factor : Expr α}
    {op : Operation α} : common? f.denominator f.numerator = some common →
    common.Leaves side exponent → Raises common.base exponent factor →
    op ∈ scalings side (f.without common) factor → Performs (cancel f) op
  | above {c : Coefficient α} {n d : List (Expr α)} {op : Operation α} :
    op ∈ scalingsAll .above { coefficient := c } n → Performs (product c n d) op
  | below {c : Coefficient α} {n d : List (Expr α)} {op : Operation α} :
    op ∈ scalingsAll .below (absorbAll .above { coefficient := c } n).value d →
    Performs (product c n d) op
  | distribute {c : Coefficient α} {n d : List (Expr α)} {f : Fraction α} {op : Operation α} :
    Reduces (gather c n d) f → f.coefficient.isZero = false → f.coefficient.isOne = false →
    op ∈ f.distributions → Performs (product c n d) op
  | add {addends addends' : List (Expr α)} : List.Forall₂ Simplifies addends addends' →
    Performs (simplify (.sum addends)) (.sum addends')
  | log {base body base' body' : Expr α} : Simplifies base base' → Simplifies body body' →
    Performs (simplify (.log base body)) (.log base' body')

/-- A property of all operations that the call performs, by itself or by the calls that it makes. -/
def Throughout (ok : Operation α → Prop) (call : Call α) : Prop :=
  ∀ callee op, Relation.ReflTransGen Makes call callee → callee.Performs op → ok op

variable {ok : Operation α → Prop} {call callee : Call α}

/-- A call's own operations are among its operations. -/
theorem Throughout.performs (h : call.Throughout ok) {op : Operation α} (hop : call.Performs op) : ok op :=
  h call op .refl hop

/-- The operations of the calls that a call makes are among its operations. -/
theorem Throughout.of_makes (h : call.Throughout ok) (hmakes : Makes call callee) :
    callee.Throughout ok :=
  fun other op hreach => h other op (.head hmakes hreach)

/-- What holds of all operations of a call has consequences that do. -/
theorem Throughout.imp {ok' : Operation α → Prop} (h : call.Throughout ok)
    (hok : ∀ op, ok op → ok' op) : call.Throughout ok' :=
  fun callee op hreach hop => hok op (h callee op hreach hop)

/-- A call's operations are its own and those of the calls that it makes. -/
theorem throughout_of_callees (hself : ∀ op, call.Performs op → ok op)
    (hcallees : ∀ callee, Makes call callee → callee.Throughout ok) : call.Throughout ok := by
  intro other op hreach
  obtain rfl | ⟨callee, hmakes, hrest⟩ := hreach.cases_head
  · exact hself op
  · exact hcallees callee hmakes other op hrest

/-- No operation is performed on a number. -/
theorem throughout_simplify_number (n : Number α) : (simplify (number n)).Throughout ok := by
  refine throughout_of_callees (fun op hop => ?_) fun callee hmakes => ?_
  · cases hop
  · cases hmakes with
    | child ha => cases ha

/-- No operation is performed on a variable. -/
theorem throughout_simplify_var (name : String) : (simplify (var name)).Throughout ok := by
  refine throughout_of_callees (fun op hop => ?_) fun callee hmakes => ?_
  · cases hop
  · cases hmakes with
    | child ha => cases ha

/-- No operation is performed for a power of a variable that is left as it is. -/
theorem throughout_power_var (name : String) {exponent : Expr α}
    (hplain : plainPower? (var name) exponent = none) (hneg : exponent.isNegative = false) :
    (power (var name) exponent).Throughout ok := by
  refine throughout_of_callees (fun op hop => ?_) fun callee hmakes =>
    absurd hmakes (not_makes_power_var name hneg callee)
  cases hop with
  | fold h => rw [hplain] at h; cases h

/-- No operation is performed for a fraction without a common base. -/
theorem throughout_cancel_apart {f : Fraction α} (h : common? f.denominator f.numerator = none) :
    (cancel f).Throughout ok := by
  refine throughout_of_callees (fun op hop => ?_) fun callee hmakes =>
    absurd hmakes (not_makes_cancel_apart h callee)
  cases hop with
  | subtract hcommon => rw [h] at hcommon; cases hcommon
  | difference hcommon => rw [h] at hcommon; cases hcommon
  | restore hcommon => rw [h] at hcommon; cases hcommon

/-- No logarithm of literals is rounded by the call, nor by the calls that it makes. -/
abbrev Unrounded : Call α → Prop := Throughout Operation.Unrounded

/-- A call that simplifies no logarithm itself rounds none if the calls that it makes round none. -/
theorem unrounded_of_callees (hself : ∀ base body, call ≠ simplify (.log base body))
    (hcallees : ∀ callee, Makes call callee → callee.Unrounded) : call.Unrounded := by
  refine throughout_of_callees (fun op hop => ?_) hcallees
  cases hop with
  | restore _ _ _ hop => exact unrounded_scalings _ _ _ op hop
  | above hop => exact unrounded_scalingsAll _ _ _ op hop
  | below hop => exact unrounded_scalingsAll _ _ _ op hop
  | distribute _ _ _ hop => exact unrounded_distributions _ op hop
  | log _ _ => exact (hself _ _ rfl).elim
  | _ => trivial

end Call

/-- Relations that respect every equation but the one of logarithms, and that one as long as the operation is
of some kind, hold of what a call returns that performs operations of this kind only. -/
theorem ClosedButLogs.throughout [Scalar.Signed α] {ok : Operation α → Prop}
    {P : Expr α → Expr α → Expr α → Prop} {C : Fraction α → Fraction α → Prop}
    {Q : Coefficient α → List (Expr α) → List (Expr α) → Expr α → Prop} {S : Expr α → Expr α → Prop}
    (closed : ClosedButLogs P C Q S)
    (hlog : ∀ {base body base' body' : Expr α}, S base base' → S body body' → ok (.log base' body') →
      S (.log base body) (logRule base' body').value) :
    Closed (fun base exponent e => Raises base exponent e ∧
        ((Call.power base exponent).Throughout ok → P base exponent e))
      (fun f g => Reduces f g ∧ ((Call.cancel f).Throughout ok → C f g))
      (fun c n d e => Multiplies c n d e ∧ ((Call.product c n d).Throughout ok → Q c n d e))
      (fun e e' => Simplifies e e' ∧ ((Call.simplify e).Throughout ok → S e e')) where
  plain h := ⟨results_closed.plain h, fun _ => closed.plain h⟩
  relocate hplain hneg hpositive hmoved he :=
    ⟨results_closed.relocate hplain hneg hpositive.1 hmoved.1 he.1, fun hcall =>
      closed.relocate hplain hneg (hpositive.2 (hcall.of_makes (.unsign hplain hneg)))
        (hmoved.2 (hcall.of_makes (.relocate hplain hneg hpositive.1)))
        (he.2 (hcall.of_makes (.invert hplain hneg hpositive.1 hmoved.1)))⟩
  nest hplain hneg hwhole hfolded he :=
    ⟨results_closed.nest hplain hneg hwhole hfolded.1 he.1, fun hcall =>
      closed.nest hplain hneg hwhole (hfolded.2 (hcall.of_makes (.fold hplain hneg hwhole)))
        (he.2 (hcall.of_makes (.nest hplain hneg hwhole hfolded.1)))⟩
  spread hplain hneg hwhole hfinite hn hd he := by
    have hn' := hn.imp fun _ _ h => h.1
    have hd' := hd.imp fun _ _ h => h.1
    refine ⟨results_closed.spread hplain hneg hwhole hfinite hn' hd' he.1, fun hcall => ?_⟩
    refine closed.spread hplain hneg hwhole hfinite ?_ ?_
      (he.2 (hcall.of_makes (.collect hplain hneg hwhole hfinite hn' hd')))
    · exact forall₂_imp_of_mem hn fun _ ha _ h => h.2
        (hcall.of_makes (.spread hplain hneg hwhole hfinite (List.mem_append_left _ ha)))
    · exact forall₂_imp_of_mem hd fun _ ha _ h => h.2
        (hcall.of_makes (.spread hplain hneg hwhole hfinite (List.mem_append_right _ ha)))
  remain hplain hneg hunraised :=
    ⟨results_closed.remain hplain hneg hunraised, fun _ => closed.remain hplain hneg hunraised⟩
  done hcommon := ⟨results_closed.done hcommon, fun _ => closed.done hcommon⟩
  cancelAbove hcommon hu hl hpos hfactor hg := by
    have hleaves := Fraction.Common.Leaves.above hu hl hpos
    exact ⟨results_closed.cancelAbove hcommon hu hl hpos hfactor.1 hg.1, fun hcall =>
      closed.cancelAbove hcommon hu hl hpos (hfactor.2 (hcall.of_makes (.leave hcommon hleaves)))
        (hg.2 (hcall.of_makes (.restore hcommon hleaves hfactor.1)))⟩
  cancelBelow hcommon hu hl hneg hfactor hg := by
    have hleaves := Fraction.Common.Leaves.below hu hl (not_pos_of_neg hneg) hneg
    exact ⟨results_closed.cancelBelow hcommon hu hl hneg hfactor.1 hg.1, fun hcall =>
      closed.cancelBelow hcommon hu hl hneg (hfactor.2 (hcall.of_makes (.leave hcommon hleaves)))
        (hg.2 (hcall.of_makes (.restore hcommon hleaves hfactor.1)))⟩
  cancelBoth hcommon hu hl hpos hneg hg :=
    ⟨results_closed.cancelBoth hcommon hu hl hpos hneg hg.1, fun hcall =>
      closed.cancelBoth hcommon hu hl hpos hneg
        (hg.2 (hcall.of_makes (.drop hcommon hu hl hpos hneg)))⟩
  cancelSymbolic hcommon hsymbolic hfactor hg := by
    have hleaves := Fraction.Common.Leaves.symbolic hsymbolic
    exact ⟨results_closed.cancelSymbolic hcommon hsymbolic hfactor.1 hg.1, fun hcall =>
      closed.cancelSymbolic hcommon hsymbolic (hfactor.2 (hcall.of_makes (.leave hcommon hleaves)))
        (hg.2 (hcall.of_makes (.restore hcommon hleaves hfactor.1)))⟩
  multiply hf :=
    ⟨results_closed.multiply hf.1, fun hcall => closed.multiply (hf.2 (hcall.of_makes .gather))⟩
  sum h :=
    ⟨results_closed.sum (h.imp fun _ _ h => h.1), fun hcall =>
      closed.sum (forall₂_imp_of_mem h fun _ ha _ h => h.2 (hcall.of_makes (.child ha)))⟩
  fraction hn hd he := by
    have hn' := hn.imp fun _ _ h => h.1
    have hd' := hd.imp fun _ _ h => h.1
    refine ⟨results_closed.fraction hn' hd' he.1, fun hcall => ?_⟩
    refine closed.fraction ?_ ?_ (he.2 (hcall.of_makes (.multiply hn' hd')))
    · exact forall₂_imp_of_mem hn fun _ ha _ h => h.2 (hcall.of_makes (.child (List.mem_append_left _ ha)))
    · exact forall₂_imp_of_mem hd fun _ ha _ h => h.2 (hcall.of_makes (.child (List.mem_append_right _ ha)))
  raise hbase hexponent he :=
    ⟨results_closed.raise hbase.1 hexponent.1 he.1, fun hcall =>
      closed.raise (hbase.2 (hcall.of_makes (.child List.mem_cons_self)))
        (hexponent.2 (hcall.of_makes (.child (by simp [children]))))
        (he.2 (hcall.of_makes (.raise hbase.1 hexponent.1)))⟩
  log hbase hbody :=
    ⟨results_closed.log hbase.1 hbody.1, fun hcall =>
      hlog (hbase.2 (hcall.of_makes (.child List.mem_cons_self)))
        (hbody.2 (hcall.of_makes (.child (by simp [children]))))
        (hcall.performs (.log hbase.1 hbody.1))⟩
  trig hbody :=
    ⟨results_closed.trig hbody.1, fun hcall =>
      closed.trig (hbody.2 (hcall.of_makes (.child List.mem_cons_self)))⟩
  var name := ⟨results_closed.var name, fun _ => closed.var name⟩
  number n := ⟨results_closed.number n, fun _ => closed.number n⟩

/-- The combining pass performs the operation on the expression: at one of its nodes it adds the coefficients
of like terms, or it adds the exponents of like factors and raises their base to the sum. -/
inductive MergePerforms (fuel : Nat) : Expr α → Operation α → Prop
  | child {e a : Expr α} {op : Operation α} : a ∈ e.children → MergePerforms fuel a op →
    MergePerforms fuel e op
  | add {as as' : List (Expr α)} {op : Operation α} : (mergeList fuel as).Returns as' →
    op ∈ additions [] as' → MergePerforms fuel (.sum as) op
  | gather {c : Coefficient α} {n d es es' : List (Expr α)} {group : Expr α × List (Expr α)} :
    es = n ∨ es = d → (mergeList fuel es).Returns es' → group ∈ likeFactors es' → 2 ≤ group.2.length →
    MergePerforms fuel (.product c n d) (.sum group.2)
  | raise {c : Coefficient α} {n d es es' : List (Expr α)} {group : Expr α × List (Expr α)}
    {callee : Call α} {op : Operation α} :
    es = n ∨ es = d → (mergeList fuel es).Returns es' → group ∈ likeFactors es' → 2 ≤ group.2.length →
    Relation.ReflTransGen Call.Makes (.power group.1 (sumRule group.2).value) callee →
    callee.Performs op → MergePerforms fuel (.product c n d) op

/-- Nothing is combined in a number. -/
theorem not_mergePerforms_number (fuel : Nat) (n : Number α) (op : Operation α) :
    ¬ MergePerforms fuel (number n) op := by
  intro hop
  cases hop with
  | child ha => cases ha

/-- Nothing is combined in a variable. -/
theorem not_mergePerforms_var (fuel : Nat) (name : String) (op : Operation α) :
    ¬ MergePerforms fuel (var name) op := by
  intro hop
  cases hop with
  | child ha => cases ha

/-- A property of all operations that are performed in rounds from an expression on, through the given
stages. -/
def PerformedThroughout (ok : Operation α → Prop) : Expr α → List (Expr α) → Prop
  | e, first :: second :: third :: stages =>
    (Call.simplify e).Throughout ok ∧ (∀ op, MergePerforms (nestingBound first.size) first op → ok op) ∧
      (Call.simplify second).Throughout ok ∧ PerformedThroughout ok third stages
  | _, _ => True

/-- What holds of all operations that are performed has consequences that do. -/
theorem PerformedThroughout.imp {ok ok' : Operation α → Prop} (hok : ∀ op, ok op → ok' op) :
    ∀ {e : Expr α} {stages : List (Expr α)}, PerformedThroughout ok e stages →
      PerformedThroughout ok' e stages
  | _, _ :: _ :: _ :: _, ⟨hfirst, hmerge, hagain, hrest⟩ =>
    ⟨hfirst.imp hok, fun op hop => hok op (hmerge op hop), hagain.imp hok, hrest.imp hok⟩
  | _, [], _ => trivial
  | _, [_], _ => trivial
  | _, [_, _], _ => trivial

end SymbolicAlgebra.Reduction
