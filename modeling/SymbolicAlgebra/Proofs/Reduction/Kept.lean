import SymbolicAlgebra.Proofs.Reduction.Heritable
import SymbolicAlgebra.Proofs.Reduction.Performed

/-!
# Properties kept in a run

A property that is passed on is kept by a call as long as every operation with numbers that the call performs
keeps it, by itself or by the calls that it makes. If the property goes deep then so do the passes over whole
expressions and rounds of them.
-/

namespace SymbolicAlgebra.Reduction

open SymbolicAlgebra.Expr

variable {α : Type} [Scalar α] [Scalar.Signed α]

namespace Heritable

variable {deep : Prop} {C : Coefficient α → Prop} {K : Expr α → Prop}

/-- A call whose operations keep the properties. -/
abbrev Sound (deep : Prop) (C : Coefficient α → Prop) (K : Expr α → Prop) : Call α → Prop :=
  Call.Throughout (Operation.Keeps deep C K)

/-- All rules keep the property as long as each operation that they perform keeps it. -/
theorem closed (hK : Heritable deep C K) : Closed (α := α)
    (fun base exponent e => Raises base exponent e ∧ (Sound deep C K (.power base exponent) →
      K base → (deep → K exponent) → K e))
    (fun f g => Reduces f g ∧ (Sound deep C K (.cancel f) → Made C K f → Made C K g))
    (fun c n d e => Multiplies c n d e ∧ (Sound deep C K (.product c n d) →
      C c → (∀ x ∈ n, K x) → (∀ x ∈ d, K x) → K e))
    (fun e e' => Simplifies e e' ∧ (Sound deep C K (.simplify e) → deep → K e → K e')) where
  plain h := ⟨results_closed.plain h, fun hcall => hcall.performs (.fold h) _ h⟩
  relocate hplain hneg hpositive hmoved he := by
    refine ⟨results_closed.relocate hplain hneg hpositive.1 hmoved.1 he.1, fun hcall hbase hexponent => ?_⟩
    have hopposite (hdeep : deep) := hpositive.2 (hcall.of_makes (.unsign hplain hneg)) hdeep
      (hK.neg_expr hdeep _ (hexponent hdeep))
    have hpower := hmoved.2 (hcall.of_makes (.relocate hplain hneg hpositive.1)) hbase hopposite
    exact he.2 (hcall.of_makes (.invert hplain hneg hpositive.1 hmoved.1)) hK.one (by simp)
      (by simpa using hpower)
  nest hplain hneg hwhole hfolded he := by
    refine ⟨results_closed.nest hplain hneg hwhole hfolded.1 he.1, fun hcall hbase hexponent => ?_⟩
    obtain ⟨hinner, hinside⟩ := hK.power.mp hbase
    have hproduct (hdeep : deep) := hfolded.2 (hcall.of_makes (.fold hplain hneg hwhole)) hK.one
      (by simpa using ⟨hinside hdeep, hexponent hdeep⟩) (by simp)
    exact he.2 (hcall.of_makes (.nest hplain hneg hwhole hfolded.1)) hinner hproduct
  spread hplain hneg hwhole hfinite hn hd he := by
    have hn' := hn.imp fun _ _ h => h.1
    have hd' := hd.imp fun _ _ h => h.1
    refine ⟨results_closed.spread hplain hneg hwhole hfinite hn' hd' he.1, fun hcall hbase _ => ?_⟩
    obtain ⟨above, below⟩ := hK.factors hbase
    have hraised := hcall.performs (.raise hplain hneg hwhole hfinite) _ hneg hwhole hfinite
      (hK.coefficient hbase)
    refine he.2 (hcall.of_makes (.collect hplain hneg hwhole hfinite hn' hd')) hraised ?_ ?_
    · exact forall_of_forall₂ hn fun a ha _ h => h.2
        (hcall.of_makes (.spread hplain hneg hwhole hfinite (List.mem_append_left _ ha))) (above a ha)
        fun hdeep => hK.whole hdeep hwhole
    · exact forall_of_forall₂ hd fun a ha _ h => h.2
        (hcall.of_makes (.spread hplain hneg hwhole hfinite (List.mem_append_right _ ha))) (below a ha)
        fun hdeep => hK.whole hdeep hwhole
  remain hplain hneg hunraised :=
    ⟨results_closed.remain hplain hneg hunraised, fun _ hbase hexponent =>
      hK.power.mpr ⟨hbase, hexponent⟩⟩
  done hcommon := ⟨results_closed.done hcommon, fun _ hf => hf⟩
  cancelAbove hcommon hu hl hpos hfactor hg := by
    refine ⟨results_closed.cancelAbove hcommon hu hl hpos hfactor.1 hg.1, fun hcall hf => ?_⟩
    have hleaves := Fraction.Common.Leaves.above hu hl hpos
    refine hg.2 (hcall.of_makes (.restore hcommon hleaves hfactor.1)) (hK.restore .above hf hcommon
      (fun hbase hupper hlower => hfactor.2 (hcall.of_makes (.leave hcommon hleaves)) hbase fun hdeep => ?_)
      fun _ hop => hcall.performs (.restore hcommon hleaves hfactor.1 hop))
    exact (hcall.performs (.subtract hcommon hu hl) hdeep (eq_number_of_real? hu ▸ hupper hdeep)
      (eq_number_of_real? hl ▸ hlower hdeep)).1
  cancelBelow hcommon hu hl hneg hfactor hg := by
    refine ⟨results_closed.cancelBelow hcommon hu hl hneg hfactor.1 hg.1, fun hcall hf => ?_⟩
    have hleaves := Fraction.Common.Leaves.below hu hl (not_pos_of_neg hneg) hneg
    refine hg.2 (hcall.of_makes (.restore hcommon hleaves hfactor.1)) (hK.restore .below hf hcommon
      (fun hbase hupper hlower => hfactor.2 (hcall.of_makes (.leave hcommon hleaves)) hbase fun hdeep => ?_)
      fun _ hop => hcall.performs (.restore hcommon hleaves hfactor.1 hop))
    exact (hcall.performs (.subtract hcommon hu hl) hdeep (eq_number_of_real? hu ▸ hupper hdeep)
      (eq_number_of_real? hl ▸ hlower hdeep)).2
  cancelBoth hcommon hu hl hpos hneg hg :=
    ⟨results_closed.cancelBoth hcommon hu hl hpos hneg hg.1, fun hcall hf =>
      hg.2 (hcall.of_makes (.drop hcommon hu hl hpos hneg)) (hK.without hf hcommon).1⟩
  cancelSymbolic hcommon hsymbolic hfactor hg := by
    refine ⟨results_closed.cancelSymbolic hcommon hsymbolic hfactor.1 hg.1, fun hcall hf => ?_⟩
    have hleaves := Fraction.Common.Leaves.symbolic hsymbolic
    refine hg.2 (hcall.of_makes (.restore hcommon hleaves hfactor.1)) (hK.restore .above hf hcommon
      (fun hbase hupper hlower => hfactor.2 (hcall.of_makes (.leave hcommon hleaves)) hbase fun hdeep => ?_)
      fun _ hop => hcall.performs (.restore hcommon hleaves hfactor.1 hop))
    exact hcall.performs (.difference hcommon hsymbolic) hdeep (hupper hdeep) (hlower hdeep)
  multiply {c} _ _ _ hf := by
    refine ⟨results_closed.multiply hf.1, fun hcall hc hn hd => ?_⟩
    have start : Made C K { coefficient := c } := ⟨hc, nofun, by simp, by simp⟩
    have hgathered := hK.absorbAll .below
      (hK.absorbAll .above start _ hn fun _ hop => hcall.performs (.above hop)) _ hd
      fun _ hop => hcall.performs (.below hop)
    exact hK.finish (hf.2 (hcall.of_makes .gather) hgathered) fun hzero hone _ hop =>
      hcall.performs (.distribute hf.1 hzero hone hop)
  sum h := by
    refine ⟨results_closed.sum (h.imp fun _ _ h => h.1), fun hcall hdeep he => ?_⟩
    refine hcall.performs (.add (h.imp fun _ _ h => h.1)) ?_
    exact forall_of_forall₂ h fun a ha _ h => h.2 (hcall.of_makes (.child ha)) hdeep (hK.sum.mp he a ha)
  fraction hn hd he := by
    have hn' := hn.imp fun _ _ h => h.1
    have hd' := hd.imp fun _ _ h => h.1
    refine ⟨results_closed.fraction hn' hd' he.1, fun hcall hdeep h => ?_⟩
    obtain ⟨above, below⟩ := hK.factors h
    refine he.2 (hcall.of_makes (.multiply hn' hd')) (hK.coefficient h) ?_ ?_
    · exact forall_of_forall₂ hn fun a ha _ h =>
        h.2 (hcall.of_makes (.child (List.mem_append_left _ ha))) hdeep (above a ha)
    · exact forall_of_forall₂ hd fun a ha _ h =>
        h.2 (hcall.of_makes (.child (List.mem_append_right _ ha))) hdeep (below a ha)
  raise hbase hexponent he := by
    refine ⟨results_closed.raise hbase.1 hexponent.1 he.1, fun hcall hdeep h => ?_⟩
    obtain ⟨hb, hx⟩ := hK.power.mp h
    exact he.2 (hcall.of_makes (.raise hbase.1 hexponent.1))
      (hbase.2 (hcall.of_makes (.child List.mem_cons_self)) hdeep hb)
      fun _ => hexponent.2 (hcall.of_makes (.child (by simp [children]))) hdeep (hx hdeep)
  log hbase hbody := by
    refine ⟨results_closed.log hbase.1 hbody.1, fun hcall hdeep h => ?_⟩
    obtain ⟨hb, hx⟩ := (hK.log hdeep).mp h
    exact hcall.performs (.log hbase.1 hbody.1) hdeep
      (hbase.2 (hcall.of_makes (.child List.mem_cons_self)) hdeep hb)
      (hbody.2 (hcall.of_makes (.child (by simp [children]))) hdeep hx)
  trig hbody :=
    ⟨results_closed.trig hbody.1, fun hcall hdeep h => hK.trigRule hdeep
      (hbody.2 (hcall.of_makes (.child List.mem_cons_self)) hdeep ((hK.trig hdeep).mp h))⟩
  var name := ⟨results_closed.var name, fun _ _ h => h⟩
  number n := ⟨results_closed.number n, fun _ _ h => h⟩

/-- A power keeps the property as long as the operations for it do. -/
theorem raises (hK : Heritable deep C K) {base exponent e : Expr α} (h : Raises base exponent e)
    (hcall : Sound deep C K (.power base exponent)) (hbase : K base) (hexponent : deep → K exponent) :
    K e := by
  obtain ⟨fuel, h⟩ := h
  exact (hK.closed.power_returns h).2 hcall hbase hexponent

/-- The pass that applies all rules keeps a property that goes deep as long as its operations do. -/
theorem simplifies (hK : Heritable deep C K) (hdeep : deep) {e e' : Expr α} (h : Simplifies e e')
    (hcall : Sound deep C K (.simplify e)) (he : K e) : K e' := by
  obtain ⟨fuel, h⟩ := h
  exact (hK.closed.simplify_returns h).2 hcall hdeep he

/-- Like factors are combined to factors with the property as long as adding their exponents keeps it and
so do the operations for their powers. -/
theorem mergeFactors (hK : Heritable deep C K) (hdeep : deep) {fuel : Nat} {factors es : List (Expr α)}
    (hfactors : ∀ e ∈ factors, K e) (h : (mergeFactors fuel factors).Returns es)
    (hops : ∀ group ∈ likeFactors factors, 2 ≤ group.2.length →
      (Operation.sum group.2).Keeps deep C K ∧
        Sound deep C K (.power group.1 (sumRule group.2).value)) : ∀ e ∈ es, K e := by
  have hgroups := forall_likeFactors fun e he =>
    (hK.powerParts e (hfactors e he)).imp_right fun hexponent => hexponent hdeep
  refine forall_of_forall₂ (returns_mergeFactors.mp h) fun group hgroup e he => ?_
  obtain ⟨hne, hbase, hexponents⟩ := hgroups group hgroup
  replace hops := hops group hgroup
  have outcome := gatherOutcome hne he
  generalize group.2 = exponents at outcome hexponents hops
  cases outcome with
  | bare _ => exact hbase
  | single => exact hK.power.mpr ⟨hbase, fun _ => List.forall_mem_singleton.mp hexponents⟩
  | several htwo h =>
    obtain ⟨hsum, hcall⟩ := hops htwo
    exact hK.raises ⟨fuel, h⟩ hcall hbase fun _ => hsum hexponents

/-- The combining pass keeps a property that goes deep as long as its operations do, if all products of parts
with the property have it. -/
theorem merge (hK : Heritable deep C K) (hdeep : deep)
    (hproduct : ∀ {c : Coefficient α} {n d : List (Expr α)}, C c → (∀ x ∈ n, K x) → (∀ x ∈ d, K x) →
      K (.product c n d))
    {fuel : Nat} (e : Expr α) {e' : Expr α} (h : (merge fuel e).Returns e')
    (hops : ∀ op, MergePerforms fuel e op → op.Keeps deep C K) (he : K e) : K e' := by
  refine merge_induction (r := fun e e' => (∀ op, MergePerforms fuel e op → op.Keeps deep C K) →
    K e → K e') (fun e e' step hops he => ?_) e h hops he
  have all {e : Expr α} {es es' : List (Expr α)} (hops : ∀ op, MergePerforms fuel e op → op.Keeps deep C K)
      (hes : ∀ a ∈ es, a ∈ e.children ∧ K a)
      (h : List.Forall₂ (fun a a' => (Reduction.merge fuel a).Returns a' ∧
        ((∀ op, MergePerforms fuel a op → op.Keeps deep C K) → K a → K a')) es es') :
      (mergeList fuel es).Returns es' ∧ ∀ a ∈ es', K a :=
    ⟨returns_mergeList.mpr (h.imp fun _ _ h => h.1), forall_of_forall₂ h fun a ha a' h =>
      h.2 (fun op hop => hops op (.child (hes a ha).1 hop)) (hes a ha).2⟩
  cases step with
  | @sum as as' has =>
    obtain ⟨hmerged, has'⟩ := all hops (fun a ha => ⟨ha, hK.sum.mp he a ha⟩) has
    have hparts := hK.likeTerms has' fun op hop => hops op (.add hmerged hop)
    rw [hK.sum, mergeAddends, List.forall_mem_map]
    exact fun term hterm => hK.ofScaleParts (hparts term hterm).1 (hparts term hterm).2
  | @product c n d n' d' n'' d'' hn hd hn' hd' =>
    obtain ⟨above, below⟩ := hK.factors he
    have combined {es es' es'' : List (Expr α)} (hside : es = n ∨ es = d)
        (hmerged : (mergeList fuel es).Returns es' ∧ ∀ a ∈ es', K a)
        (h : (Reduction.mergeFactors fuel es').Returns es'') : ∀ a ∈ es'', K a :=
      hK.mergeFactors hdeep hmerged.2 h fun group hgroup htwo =>
        ⟨hops _ (.gather hside hmerged.1 hgroup htwo), fun callee op hreach hop =>
          hops op (.raise hside hmerged.1 hgroup htwo hreach hop)⟩
    exact hproduct (hK.coefficient he)
      (combined (.inl rfl) (all hops (fun a ha => ⟨List.mem_append_left _ ha, above a ha⟩) hn) hn')
      (combined (.inr rfl) (all hops (fun a ha => ⟨List.mem_append_right _ ha, below a ha⟩) hd) hd')
  | power hbase hexponent =>
    obtain ⟨hb, hx⟩ := hK.power.mp he
    exact hK.power.mpr
      ⟨hbase.2 (fun op hop => hops op (.child List.mem_cons_self hop)) hb,
        fun _ => hexponent.2 (fun op hop => hops op (.child (by simp [children]) hop)) (hx hdeep)⟩
  | log hbase hbody =>
    obtain ⟨hb, hx⟩ := (hK.log hdeep).mp he
    exact (hK.log hdeep).mpr
      ⟨hbase.2 (fun op hop => hops op (.child List.mem_cons_self hop)) hb,
        hbody.2 (fun op hop => hops op (.child (by simp [children]) hop)) hx⟩
  | trig hbody =>
    exact (hK.trig hdeep).mpr
      (hbody.2 (fun op hop => hops op (.child List.mem_cons_self hop)) ((hK.trig hdeep).mp he))
  | var => exact he
  | number => exact he

/-- All stages of a run have a property that goes deep as long as the operations performed keep it, if all
products of parts with the property have it. -/
theorem settling (hK : Heritable deep C K) (hdeep : deep)
    (hproduct : ∀ {c : Coefficient α} {n d : List (Expr α)}, C c → (∀ x ∈ n, K x) → (∀ x ∈ d, K x) →
      K (.product c n d))
    {e last : Expr α} {stages : List (Expr α)} (h : Settling e stages last)
    (hops : PerformedThroughout (Operation.Keeps deep C K) e stages) (he : K e) : ∀ x ∈ stages, K x := by
  have kept {e first second third : Expr α} (round : Round e first second third) (he : K e)
      (hfirst : Sound deep C K (.simplify e))
      (hmerge : ∀ op, MergePerforms (nestingBound first.size) first op → op.Keeps deep C K)
      (hthird : Sound deep C K (.simplify second)) : K first ∧ K second ∧ K third := by
    have first := hK.simplifies hdeep ⟨_, round.simplified⟩ hfirst he
    have second := hK.merge hdeep hproduct _ round.merged hmerge first
    exact ⟨first, second, hK.simplifies hdeep ⟨_, round.again⟩ hthird second⟩
  induction h with
  | last round _ =>
    obtain ⟨hsimplify, hmerge, hagain, -⟩ := hops
    obtain ⟨hfirst, hsecond, hthird⟩ := kept round he hsimplify hmerge hagain
    simpa using ⟨hfirst, hsecond, hthird⟩
  | next round _ ih =>
    obtain ⟨hsimplify, hmerge, hagain, hrest⟩ := hops
    obtain ⟨hfirst, hsecond, hthird⟩ := kept round he hsimplify hmerge hagain
    simpa using ⟨hfirst, hsecond, hthird, ih hrest hthird⟩

end Heritable

end SymbolicAlgebra.Reduction
