import SymbolicAlgebra.Proofs.Canonical.Reordered
import SymbolicAlgebra.Proofs.Exclusion.Identity
import SymbolicAlgebra.Proofs.Expr.Undefined
import SymbolicAlgebra.Proofs.Reduction.Combined
import SymbolicAlgebra.Proofs.Scalar.Finite

/-!
# Points that stay excluded

The operand of a clause that is canonical already is only stripped of what does not decide whether it
is zero. A point is then excluded by the tidied exclusions exactly if it was before, unless stripping
makes a difference there: a power or a multiple of a number other than zero can be rounded to zero, and
a power of a negative number can be missing where the number itself is not.
-/

namespace SymbolicAlgebra

open Scalar (isNaN)

variable {α : Type} [Scalar α] {limits : Limits} {b : Bindings α}

namespace Reduction

/-- A canonical form is its own canonical form. -/
theorem canonicalForm_canonical [Scalar.Unital α] {limits' : Limits} {raw e e' : Expr α}
    (he : canonicalForm limits' raw = .ok e) (h : canonicalForm limits e = .ok e') : e' = e := by
  obtain ⟨_, hsettled⟩ := settling_of_canonicalForm he
  obtain ⟨_, hagain⟩ := settling_of_canonicalForm h
  exact hagain.eq_of_fixed hsettled.reduced.2.2

end Reduction

namespace Clause

/-- What one step of stripping leaves of an expression. -/
inductive Strips : Expr α → Expr α → Prop
  | power {base exponent : Expr α} : isPositive exponent = true → Strips (.power base exponent) base
  | product {c : Coefficient α} {e : Expr α} : Strips (.product c [e] []) e

/-- Stripping an expression makes no difference at a point to a clause on it that asks whether it is
zero: no number other than zero is rounded to zero by what is stripped, the coefficients that are
stripped are finite, and if the clause asks for a value other than zero, no negative number is the base
of a power to an exponent with a fraction. -/
structure Sharp (b : Bindings α) (comparator : Comparator) (e : Expr α) : Prop where
  nonzero : ∀ outer inner v w, Core e outer → Strips outer inner → outer.value b = .ok v →
    inner.value b = .ok w → Scalar.eq v Scalar.zero = true → Scalar.eq w Scalar.zero = true
  finite : ∀ c x, Core e (.product c [x] []) → c.Finite
  defined : comparator = .ne → ∀ base p v, Core e (.power base (.number (.real p))) →
    base.value b = .ok v → Scalar.lt v Scalar.zero = true → Scalar.isWhole p = true

/-- What is stripped is stripped of the whole. -/
theorem Core.trans {e layer core : Expr α} (h : Core e layer) (h' : Core layer core) :
    Core e core := by
  induction h with
  | refl => exact h'
  | power hpositive _ ih => exact .power hpositive (ih h')
  | product _ ih => exact .product (ih h')

/-- Stripping further makes no difference either. -/
theorem Sharp.layer {comparator : Comparator} {e layer : Expr α} (h : Sharp b comparator e)
    (hlayer : Core e layer) : Sharp b comparator layer where
  nonzero outer inner v w houter := h.nonzero outer inner v w (hlayer.trans houter)
  finite c x hc := h.finite c x (hlayer.trans hc)
  defined hne base p v hpower := h.defined hne base p v (hlayer.trans hpower)

/-- Two values are alike to a clause on zero: both are zero or neither is, and if the clause asks for
a value other than zero, both are missing or neither is. -/
def Alike (comparator : Comparator) (v w : α) : Prop :=
  Scalar.eq v Scalar.zero = Scalar.eq w Scalar.zero ∧ (comparator = .ne → isNaN v = isNaN w)

/-- A positive exponent is neither zero nor negative, so that it is a power wherever there is one. -/
theorem powerValue_of_pos [Scalar.Signed α] {v p : α} (hp : Scalar.lt Scalar.zero p = true)
    (hwhole : Scalar.lt v Scalar.zero = true → Scalar.isWhole p = true) :
    Expr.powerValue v p = Scalar.pow v p := by
  have hnegative : (Scalar.lt v Scalar.zero && !Scalar.isWhole p) = false := by
    cases hv : Scalar.lt v Scalar.zero with
    | false => rfl
    | true => rw [hwhole hv]; rfl
  rw [Expr.powerValue, hnegative, Scalar.Signed.lt_of_pos p hp, Bool.and_false]
  rfl

/-- What is alike to something alike is alike. -/
theorem Alike.trans {comparator : Comparator} {u v w : α} (h : Alike comparator u v)
    (h' : Alike comparator v w) : Alike comparator u w :=
  ⟨h.1.trans h'.1, fun hne => (h.2 hne).trans (h'.2 hne)⟩

/-- A missing number is not zero. -/
theorem isNaN_of_eq_zero [Scalar.Propagating α] {v : α} (h : Scalar.eq v Scalar.zero = true) :
    isNaN v = false := by
  rw [Bool.eq_false_iff]
  intro hmissing
  rw [Scalar.Propagating.eq_of_isNaN v Scalar.zero hmissing] at h
  cases h

section Values

variable [Scalar.Scaling α]

/-- A power to a positive exponent is like its base, unless it is rounded to zero or the exponent has a
fraction. -/
theorem alike_powerValue [Scalar.Signed α] [Scalar.Raising α] {comparator : Comparator} {v p : α}
    (hp : Scalar.lt Scalar.zero p = true)
    (hnonzero : Scalar.eq (Expr.powerValue v p) Scalar.zero = true →
      Scalar.eq v Scalar.zero = true)
    (hdefined : comparator = .ne → Scalar.lt v Scalar.zero = true → Scalar.isWhole p = true) :
    Alike comparator (Expr.powerValue v p) v := by
  cases hv : Scalar.eq v Scalar.zero with
  | true =>
    have hpower : Expr.powerValue v p = Scalar.pow v p := powerValue_of_pos hp fun hneg => by
      rw [Scalar.Signed.eq_zero_of_neg v hneg] at hv
      cases hv
    have hzero := Scalar.Raising.zero_pow v p hv hp
    rw [hpower]
    exact ⟨hzero.trans hv.symm, fun _ => (isNaN_of_eq_zero hzero).trans (isNaN_of_eq_zero hv).symm⟩
  | false =>
    refine ⟨?_, fun hne => ?_⟩
    · rw [hv, Bool.eq_false_iff]
      intro hzero
      rw [hnonzero hzero] at hv
      cases hv
    · cases hmissing : isNaN v with
      | true => exact Expr.isNaN_powerValue_base hmissing (Scalar.Signed.eq_zero_of_pos p hp)
      | false =>
        rw [powerValue_of_pos hp (hdefined hne)]
        exact Scalar.Raising.isNaN_pow v p hmissing hp (hdefined hne)

/-- A multiple by a finite coefficient other than zero is like its factor, unless it is rounded to
zero. -/
theorem alike_productValue {comparator : Comparator} {c : Coefficient α} {v : α} (hc : c.Finite)
    (hzero : c.isZero = false)
    (hnonzero : Scalar.eq (Expr.productValue c [v] []) Scalar.zero = true →
      Scalar.eq v Scalar.zero = true) :
    Alike comparator (Expr.productValue c [v] []) v := by
  obtain ⟨hnumer, hdenom, hdivisor⟩ := hc
  have hvalue : Expr.productValue c [v] [] = c.numer * v / c.denom := by
    simp [Expr.productValue, hdivisor]
  rw [hvalue] at hnonzero ⊢
  cases hv : Scalar.eq v Scalar.zero with
  | true =>
    have hproduct := Scalar.Scaling.zero_div _ c.denom (Scalar.Scaling.mul_zero c.numer v hnumer hv)
      hdenom hdivisor
    exact ⟨hproduct.trans hv.symm,
      fun _ => (isNaN_of_eq_zero hproduct).trans (isNaN_of_eq_zero hv).symm⟩
  | false =>
    refine ⟨?_, fun _ => ?_⟩
    · rw [hv, Bool.eq_false_iff]
      intro hzero
      rw [hnonzero hzero] at hv
      cases hv
    · cases hmissing : isNaN v with
      | true =>
        exact Scalar.Propagating.isNaN_div _ _ (.inl (Scalar.Propagating.isNaN_mul _ _ (.inr hmissing)))
      | false =>
        exact Scalar.Scaling.isNaN_div_finite _ _
          (Scalar.Scaling.isNaN_mul_finite _ _ hnumer hzero hmissing) hdenom hdivisor

end Values

/-- A positive literal as an exponent. -/
theorem real_of_isPositive {e : Expr α} (h : isPositive e = true) :
    ∃ p, e = .number (.real p) ∧ Scalar.lt Scalar.zero p = true := by
  cases e with
  | number n =>
    cases n with
    | real p => exact ⟨p, rfl, h⟩
    | constant c => cases h
  | _ => cases h

variable [Scalar.Signed α] [Scalar.Scaling α]

/-- The threshold of a clause that asks whether its operand is zero is like zero to every value. -/
theorem eq_threshold_of_testsZero {c : Clause α} (h : c.testsZero = true) :
    c.modulus = none ∧ (c.comparator = .eq ∨ c.comparator = .ne) ∧
      ∀ v, Scalar.eq v c.threshold.value = Scalar.eq v Scalar.zero := by
  obtain ⟨operand, modulus, comparator, threshold⟩ := c
  rw [testsZero, Bool.and_eq_true, Bool.and_eq_true, Option.isNone_iff_eq_none, beq_iff_eq,
    Bool.or_eq_true, beq_iff_eq, beq_iff_eq] at h
  obtain ⟨⟨hmodulus, hthreshold⟩, hcomparator⟩ := h
  refine ⟨hmodulus, hcomparator, fun v => ?_⟩
  cases threshold with
  | real t => exact Scalar.Scaling.eq_of_zero v t (Scalar.Lawful.eq_zero_of_order t hthreshold)
  | constant k => cases hthreshold

/-- A clause that asks whether its operand is zero does not tell apart what is alike. -/
theorem test_of_alike {c : Clause α} (h : c.testsZero = true) {v w : α}
    (hvw : Alike c.comparator v w) : c.test v = c.test w := by
  obtain ⟨hmodulus, hcomparator, hthreshold⟩ := eq_threshold_of_testsZero h
  have htest (x : α) : c.test x =
      (!isNaN x && if c.comparator = .eq then Scalar.eq x Scalar.zero
        else !Scalar.eq x Scalar.zero) := by
    rw [test, hmodulus]
    obtain hcomparator | hcomparator := hcomparator <;>
      cases isNaN x <;> simp [hcomparator, hthreshold]
  rw [htest, htest]
  obtain hcomparator | hcomparator := hcomparator
  · rw [if_pos hcomparator, if_pos hcomparator]
    -- only what is not missing can be zero
    have hequal (x : α) : (!isNaN x && Scalar.eq x Scalar.zero) = Scalar.eq x Scalar.zero := by
      cases hzero : Scalar.eq x Scalar.zero with
      | false => rw [Bool.and_false]
      | true => rw [isNaN_of_eq_zero hzero]; rfl
    rw [hequal, hequal, hvw.1]
  · rw [hvw.1, hvw.2 hcomparator]

variable [Scalar.Raising α]

/-- What is left of a normal expression when it is stripped has a value like that of the whole. -/
theorem Core.alike {comparator : Comparator} {e core : Expr α} (h : Core e core)
    (hnormal : e.Normal) (hsharp : Sharp b comparator e) {v : α} (hv : e.value b = .ok v) :
    ∃ w, core.value b = .ok w ∧ Alike comparator v w := by
  induction h generalizing v with
  | refl => exact ⟨v, hv, rfl, fun _ => rfl⟩
  | @power base exponent core hpositive _ ih =>
    obtain ⟨p, rfl, hp⟩ := real_of_isPositive hpositive
    have hpower := hv
    rw [Expr.value] at hv
    obtain ⟨u, hu, hv⟩ := Reduction.ok_of_bind hv
    cases hv
    have hstep : Alike comparator (Expr.powerValue u p) u :=
      alike_powerValue hp
        (hsharp.nonzero _ _ _ _ (.refl _) (.power hpositive) hpower hu)
        fun hne => hsharp.defined hne base p u (.refl _) hu
    obtain ⟨w, hw, hrest⟩ := ih (Expr.normal_power.mp hnormal).2.1
      (hsharp.layer (.power hpositive (.refl _))) hu
    exact ⟨w, hw, hstep.trans hrest⟩
  | @product c x core _ ih =>
    obtain ⟨hnode, habove, -⟩ := Expr.normal_product.mp hnormal
    have hproduct := hv
    rw [Expr.value, Expr.values, Expr.values, Expr.values] at hv
    obtain ⟨us, hus, hv⟩ := Reduction.ok_of_bind hv
    obtain ⟨u, hu, hus⟩ := Reduction.ok_of_bind hus
    cases hus
    cases hv
    have hstep : Alike comparator (Expr.productValue c [u] []) u :=
      alike_productValue (hsharp.finite c x (.refl _)) hnode.coefficient
        (hsharp.nonzero _ _ _ _ (.refl _) .product hproduct hu)
    obtain ⟨w, hw, hrest⟩ := ih (habove x List.mem_cons_self) (hsharp.layer (.product (.refl _))) hu
    exact ⟨w, hw, hstep.trans hrest⟩

/-- The operand of the clause is a canonical form. -/
def IsCanonical (c : Clause α) : Prop :=
  ∃ limits e, Reduction.canonicalForm limits e = .ok c.operand

/-- A clause on a canonical form holds at a point exactly if it holds there once it is tidied, if
stripping makes no difference there. -/
theorem holds_tidy {c c' : Clause α} (hcanonical : c.IsCanonical) (htidy : c.tidy limits = .ok c')
    (hbound : c.operand.VariablesIn fun x => (b.get? x).isSome)
    (hsharp : c.testsZero = true → Sharp b c.comparator c.operand) : c'.holds b = c.holds b := by
  obtain ⟨limits', raw, hraw⟩ := hcanonical
  obtain ⟨e, he, rfl⟩ := of_tidy htidy
  obtain rfl := Reduction.canonicalForm_canonical hraw he
  obtain ⟨v, hv⟩ := Expr.exists_value c.operand hbound
  cases hzero : c.testsZero with
  | false => rfl
  | true =>
    obtain ⟨stages, hsettled⟩ := Reduction.settling_of_canonicalForm hraw
    obtain ⟨w, hw, hvw⟩ := (core_zeroCore c.operand).alike hsettled.reduced.1.normal (hsharp hzero) hv
    simp only [holds, if_true, hv, hw]
    exact congrArg Except.ok (test_of_alike hzero hvw).symm

end Clause

namespace Exclusions

open Clause

/-- Clauses of a kind that count as equal hold alike at a point. -/
def HoldAlike (b : Bindings α) (p : Clause α → Prop) : Prop :=
  ∀ c c', p c → p c' → (c == c') = true → c.holds b = c'.holds b

/-- The clause is what a clause of the exclusions is tidied to. -/
def TidiedFrom (limits : Limits) (x : Exclusions α) (c : Clause α) : Prop :=
  ∃ group ∈ x.groups, ∃ raw ∈ group, raw.tidy limits = .ok c

/-- A group that holds has clauses that hold. -/
theorem forall_of_groupHolds {group : List (Clause α)} (h : groupHolds b group = .ok true) :
    ∀ c ∈ group, c.holds b = .ok true := by
  induction group with
  | nil => exact fun _ hc => by cases hc
  | cons c group ih =>
    rw [groupHolds] at h
    obtain ⟨r, hr, h⟩ := Reduction.ok_of_bind h
    cases r with
    | false => cases h
    | true => exact List.forall_mem_cons.mpr ⟨hr, ih h⟩

/-- A point is excluded exactly if all clauses of some group hold there, where all can be tested. -/
theorem excludes_iff {x : Exclusions α}
    (htested : x.ForallClauses fun c => ∃ r, c.holds b = .ok r) :
    x.excludes b = .ok true ↔ ∃ group ∈ x.groups, ∀ c ∈ group, c.holds b = .ok true := by
  constructor
  · intro h
    obtain ⟨groups⟩ := x
    induction groups with
    | nil => cases h
    | cons group groups ih =>
      rw [excludes, someGroupHolds] at h
      obtain ⟨r, hr, h⟩ := Reduction.ok_of_bind h
      cases r with
      | true => exact ⟨group, List.mem_cons_self, forall_of_groupHolds hr⟩
      | false =>
        obtain ⟨g, hg, hholds⟩ := ih (List.forall_mem_cons.mp htested).2 h
        exact ⟨g, List.mem_cons_of_mem group hg, hholds⟩
  · rintro ⟨group, hgroup, hholds⟩
    exact excludes_of_groupHolds htested hgroup (groupHolds_of_forall hholds)

/-- A group holds exactly if something is left of it and holds, if its clauses hold at the same points
once they are tidied. -/
theorem forall_tidyGroup_iff {group : List (Clause α)} {found : Option (List (Clause α))}
    (hsame : ∀ c ∈ group, ∀ c', c.tidy limits = .ok c' → c'.holds b = c.holds b)
    (h : tidyGroup limits group = .ok found) :
    (∀ c ∈ group, c.holds b = .ok true) ↔
      ∃ kept, found = some kept ∧ ∀ c ∈ kept, c.holds b = .ok true := by
  induction group generalizing found with
  | nil =>
    cases h
    simp
  | cons c group ih =>
    obtain ⟨hc, hgroup⟩ := List.forall_mem_cons.mp hsame
    rw [tidyGroup] at h
    obtain ⟨c', htidy, h⟩ := Reduction.ok_of_bind h
    rw [List.forall_mem_cons, ← hc c' htidy]
    split at h
    · rename_i htruth
      cases h
      simp [holds_of_constantTruth htruth]
    · rename_i htruth
      rw [holds_of_constantTruth htruth]
      exact (and_iff_right rfl).trans (ih hgroup h)
    · obtain ⟨rest, hrest, h⟩ := Reduction.ok_of_bind h
      cases h
      rw [ih hgroup hrest]
      constructor
      · rintro ⟨hholds, kept, rfl, hkept⟩
        exact ⟨c' :: kept, rfl, List.forall_mem_cons.mpr ⟨hholds, hkept⟩⟩
      · rintro ⟨kept, hmap, hkept⟩
        obtain ⟨kept', rfl, rfl⟩ := Option.map_eq_some_iff.mp hmap
        obtain ⟨hholds, hkept⟩ := List.forall_mem_cons.mp hkept
        exact ⟨hholds, kept', rfl, hkept⟩

/-- Some group holds exactly if something is left of it and holds, if all clauses hold at the same points
once they are tidied. -/
theorem exists_tidyGroups_iff {groups tidied : List (List (Clause α))}
    (hsame : ∀ group ∈ groups, ∀ c ∈ group, ∀ c', c.tidy limits = .ok c' →
      c'.holds b = c.holds b)
    (h : tidyGroups limits groups = .ok tidied) :
    (∃ group ∈ groups, ∀ c ∈ group, c.holds b = .ok true) ↔
      ∃ kept ∈ tidied, ∀ c ∈ kept, c.holds b = .ok true := by
  induction groups generalizing tidied with
  | nil =>
    cases h
    simp
  | cons group groups ih =>
    obtain ⟨hgroup, hgroups⟩ := List.forall_mem_cons.mp hsame
    rw [tidyGroups] at h
    obtain ⟨found, hfound, h⟩ := Reduction.ok_of_bind h
    obtain ⟨rest, hrest, h⟩ := Reduction.ok_of_bind h
    cases h
    rw [List.exists_mem_cons_iff, forall_tidyGroup_iff hgroup hfound, ih hgroups hrest]
    cases found <;> simp

section Lawful

variable [Scalar.Lawful α]

/-- Each clause of a group is equal to one that is left when repeats are dropped. -/
theorem groupCovers_dropRepeats (group : List (Clause α)) :
    GroupCovers group (dropRepeats group) := by
  have hself (c : Clause α) : (c == c) = true := Clause.beq_iff.mpr Std.ReflCmp.compare_self
  fun_induction dropRepeats group with
  | case1 => exact fun _ hc => by cases hc
  | case2 c cs hrest ih =>
    rw [hrest] at ih
    refine List.forall_mem_cons.mpr ⟨⟨c, List.mem_cons_self, hself c⟩, fun x hx => ?_⟩
    obtain ⟨y, hy, -⟩ := ih x hx
    cases hy
  | case3 c cs d ds hrest hcd ih =>
    rw [hrest] at ih
    refine List.forall_mem_cons.mpr ⟨⟨c, List.mem_cons_self, hself c⟩, fun x hx => ?_⟩
    obtain ⟨y, hy, hxy⟩ := ih x hx
    obtain rfl | hy := List.mem_cons.mp hy
    · -- the clause that is dropped is equal to the one before it
      refine ⟨c, List.mem_cons_self, Clause.beq_iff.mpr ?_⟩
      exact Std.TransCmp.eq_trans (Clause.beq_iff.mp hxy)
        (Std.OrientedCmp.eq_symm (Clause.beq_iff.mp hcd))
    · exact ⟨y, List.mem_cons_of_mem c hy, hxy⟩
  | case4 c cs d ds hrest _ ih =>
    rw [hrest] at ih
    refine List.forall_mem_cons.mpr ⟨⟨c, List.mem_cons_self, hself c⟩, fun x hx => ?_⟩
    obtain ⟨y, hy, hxy⟩ := ih x hx
    exact ⟨y, List.mem_cons_of_mem c hy, hxy⟩

/-- Each clause of a group is equal to one of its normal form. -/
theorem groupCovers_normalGroup (group : List (Clause α)) :
    GroupCovers group (normalGroup group) :=
  fun c hc => groupCovers_dropRepeats _ c (List.mem_mergeSort.mpr hc)

omit [Scalar.Lawful α] in
/-- What covers a group that holds holds too, if clauses that count as equal hold alike. -/
theorem GroupCovers.holds {p : Clause α → Prop} (hp : HoldAlike b p) {kept group : List (Clause α)}
    (h : GroupCovers kept group) (hkept : ∀ c ∈ kept, p c) (hgroup : ∀ c ∈ group, p c)
    (hholds : ∀ c ∈ group, c.holds b = .ok true) : ∀ c ∈ kept, c.holds b = .ok true := by
  intro c hc
  obtain ⟨c', hc', hsame⟩ := h c hc
  rw [hp c c' (hkept c hc) (hgroup c' hc') hsame]
  exact hholds c' hc'

/-- After groups were added some group holds exactly if one did before or one of these does, if clauses
that count as equal hold alike. -/
theorem exists_insertAll_or_iff {p : Clause α → Prop} (hp : HoldAlike b p) {x : Exclusions α}
    {added : List (List (Clause α))} (hx : x.ForallClauses p)
    (hadded : ∀ group ∈ added, ∀ c ∈ group, p c) :
    (∃ group ∈ (x.insertAll added).groups, ∀ c ∈ group, c.holds b = .ok true) ↔
      (∃ group ∈ x.groups, ∀ c ∈ group, c.holds b = .ok true) ∨
        ∃ group ∈ added, ∀ c ∈ group, c.holds b = .ok true := by
  have hclauses : (x.insertAll added).ForallClauses p := hx.insertAll hadded
  constructor
  · rintro ⟨group, hgroup, hholds⟩
    obtain hgroup' | ⟨g, hg, rfl⟩ := of_mem_insertAll hgroup
    · exact .inl ⟨group, hgroup', hholds⟩
    · exact .inr ⟨g, hg,
        (groupCovers_normalGroup g).holds hp (hadded g hg) (hclauses _ hgroup) hholds⟩
  · rintro (⟨group, hgroup, hholds⟩ | ⟨group, hgroup, hholds⟩)
    · exact ⟨group, mem_insertAll_of_mem hgroup added, hholds⟩
    · obtain ⟨kept, hkept, hcovers⟩ := covers_insertAll_of_mem hgroup x
      exact ⟨kept, hkept, hcovers.holds hp (hclauses kept hkept) (hadded group hgroup) hholds⟩

/-- Some group of exclusions made of given groups holds exactly if one of these does, if clauses that
count as equal hold alike. -/
theorem exists_insertAll_iff {p : Clause α → Prop} (hp : HoldAlike b p)
    {added : List (List (Clause α))} (hadded : ∀ group ∈ added, ∀ c ∈ group, p c) :
    (∃ group ∈ (empty.insertAll added).groups, ∀ c ∈ group, c.holds b = .ok true) ↔
      ∃ group ∈ added, ∀ c ∈ group, c.holds b = .ok true := by
  have hempty : (empty : Exclusions α).ForallClauses p := fun _ h => nomatch h
  exact (exists_insertAll_or_iff hp hempty hadded).trans (by simp [empty])

end Lawful

variable [Scalar.Signed α] [Scalar.Scaling α] [Scalar.Raising α]

/-- Tidying exclusions whose clauses are on canonical forms does not change whether a point is excluded
at which all variables have values, if stripping makes no difference there to any clause that asks
whether its operand is zero, and if tidied clauses that count as equal hold alike there. -/
theorem excludes_tidy {x y : Exclusions α} (hcanonical : x.ForallClauses IsCanonical)
    (htidy : x.tidy limits = .ok y)
    (hbound : x.ForallClauses fun c => c.operand.VariablesIn fun name => (b.get? name).isSome)
    (hsharp : x.ForallClauses fun c => c.testsZero = true → Sharp b c.comparator c.operand)
    (hsame : HoldAlike b (TidiedFrom limits x)) :
    ∃ r, x.excludes b = .ok r ∧ y.excludes b = .ok r := by
  have hholds : ∀ group ∈ x.groups, ∀ c ∈ group, ∀ c', c.tidy limits = .ok c' →
      c'.holds b = c.holds b :=
    fun group hgroup c hc c' hc' => Clause.holds_tidy (hcanonical group hgroup c hc) hc'
      (hbound group hgroup c hc) (hsharp group hgroup c hc)
  have htested : x.ForallClauses fun c => ∃ r, c.holds b = .ok r :=
    fun group hgroup c hc => Clause.exists_holds (hbound group hgroup c hc)
  have htested' : y.ForallClauses fun c => ∃ r, c.holds b = .ok r :=
    ForallClauses.tidy (fun group hgroup c hc c' hc' => by
      rw [hholds group hgroup c hc c' hc']
      exact htested group hgroup c hc) htidy
  suffices hiff : x.excludes b = .ok true ↔ y.excludes b = .ok true by
    obtain ⟨r, hr⟩ := exists_excludes htested
    obtain ⟨r', hr'⟩ := exists_excludes htested'
    refine ⟨r, hr, ?_⟩
    rw [hr, hr'] at hiff
    rw [hr']
    cases r <;> cases r' <;> simp_all
  rw [excludes_iff htested, excludes_iff htested']
  rw [tidy] at htidy
  obtain ⟨tidied, htidied, htidy⟩ := Reduction.ok_of_bind htidy
  cases htidy
  refine (exists_tidyGroups_iff hholds htidied).trans (exists_insertAll_iff hsame ?_).symm
  exact forall_tidyGroups (fun group hgroup raw hraw _ hc => ⟨group, hgroup, raw, hraw, hc⟩) htidied

/-- A power of a variable. -/
def powerOf (x : String) (p : ℝ) : Expr Exact := .power (.var x) (.number (.real (.number p)))

/-- The only group asks whether an expression is zero, or whether it is not. -/
noncomputable def zeroTest (e : Expr Exact) (comparator : Comparator) : Exclusions Exact :=
  ⟨[[.plain e comparator Scalar.zero]]⟩

/-- Such exclusions exclude the points where their clause holds. -/
theorem excludes_zeroTest {e : Expr Exact} {comparator : Comparator} {b : Bindings Exact} :
    (zeroTest e comparator).excludes b = (plain e comparator Scalar.zero).holds b := by
  rw [zeroTest, excludes, someGroupHolds, groupHolds]
  cases (plain e comparator Scalar.zero).holds b with
  | error failure => rfl
  | ok r => cases r <;> rfl

/-- A variable that has a value. -/
def valueAt (x : String) (r : ℝ) : Bindings Exact := ⟨[(x, .number r)]⟩

/-- A power to a positive exponent other than one is a canonical form. -/
theorem canonicalForm_powerOf (x : String) {p : ℝ} (hp : 0 < p) (hone : p ≠ 1) :
    Reduction.canonicalForm {} (powerOf x p) = .ok (powerOf x p) := by
  have hstable : Reduction.Stable (powerOf x p) := by
    refine Reduction.stable_power.mpr ⟨⟨?_, ?_, fun _ _ => trivial⟩, Reduction.stable_var x,
      Reduction.stable_number _⟩
    · simp [Reduction.plainPower?, Reduction.literalPower?, Reduction.logBody?, Expr.isReal,
        Expr.real?, Number.real?, hp.ne', hone]
    · simp [Expr.isNegative, hp.le]
  have hunlike : Reduction.Unlike (powerOf x p) := by
    intro y hy
    obtain rfl | rfl | rfl : y = .var x ∨ y = .number (.real (.number p)) ∨ y = powerOf x p := by
      change y ∈ [_, _, powerOf x p] at hy
      simpa using hy
    all_goals trivial
  have hsize : Reduction.checkSize {} (powerOf x p) = .ok () := rfl
  obtain ⟨steps, hsettle⟩ := (Reduction.round_self hstable hunlike).settle_self hsize (by decide)
  rw [Reduction.canonicalForm, hsettle]
  rfl

/-- A clause that asks whether such a power is zero is tidied to one on its base. -/
theorem tidy_plain_powerOf (x : String) {p : ℝ} (hp : 0 < p) (hone : p ≠ 1) {comparator : Comparator}
    (hcomparator : comparator = .eq ∨ comparator = .ne) :
    (plain (powerOf x p) comparator Scalar.zero).tidy {} =
      .ok (plain (.var x) comparator Scalar.zero) := by
  have htests : (plain (powerOf x p) comparator Scalar.zero).testsZero = true := by
    obtain rfl | rfl := hcomparator <;>
      simp [testsZero, plain, Number.literal, Number.order, Scalar.order, Exact.order]
  have hcore : zeroCore (powerOf x p) = .var x := by
    simp [powerOf, zeroCore, isPositive, Expr.real?, Number.real?, hp]
  rw [Clause.tidy, show (plain (powerOf x p) comparator Scalar.zero).operand = powerOf x p from rfl,
    canonicalForm_powerOf x hp hone, htests]
  change Except.ok _ = _
  rw [if_pos rfl, hcore]
  rfl

/-- Exclusions with such a clause only are tidied to those with its tidied clause. -/
theorem tidy_powerOf (x : String) {p : ℝ} (hp : 0 < p) (hone : p ≠ 1) {comparator : Comparator}
    (hcomparator : comparator = .eq ∨ comparator = .ne) :
    (zeroTest (powerOf x p) comparator).tidy {} = .ok (zeroTest (.var x) comparator) := by
  have hgroup : tidyGroup {} [plain (powerOf x p) comparator Scalar.zero] =
      .ok (some [plain (.var x) comparator Scalar.zero]) := by
    rw [tidyGroup, tidy_plain_powerOf x hp hone hcomparator]
    simp only [bind, Except.bind, plain, constantTruth_var]
    rfl
  rw [zeroTest, tidy, tidyGroups, hgroup]
  change Except.ok (empty.insert [plain (.var x) comparator Scalar.zero]) = _
  rw [insert, normalGroup_singleton]
  rfl

/-- The square of a variable is zero exactly where the variable is, before and after tidying. -/
theorem excludes_tidy_square :
    (zeroTest (powerOf "x" 2) .eq).tidy {} = .ok (zeroTest (.var "x") .eq) ∧
      ∃ r, (zeroTest (powerOf "x" 2) .eq).excludes (valueAt "x" 0) = .ok r ∧
        (zeroTest (.var "x") .eq).excludes (valueAt "x" 0) = .ok r := by
  have hclauses {p : Clause Exact → Prop} (h : p (plain (powerOf "x" 2) .eq Scalar.zero)) :
      (zeroTest (powerOf "x" 2) .eq).ForallClauses p :=
    List.forall_mem_singleton.mpr (List.forall_mem_singleton.mpr h)
  have htidy := tidy_powerOf "x" two_pos (by norm_num) (.inl rfl)
  refine ⟨htidy, excludes_tidy (hclauses ?_) htidy (hclauses ?_) (hclauses fun _ => ?_) ?_⟩
  · exact ⟨{}, powerOf "x" 2, canonicalForm_powerOf "x" two_pos (by norm_num)⟩
  · exact Expr.hereditary_variablesIn.power.mpr
      ⟨Expr.everywhere_of_leaf rfl rfl, Expr.everywhere_of_leaf rfl trivial⟩
  · refine ⟨fun outer inner v w houter hstrips hv hw _ => ?_, fun c y hcore => ?_, nofun⟩
    · cases houter with
      | refl =>
        cases hstrips
        cases hw
        simp
      | power _ hcore =>
        cases hcore
        cases hstrips
    · cases hcore with
      | power _ hcore => cases hcore
  · have htidied {c : Clause Exact} (h : TidiedFrom {} (zeroTest (powerOf "x" 2) .eq) c) :
        c = plain (.var "x") .eq Scalar.zero := by
      obtain ⟨group, hgroup, raw, hraw, hc⟩ := h
      obtain rfl := List.mem_singleton.mp hgroup
      obtain rfl := List.mem_singleton.mp hraw
      rw [tidy_plain_powerOf "x" two_pos (by norm_num) (.inl rfl)] at hc
      exact (Except.ok.inj hc).symm
    intro c c' hc hc' _
    rw [htidied hc, htidied hc']

/-- The root of a negative number is missing, so it is not other than zero; once the exponent is
stripped, the number is. -/
theorem excludes_tidied_root :
    (zeroTest (powerOf "x" 2⁻¹) .ne).tidy {} = .ok (zeroTest (.var "x") .ne) ∧
      (zeroTest (powerOf "x" 2⁻¹) .ne).excludes (valueAt "x" (-1)) = .ok false ∧
      (zeroTest (.var "x") .ne).excludes (valueAt "x" (-1)) = .ok true := by
  refine ⟨tidy_powerOf "x" (by norm_num) (by norm_num) (.inr rfl), ?_, ?_⟩
  · have hfraction : Scalar.isWhole (Exact.number 2⁻¹) = false := by
      rw [Bool.eq_false_iff, ne_eq, Exact.isWhole_iff]
      rintro ⟨n, hn⟩
      have hdouble : (2 * n : ℝ) = 1 := by linarith [Exact.number.inj hn]
      norm_cast at hdouble
      omega
    have hvalue : Expr.powerValue (Exact.number (-1)) (.number 2⁻¹) = .missing := by
      simp [Expr.powerValue, hfraction]
    rw [excludes_zeroTest]
    change Except.ok ((plain _ _ _ : Clause Exact).test
      (Expr.powerValue (Exact.number (-1)) (.number 2⁻¹))) = _
    rw [hvalue]
    rfl
  · rw [excludes_zeroTest]
    change Except.ok ((plain (.var "x") .ne Scalar.zero : Clause Exact).test (.number (-1))) = _
    simp [plain, test, isNaN, Number.literal, Number.value]

end Exclusions

end SymbolicAlgebra
