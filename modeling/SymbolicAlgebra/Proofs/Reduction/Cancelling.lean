import SymbolicAlgebra.Proofs.Expr.Reordered
import SymbolicAlgebra.Proofs.Reduction.Fraction

/-!
# Cancelling in any order

Cancellation takes the first base that it finds on both sides of a fraction line. Here the same steps
are taken with any common base, so that they do not depend on the sequence of the factors. What the
rules make of a product is determined where no sequence of its factors and no choice of bases leads to
another fraction.
-/

namespace SymbolicAlgebra.Reduction

open SymbolicAlgebra.Expr

namespace Fraction

section Factors

variable {α : Type}

/-- Two fractions have the same factors on each side, in any sequence. -/
structure SameFactors (f g : Fraction α) : Prop where
  zeroDivisor : f.zeroDivisor = g.zeroDivisor
  numerator : f.numerator.Perm g.numerator
  denominator : f.denominator.Perm g.denominator

/-- Two fractions have the same coefficient and the same factors. -/
structure Alike (f g : Fraction α) : Prop extends SameFactors f g where
  coefficient : f.coefficient = g.coefficient

/-- A fraction has its own factors. -/
theorem SameFactors.refl (f : Fraction α) : SameFactors f f := ⟨rfl, .refl _, .refl _⟩

/-- Fractions that have the factors of another have the same factors. -/
theorem SameFactors.trans {f g h : Fraction α} (hfg : SameFactors f g) (hgh : SameFactors g h) :
    SameFactors f h :=
  ⟨hfg.zeroDivisor.trans hgh.zeroDivisor, hfg.numerator.trans hgh.numerator,
    hfg.denominator.trans hgh.denominator⟩

/-- A fraction is like itself. -/
theorem Alike.refl (f : Fraction α) : Alike f f := ⟨.refl f, rfl⟩

/-- Fractions are alike in both directions. -/
theorem Alike.symm {f g : Fraction α} (h : Alike f g) : Alike g f :=
  ⟨⟨h.zeroDivisor.symm, h.numerator.symm, h.denominator.symm⟩, h.coefficient.symm⟩

/-- Fractions that are like another are alike. -/
theorem Alike.trans {f g h : Fraction α} (hfg : Alike f g) (hgh : Alike g h) : Alike f h :=
  ⟨hfg.toSameFactors.trans hgh.toSameFactors, hfg.coefficient.trans hgh.coefficient⟩

/-- The last fraction has the factors of the first and after them those of the second. -/
structure Joins (f g h : Fraction α) : Prop where
  zeroDivisor : h.zeroDivisor = (f.zeroDivisor || g.zeroDivisor)
  numerator : h.numerator = f.numerator ++ g.numerator
  denominator : h.denominator = f.denominator ++ g.denominator

/-- Joining the same factors to the same ones gives the same ones. -/
theorem Joins.congr {f f' a fa fa' : Fraction α} (hfa : Joins f a fa) (hfa' : Joins f' a fa')
    (h : SameFactors f f') : SameFactors fa fa' := by
  refine ⟨?_, ?_, ?_⟩
  · rw [hfa.zeroDivisor, hfa'.zeroDivisor, h.zeroDivisor]
  · rw [hfa.numerator, hfa'.numerator]
    exact h.numerator.append_right _
  · rw [hfa.denominator, hfa'.denominator]
    exact h.denominator.append_right _

/-- What is joined one after the other may be joined before. -/
theorem Joins.assoc {f a b ab fa fab : Fraction α} (hfa : Joins f a fa) (hfab : Joins fa b fab)
    (hab : Joins a b ab) : Joins f ab fab := by
  refine ⟨?_, ?_, ?_⟩
  · rw [hfab.zeroDivisor, hfa.zeroDivisor, hab.zeroDivisor, Bool.or_assoc]
  · rw [hfab.numerator, hfa.numerator, hab.numerator, List.append_assoc]
  · rw [hfab.denominator, hfa.denominator, hab.denominator, List.append_assoc]

/-- Two fractions can be joined to a third in either order. -/
theorem Joins.swap {f a b fa fab fb fba : Fraction α} (hfa : Joins f a fa) (hfab : Joins fa b fab)
    (hfb : Joins f b fb) (hfba : Joins fb a fba) : SameFactors fab fba := by
  refine ⟨?_, ?_, ?_⟩
  · rw [hfab.zeroDivisor, hfa.zeroDivisor, hfba.zeroDivisor, hfb.zeroDivisor, Bool.or_right_comm]
  · rw [hfab.numerator, hfa.numerator, hfba.numerator, hfb.numerator, List.append_assoc,
      List.append_assoc]
    exact List.perm_append_comm.append_left _
  · rw [hfab.denominator, hfa.denominator, hfba.denominator, hfb.denominator, List.append_assoc,
      List.append_assoc]
    exact List.perm_append_comm.append_left _

end Factors

variable {α : Type} [Scalar α]

/-- The fraction that has no factors yet. -/
def bare : Fraction α := { coefficient := .one }

mutual

/-- The factors that an expression brings along do not depend on the fraction that takes it in. -/
theorem joins_absorb (side : Side) (f : Fraction α) (e : Expr α) :
    Joins f (absorb side bare e).value (absorb side f e).value := by
  have hplace (e : Expr α) : Joins f (bare.place side e) (f.place side e) := by
    cases side <;> constructor <;> simp [Fraction.place, bare]
  cases e with
  | number v =>
    cases v with
    | real v =>
      rw [absorb, absorb]
      split
      · constructor <;> simp [bare]
      · cases side <;> constructor <;> simp [Fraction.scale, bare]
    | constant c => exact hplace _
  | product c n d =>
    rw [absorb, absorb]
    split
    · constructor <;> simp [bare]
    · have hscale : Joins f (bare.scale side c) (f.scale side c) := by
        cases side <;> constructor <;> simp [Fraction.scale, bare]
      have hn := hscale.assoc (joins_absorbAll side (f.scale side c) n)
        (joins_absorbAll side (bare.scale side c) n)
      exact hn.assoc (joins_absorbAll side.flip _ d) (joins_absorbAll side.flip _ d)
  | sum as => exact hplace _
  | power base exponent => exact hplace _
  | log base body => exact hplace _
  | trig function body => exact hplace _
  | var name => exact hplace _

/-- The factors that expressions bring along do not depend on the fraction that takes them in. -/
theorem joins_absorbAll (side : Side) (f : Fraction α) (es : List (Expr α)) :
    Joins f (absorbAll side bare es).value (absorbAll side f es).value := by
  cases es with
  | nil => constructor <;> simp [absorbAll, bare]
  | cons e es =>
    exact (joins_absorb side f e).assoc (joins_absorbAll side _ es) (joins_absorbAll side _ es)

end

/-- Expressions in another sequence bring along the same factors. -/
theorem sameFactors_absorbAll (side : Side) {f g : Fraction α} (h : SameFactors f g)
    {es fs : List (Expr α)} (hes : es.Perm fs) :
    SameFactors (absorbAll side f es).value (absorbAll side g fs).value := by
  induction hes generalizing f g with
  | nil => exact h
  | cons e _ ih => exact ih ((joins_absorb side f e).congr (joins_absorb side g e) h)
  | swap a b es =>
    have hswap : SameFactors (absorb side (absorb side f b).value a).value
        (absorb side (absorb side g a).value b).value :=
      ((joins_absorb side _ a).congr (joins_absorb side _ a)
        ((joins_absorb side f b).congr (joins_absorb side g b) h)).trans
        ((joins_absorb side g b).swap (joins_absorb side _ a) (joins_absorb side g a)
          (joins_absorb side _ b))
    exact (joins_absorbAll side _ es).congr (joins_absorbAll side _ es) hswap
  | trans _ _ ih ih' => exact (ih h).trans (ih' (.refl g))

/-- The fraction of a coefficient with factors above and below the line. -/
def gather (c : Coefficient α) (n d : List (Expr α)) : Fraction α :=
  (absorbAll .below (absorbAll .above { coefficient := c } n).value d).value

/-- Factors in another sequence make up a fraction with the same factors. -/
theorem sameFactors_gather (c : Coefficient α) {n n' d d' : List (Expr α)} (hn : n.Perm n')
    (hd : d.Perm d') : SameFactors (gather c n d) (gather c n' d') :=
  sameFactors_absorbAll .below (sameFactors_absorbAll .above (.refl _) hn) hd

/-- Some factor above the line and some factor below it have the base, which is not zero; their
exponents and the other factors are the given ones. -/
def Shares (f : Fraction α) (common : Common α) : Prop :=
  common.base.isZero = false ∧
    (∃ e, f.numerator.Perm (e :: common.numerator) ∧
      e.powerParts = (common.base, common.upper)) ∧
    ∃ e, f.denominator.Perm (e :: common.denominator) ∧
      (e.powerParts.1 == common.base) = true ∧ e.powerParts.2 = common.lower

/-- Fractions with the same factors share the same bases. -/
theorem SameFactors.shares {f g : Fraction α} (h : SameFactors f g) {common : Common α}
    (hf : f.Shares common) : g.Shares common := by
  obtain ⟨hzero, ⟨a, ha, hupper⟩, b, hb, hlower⟩ := hf
  exact ⟨hzero, ⟨a, h.numerator.symm.trans ha, hupper⟩, b, h.denominator.symm.trans hb, hlower⟩

/-- What the search for a common base finds is shared. -/
theorem shares_of_common? {f : Fraction α} {common : Common α}
    (h : common? f.denominator f.numerator = some common) : f.Shares common := by
  obtain ⟨before, e, after, hn, hnumerator, hparts, hzero, htake⟩ := common?_some h
  obtain ⟨before', e', after', hd, hdenominator, hbase, hlower⟩ := takeBase?_some htake
  refine ⟨hzero, ⟨e, ?_, hparts⟩, e', ?_, hbase, hlower⟩
  · rw [hn, hnumerator]
    exact List.perm_middle
  · rw [hd, hdenominator]
    exact List.perm_middle

/-- Where the search for a common base finds nothing, nothing is shared. -/
theorem not_shares_of_common? {f : Fraction α} (h : common? f.denominator f.numerator = none)
    (common : Common α) : ¬ f.Shares common := by
  rintro ⟨hzero, ⟨a, ha, hupper⟩, b, hb, hbase, -⟩
  have hsame := common?_none h a (ha.symm.subset List.mem_cons_self) b
    (hb.symm.subset List.mem_cons_self)
  rw [hupper] at hsame
  rw [hsame hbase] at hzero
  cases hzero

/-- Fractions that are alike finish as the same expression, if their factors can be told apart. -/
theorem Alike.finish_eq [Scalar.Lawful α] {f g : Fraction α} (h : Alike f g)
    (hn : Discernible f.numerator) (hd : Discernible f.denominator) : f.finish = g.finish := by
  have hnumerator := sort_congr h.numerator hn
  have hdenominator := sort_congr h.denominator hd
  rw [finish, finish, ← h.coefficient, ← h.zeroDivisor, ← hnumerator]
  cases f.zeroDivisor with
  | true => rfl
  | false =>
    simp only [Bool.false_eq_true, if_false]
    rw [← hdenominator]

/-- One base that is shared is taken away, and its power to the difference of the exponents is put
back; of that, the difference is taken with any bound. -/
inductive Cancels (f : Fraction α) : Fraction α → Prop
  | above {common : Common α} {u l : α} {factor : Expr α} (fuel : Nat) : f.Shares common →
    common.upper.real? = some u → common.lower.real? = some l →
    Scalar.lt Scalar.zero (u - l) = true →
    (powerRule fuel common.base (.real (u - l))).Returns factor →
    Cancels f (absorb .above (f.without common) factor).value
  | below {common : Common α} {u l : α} {factor : Expr α} (fuel : Nat) : f.Shares common →
    common.upper.real? = some u → common.lower.real? = some l →
    Scalar.lt Scalar.zero (u - l) = false → Scalar.lt (u - l) Scalar.zero = true →
    (powerRule fuel common.base (.real (-(u - l)))).Returns factor →
    Cancels f (absorb .below (f.without common) factor).value
  | both {common : Common α} {u l : α} : f.Shares common →
    common.upper.real? = some u → common.lower.real? = some l →
    Scalar.lt Scalar.zero (u - l) = false → Scalar.lt (u - l) Scalar.zero = false →
    Cancels f (f.without common)
  | symbolic {common : Common α} {factor : Expr α} (fuel : Nat) : f.Shares common →
    common.upper.real? = none ∨ common.lower.real? = none →
    (powerRule fuel common.base (sumRule [common.upper, common.lower.neg]).value).Returns factor →
    Cancels f (absorb .above (f.without common) factor).value

/-- A fraction with nothing left to cancel that is reached by cancelling any shared bases. -/
def Cancelled (f g : Fraction α) : Prop :=
  Relation.ReflTransGen Cancels f g ∧ ∀ common, ¬ g.Shares common

/-- What cancels in a fraction cancels in one that is like it. -/
theorem Alike.cancels {f f' g : Fraction α} (h : Alike f f') (hf : Cancels f g) :
    Cancels f' g := by
  have hwithout (common : Common α) : f.without common = f'.without common := by
    rw [Fraction.without, Fraction.without, h.coefficient, h.zeroDivisor]
  cases hf with
  | above fuel hshares hu hl hpos hfactor =>
    rw [hwithout]
    exact .above fuel (h.shares hshares) hu hl hpos hfactor
  | below fuel hshares hu hl hpos hneg hfactor =>
    rw [hwithout]
    exact .below fuel (h.shares hshares) hu hl hpos hneg hfactor
  | both hshares hu hl hpos hneg =>
    rw [hwithout]
    exact .both (h.shares hshares) hu hl hpos hneg
  | symbolic fuel hshares hsymbolic hfactor =>
    rw [hwithout]
    exact .symbolic fuel (h.shares hshares) hsymbolic hfactor

/-- What a fraction is cancelled to is like what one like it is cancelled to, if all ways to cancel
the first agree. -/
theorem Alike.cancelled {f f' g g' : Fraction α} (h : Alike f f')
    (hagree : ∀ a b, Cancelled f a → Cancelled f b → Alike a b) (hf : Cancelled f g)
    (hf' : Cancelled f' g') : Alike g g' := by
  obtain ⟨hreach, hdone⟩ := hf'
  obtain rfl | ⟨mid, hfirst, hrest⟩ := hreach.cases_head
  · have hself : Cancelled f f :=
      ⟨.refl, fun common hshares => hdone common (h.shares hshares)⟩
    exact (hagree g f hf hself).trans h
  · exact hagree g g' hf ⟨.head (h.symm.cancels hfirst) hrest, hdone⟩

end Fraction

open Fraction

variable {α : Type} [Scalar α]

/-- Cancellation cancels shared bases until there are none. -/
theorem cancelled_of_returns {fuel : Nat} {f g : Fraction α}
    (h : (cancel fuel f).Returns g) : Cancelled f g := by
  induction fuel generalizing f with
  | zero =>
    rw [cancel] at h
    exact (Reducing.not_returns_exhausted h).elim
  | succ fuel ih =>
    have step {mid : Fraction α} (hstep : Cancels f mid) (h : (cancel fuel mid).Returns g) :
        Cancelled f g := ⟨.head hstep (ih h).1, (ih h).2⟩
    unfold cancel at h
    cases hcommon : common? f.denominator f.numerator with
    | none =>
      simp only [hcommon] at h
      rw [← Reducing.returns_pure.mp h]
      exact ⟨.refl, not_shares_of_common? hcommon⟩
    | some common =>
      have hshares := shares_of_common? hcommon
      obtain ⟨base, upper, lower, n, d⟩ := common
      simp only [hcommon, Reducing.returns_bind, Reducing.returns_liftM] at h
      obtain ⟨-, -, h⟩ := h
      split at h
      · rename_i u l hu hl
        split at h
        · rename_i hpos
          simp only [Reducing.returns_bind, Reducing.returns_liftM] at h
          obtain ⟨factor, hfactor, _, rfl, hg⟩ := h
          exact step (.above fuel hshares hu hl hpos hfactor) hg
        · rename_i hpos
          split at h
          · rename_i hneg
            simp only [Reducing.returns_bind, Reducing.returns_liftM] at h
            obtain ⟨factor, hfactor, _, rfl, hg⟩ := h
            exact step (.below fuel hshares hu hl (Bool.eq_false_iff.mpr hpos) hneg hfactor) hg
          · rename_i hneg
            exact step (.both hshares hu hl (Bool.eq_false_iff.mpr hpos)
              (Bool.eq_false_iff.mpr hneg)) h
      · rename_i hsymbolic
        simp only [Reducing.returns_bind, Reducing.returns_liftM] at h
        obtain ⟨_, rfl, factor, hfactor, _, rfl, hg⟩ := h
        refine step (.symbolic fuel hshares ?_ hfactor) hg
        cases hu : upper.real? with
        | none => exact .inl rfl
        | some u =>
          cases hl : lower.real? with
          | none => exact .inr rfl
          | some l => exact (hsymbolic u l hu hl).elim

end SymbolicAlgebra.Reduction
