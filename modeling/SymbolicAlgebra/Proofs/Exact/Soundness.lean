import SymbolicAlgebra.Proofs.Exact.Fraction
import SymbolicAlgebra.Proofs.Exact.Function
import SymbolicAlgebra.Proofs.Exact.Laws
import SymbolicAlgebra.Proofs.Reduction.Performed

/-!
# Simplification keeps what expressions mean

Every rule results in an expression that means what the parts of the rule make up, wherever that has
a meaning. The rules for powers and products need plain parts for it; the pass that applies all rules
needs none, since it makes plain parts first. Only a logarithm of literals that is close to a whole number
is rounded, so that all of this is said of calls that round no logarithm.
-/

namespace SymbolicAlgebra.Reduction

open Exact Projective SymbolicAlgebra.Expr

variable {b : Bindings Exact}

/-- A whole exponent is a literal with this value. -/
theorem real?_of_wholeExponent? {e : Expr Exact} {k : ℤ} (h : wholeExponent? e = some k) :
    e.real? = some (.number k) := by
  rw [wholeExponent?] at h
  split at h
  · rename_i v hv
    split at h
    · rename_i hwhole
      rw [Bool.and_eq_true] at hwhole
      obtain ⟨n, rfl⟩ := isWhole_iff.mp hwhole.1
      cases h
      rw [hv]
      exact congrArg (fun m : ℤ => some (Exact.number m)) (Int.floor_intCast n).symm
    · cases h
  · cases h

/-- A whole exponent of a power that stays one is a positive number. -/
theorem exists_natCast_of_wholeExponent? {base exponent : Expr Exact} {k : ℤ}
    (hplain : plainPower? base exponent = none) (hneg : exponent.isNegative = false)
    (hwhole : wholeExponent? exponent = some k) :
    ∃ n : ℕ, 0 < n ∧ k = n ∧ exponent.meaning b = finite n := by
  have hreal := real?_of_wholeExponent? hwhole
  cases exponent with
  | number v =>
    cases v with
    | real v =>
      cases hreal
      have hnonneg : 0 ≤ k := by simpa [isNegative] using hneg
      have hne : k ≠ 0 := by
        rintro rfl
        rw [plainPower?, if_pos (by simp [isReal, real?, Number.real?])] at hplain
        cases hplain
      obtain ⟨n, rfl⟩ := Int.eq_ofNat_of_zero_le hnonneg
      refine ⟨n, by omega, rfl, ?_⟩
      rw [meaning, Number.value, Int.cast_natCast]
      rfl
    | constant c => cases hreal
  | _ => cases hreal

/-- A power of literals means what it is computed to be. -/
theorem power_le_of_literalPower? {base exponent : Expr Exact} {v : Exact}
    (h : literalPower? base exponent = some v) :
    (base.meaning b).power (exponent.meaning b) ≤ ofExact v := by
  rw [literalPower?] at h
  split at h
  · rename_i x y hx hy
    rw [meaning_of_real? hx, meaning_of_real? hy]
    cases x with
    | missing => rw [ofExact_missing, absent_power]; exact absent_le
    | number a =>
      cases y with
      | missing => rw [ofExact_missing, power_absent]; exact absent_le
      | number e =>
        have hvalue : Scalar.pow (number a) (number e) = Exact.power (number a) (number e) := rfl
        by_cases hpower : HasPower a e
        · rw [Exact.power, if_pos hpower] at hvalue
          simp only [hvalue] at h
          split at h
          · cases h
            exact (realPower_of_hasPower hpower).le
          · cases h
        · rw [Exact.power, if_neg hpower] at hvalue
          simp only [hvalue] at h
          cases h
  · cases h

/-- A power that follows from its parts means their power. -/
theorem meaning_plainPower? {base exponent : Expr Exact} {found : Traced (Expr Exact)}
    (h : plainPower? base exponent = some found) :
    (base.meaning b).power (exponent.meaning b) ≤ found.value.meaning b := by
  have outcome := powerOutcome h
  generalize found.value = e at outcome
  cases outcome with
  | exponentZero h =>
    rw [Exact.zero_eq] at h
    rw [meaning_of_isReal h, meaning_one]
    exact power_zero_le _
  | exponentOne h =>
    rw [Exact.one_eq] at h
    rw [meaning_of_isReal h, power_one]
  | baseOne h =>
    rw [Exact.one_eq] at h
    rw [meaning_of_isReal h, meaning_one]
    exact one_power_le _
  | literal h =>
    rw [meaning_real]
    exact power_le_of_literalPower? h
  | logarithm hb =>
    rw [meaning, meaning_eq_of_beq hb]
    exact power_log_le _ _

/-- Powers of factors to a positive whole exponent make up the power of the product. -/
theorem prod_pow_le {es es' : List (Expr Exact)} {n : ℕ} (hn : 0 < n)
    (h : List.Forall₂ (fun e e' => (e.meaning b).power (finite n) ≤ e'.meaning b) es es') :
    (es.map (meaning b)).prod ^ n ≤ (es'.map (meaning b)).prod := by
  induction h with
  | nil => rw [List.map_nil, List.prod_nil, one_pow]
  | cons he _ ih =>
    rw [power_natCast _ hn] at he
    rw [List.map_cons, List.prod_cons, mul_pow, List.map_cons, List.prod_cons]
    exact mul_le_mul' he ih

/-- A list of expressions means what that of their simplifications means. -/
theorem map_le_map {es es' : List (Expr Exact)}
    (h : List.Forall₂ (fun e e' => e.meaning b ≤ e'.meaning b) es es') :
    List.Forall₂ (· ≤ ·) (es.map (meaning b)) (es'.map (meaning b)) := by
  rw [List.forall₂_map_left_iff, List.forall₂_map_right_iff]
  exact h

/-- A power to a negative exponent is the reciprocal of the one to the opposite exponent. -/
theorem meaning_relocate {base exponent positive moved : Expr Exact}
    (hpositive : exponent.neg.meaning b ≤ positive.meaning b)
    (hmoved : (base.meaning b).power (positive.meaning b) ≤ moved.meaning b) :
    (base.meaning b).power (exponent.meaning b) ≤ (moved.meaning b)⁻¹ := by
  rw [meaning_neg] at hpositive
  exact power_le_inv ((power_mono le_rfl hpositive).trans hmoved)

/-- A power of a power to a positive whole exponent is one to the product of both exponents. -/
theorem meaning_nest {inner inside exponent folded : Expr Exact} {k : ℤ}
    (hplain : plainPower? (.power inner inside) exponent = none)
    (hneg : exponent.isNegative = false) (hwhole : wholeExponent? exponent = some k)
    (hfolded : inside.meaning b * exponent.meaning b ≤ folded.meaning b) :
    ((Expr.power inner inside).meaning b).power (exponent.meaning b) ≤
      (inner.meaning b).power (folded.meaning b) := by
  obtain ⟨n, hn, -, hmeaning⟩ := exists_natCast_of_wholeExponent? (b := b) hplain hneg hwhole
  calc ((Expr.power inner inside).meaning b).power (exponent.meaning b)
      = (inner.meaning b).power (inside.meaning b) ^ n := by
        rw [hmeaning, power_natCast _ hn, meaning]
    _ ≤ (inner.meaning b).power (finite n * inside.meaning b) := power_pow_le _ _ hn
    _ ≤ (inner.meaning b).power (folded.meaning b) := by
        refine power_mono le_rfl ?_
        rwa [← hmeaning, mul_comm]

/-- A power of a product to a positive whole exponent is the product of the powers of its parts. -/
theorem meaning_spread {c : Coefficient Exact} {n d n' d' : List (Expr Exact)}
    {exponent : Expr Exact} {k : ℤ} (hplain : plainPower? (.product c n d) exponent = none)
    (hneg : exponent.isNegative = false) (hwhole : wholeExponent? exponent = some k)
    (hn : List.Forall₂ (fun x y => (x.meaning b).power (exponent.meaning b) ≤ y.meaning b) n n')
    (hd : List.Forall₂ (fun x y => (x.meaning b).power (exponent.meaning b) ≤ y.meaning b) d d') :
    ((Expr.product c n d).meaning b).power (exponent.meaning b) ≤
      (c.zpow k).meaning * (n'.map (meaning b)).prod * (d'.map (meaning b)).prod⁻¹ := by
  obtain ⟨m, hm, rfl, hmeaning⟩ := exists_natCast_of_wholeExponent? (b := b) hplain hneg hwhole
  rw [hmeaning] at hn hd
  calc ((Expr.product c n d).meaning b).power (exponent.meaning b)
      = c.meaning ^ m * (n.map (meaning b)).prod ^ m * ((d.map (meaning b)).prod ^ m)⁻¹ := by
        rw [hmeaning, power_natCast _ hm, meaning_product, mul_pow, mul_pow, inv_pow]
    _ ≤ (c.zpow m).meaning * (n'.map (meaning b)).prod * (d'.map (meaning b)).prod⁻¹ := by
        rw [Coefficient.meaning_zpow c hm]
        exact mul_le_mul' (mul_le_mul_right (prod_pow_le hm hn) _) (inv_mono (prod_pow_le hm hd))

/-- The literal that the factors of a product are raised to is the exponent of the product. -/
theorem real_of_wholeExponent? {exponent : Expr Exact} {k : ℤ}
    (h : wholeExponent? exponent = some k) : Expr.real (Scalar.ofInt k) = exponent := by
  have hreal := real?_of_wholeExponent? h
  cases exponent with
  | number v =>
    cases v with
    | real v =>
      cases hreal
      rw [Expr.real, Number.literal, unsignZero_eq, ofInt_eq]
    | constant c => cases hreal
  | _ => cases hreal

/-- A product means what that of its simplified factors means. -/
theorem meaning_product_le {c : Coefficient Exact} {n d n' d' : List (Expr Exact)}
    (hn : List.Forall₂ (fun e e' => e.meaning b ≤ e'.meaning b) n n')
    (hd : List.Forall₂ (fun e e' => e.meaning b ≤ e'.meaning b) d d') :
    (Expr.product c n d).meaning b ≤
      c.meaning * (n'.map (meaning b)).prod * (d'.map (meaning b)).prod⁻¹ := by
  rw [meaning_product]
  have habove := List.Forall₂.prod_le_prod' (map_le_map hn)
  have hbelow := List.Forall₂.prod_le_prod' (map_le_map hd)
  exact mul_le_mul' (mul_le_mul_right habove _) (inv_mono hbelow)

/-- The last expression means the power of the plain ones before it, and is plain. -/
def KeepsPower (b : Bindings Exact) (base exponent e : Expr Exact) : Prop :=
  base.Plain → exponent.Plain →
    (base.meaning b).power (exponent.meaning b) ≤ e.meaning b ∧ e.Plain

/-- The last product in the making means what the first does if the first has plain factors, and has
plain factors then. -/
def KeepsFraction (b : Bindings Exact) (f g : Fraction Exact) : Prop :=
  f.Has Plain → f.meaning b ≤ g.meaning b ∧ g.Has Plain

/-- The expression means the product of the coefficient and the plain factors, and is plain. -/
def KeepsProduct (b : Bindings Exact) (c : Coefficient Exact) (n d : List (Expr Exact))
    (e : Expr Exact) : Prop :=
  (∀ x ∈ n, x.Plain) → (∀ x ∈ d, x.Plain) →
    c.meaning * (n.map (meaning b)).prod * (d.map (meaning b)).prod⁻¹ ≤ e.meaning b ∧ e.Plain

/-- The last expression means what the first does, and is plain. -/
def KeepsMeaning (b : Bindings Exact) (e e' : Expr Exact) : Prop :=
  e.meaning b ≤ e'.meaning b ∧ e'.Plain

/-- All rules keep what the plain parts mean that they are applied to, and make plain results; those for
logarithms do so where they round nothing. -/
theorem sound_closed :
    ClosedButLogs (KeepsPower b) (KeepsFraction b) (KeepsProduct b) (KeepsMeaning b) where
  plain h hbase hexponent :=
    ⟨meaning_plainPower? h, hereditary_plain.plainPower h hbase hexponent⟩
  relocate {base exponent positive moved e} _ _ hpositive hmoved he hbase _ := by
    obtain ⟨hneg, hpositive⟩ := hpositive
    obtain ⟨hmoved, hplain⟩ := hmoved hbase hpositive
    obtain ⟨he, hresult⟩ := he (by simp) (by simpa using hplain)
    exact ⟨(meaning_relocate hneg hmoved).trans (by simpa using he), hresult⟩
  nest hplain hneg hwhole hfolded he hbase hexponent := by
    obtain ⟨hinner, hinside⟩ := hereditary_plain.power.mp hbase
    obtain ⟨hfolded, hfoldedPlain⟩ := hfolded (by simpa using ⟨hinside, hexponent⟩) (by simp)
    obtain ⟨he, hresult⟩ := he hinner hfoldedPlain
    exact ⟨(meaning_nest hplain hneg hwhole (by simpa using hfolded)).trans he, hresult⟩
  spread {c n d n' d' exponent e k} hplain hneg hwhole _ hn hd he hbase hexponent := by
    obtain ⟨above, below⟩ := hereditary_plain.factors hbase
    rw [real_of_wholeExponent? hwhole] at hn hd
    have hpowers {es es' : List (Expr Exact)} (hes : ∀ x ∈ es, x.Plain)
        (h : List.Forall₂ (fun x y => x.Plain → exponent.Plain →
          (x.meaning b).power (exponent.meaning b) ≤ y.meaning b ∧ y.Plain) es es') :
        List.Forall₂ (fun x y => (x.meaning b).power (exponent.meaning b) ≤ y.meaning b ∧ y.Plain)
          es es' :=
      ((List.forall₂_and_left _ _).mpr ⟨hes, h⟩).imp fun x y hxy => hxy.2 hxy.1 hexponent
    have habove := hpowers above hn
    have hbelow := hpowers below hd
    obtain ⟨he, hresult⟩ := he (forall_of_forall₂ habove fun _ _ _ h => h.2)
      (forall_of_forall₂ hbelow fun _ _ _ h => h.2)
    refine ⟨(meaning_spread hplain hneg hwhole ?_ ?_).trans he, hresult⟩
    · exact habove.imp fun _ _ h => h.1
    · exact hbelow.imp fun _ _ h => h.1
  remain _ _ _ hbase hexponent := by
    refine ⟨?_, hereditary_plain.power.mpr ⟨hbase, hexponent⟩⟩
    rw [meaning]
  done _ h := ⟨le_rfl, h⟩
  cancelAbove h hu hl _ hfactor hg has := by
    obtain ⟨rest, hbase, -⟩ := has.without hereditary_plain.powerParts h
    obtain ⟨hfactor, hplain⟩ := hfactor hbase (hereditary_plain.real _)
    obtain ⟨hg, hresult⟩ :=
      hg (rest.absorb (fun _ _ _ => hereditary_plain.factors) .above _ hplain)
    have hcommon := Fraction.meaning_common_above (b := b) h hu hl
    exact ⟨(Fraction.meaning_restore hcommon hfactor).trans hg, hresult⟩
  cancelBelow h hu hl _ hfactor hg has := by
    obtain ⟨rest, hbase, -⟩ := has.without hereditary_plain.powerParts h
    obtain ⟨hfactor, hplain⟩ := hfactor hbase (hereditary_plain.real _)
    obtain ⟨hg, hresult⟩ :=
      hg (rest.absorb (fun _ _ _ => hereditary_plain.factors) .below _ hplain)
    have hcommon := Fraction.meaning_common_below (b := b) h hu hl
    exact ⟨(Fraction.meaning_restore hcommon hfactor).trans hg, hresult⟩
  cancelBoth h hu hl hpos hneg hg has := by
    obtain ⟨rest, -⟩ := has.without hereditary_plain.powerParts h
    obtain ⟨hg, hresult⟩ := hg rest
    exact ⟨(Fraction.meaning_without h hu hl hpos hneg).trans hg, hresult⟩
  cancelSymbolic h _ hfactor hg has := by
    obtain ⟨rest, hbase, hupper, hlower⟩ := has.without hereditary_plain.powerParts h
    obtain ⟨hfactor, hplain⟩ := hfactor hbase (hereditary_plain.difference hupper hlower)
    obtain ⟨hg, hresult⟩ :=
      hg (rest.absorb (fun _ _ _ => hereditary_plain.factors) .above _ hplain)
    have hcommon := Fraction.meaning_common_symbolic (b := b) h
    exact ⟨(Fraction.meaning_restore hcommon hfactor).trans hg, hresult⟩
  multiply {c n d f} hf hn hd := by
    obtain ⟨hf, hplain⟩ := hf (.gathered (fun _ _ _ => hereditary_plain.factors) c hn hd)
    refine ⟨?_, hereditary_plain.finish ⟨trivial, fun _ => hereditary_plain.real _, hplain⟩⟩
    exact (Fraction.meaning_gather c n d).trans (hf.trans (Fraction.meaning_finish hplain))
  sum {addends addends'} h := by
    have hplain := forall_of_forall₂ h fun _ _ _ h => h.2
    refine ⟨?_, hereditary_plain.sumRule hplain⟩
    rw [meaning_sum]
    exact (List.Forall₂.sum_le_sum (map_le_map (h.imp fun _ _ h => h.1))).trans (meaning_sumRule _)
  fraction {c n d n' d' e} hn hd he := by
    obtain ⟨he, hplain⟩ :=
      he (forall_of_forall₂ hn fun _ _ _ h => h.2) (forall_of_forall₂ hd fun _ _ _ h => h.2)
    refine ⟨(meaning_product_le ?_ ?_).trans he, hplain⟩
    · exact hn.imp fun _ _ h => h.1
    · exact hd.imp fun _ _ h => h.1
  raise hbase hexponent he := by
    obtain ⟨he, hplain⟩ := he hbase.2 hexponent.2
    refine ⟨?_, hplain⟩
    rw [meaning]
    exact (power_mono hbase.1 hexponent.1).trans he
  trig hbody := by
    refine ⟨?_, hereditary_plain.trigRule hbody.2⟩
    rw [meaning]
    exact (apply_mono hbody.1).trans (meaning_trigRule _ _)
  var _ := ⟨le_rfl, everywhere_of_leaf rfl trivial⟩
  number _ := ⟨le_rfl, everywhere_of_leaf rfl trivial⟩

/-- The rule for logarithms keeps what they mean, and makes plain results, unless it rounds one. -/
theorem KeepsMeaning.log {base body base' body' : Expr Exact} (hbase : KeepsMeaning b base base')
    (hbody : KeepsMeaning b body body') (hunrounded : (Operation.log base' body').Unrounded) :
    KeepsMeaning b (.log base body) (logRule base' body').value := by
  refine ⟨?_, hereditary_plain.logRule hbase.2 hbody.2⟩
  rw [meaning]
  exact (log_mono hbase.1 hbody.1).trans (meaning_logRule hunrounded)

/-- The power rule keeps what plain parts mean as long as it rounds no logarithm. -/
theorem meaning_powerRule {fuel : ℕ} {base exponent e : Expr Exact} (hbase : base.Plain)
    (hexponent : exponent.Plain) (h : (powerRule fuel base exponent).Returns e)
    (hunrounded : (Call.power base exponent).Unrounded) :
    (base.meaning b).power (exponent.meaning b) ≤ e.meaning b :=
  (((sound_closed.throughout KeepsMeaning.log).power_returns h).2 hunrounded hbase hexponent).1

/-- Simplification keeps what an expression means as long as it rounds no logarithm. -/
theorem meaning_simplify {fuel : ℕ} {e e' : Expr Exact} (h : (simplify fuel e).Returns e')
    (hunrounded : (Call.simplify e).Unrounded) : e.meaning b ≤ e'.meaning b :=
  (((sound_closed.throughout KeepsMeaning.log).simplify_returns h).2 hunrounded).1

end SymbolicAlgebra.Reduction
