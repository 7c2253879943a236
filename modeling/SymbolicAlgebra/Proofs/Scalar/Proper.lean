import SymbolicAlgebra.Proofs.Scalar.Finite

/-!
# Proper coefficients

What computing with coefficients keeps of how they are represented: the denominator is positive, the
numerator is no negative zero, and both parts of what is not a number over one are exact whole numbers in
lowest terms. A denominator is a product of denominators, which are at least one, with numbers other than
zero, and such a product is not rounded to zero. Only a negative exponent makes a power the denominator:
powers of numbers that are at least one in magnitude do not vanish, but those of smaller ones may, and what
is then made divides by zero.
-/

namespace SymbolicAlgebra

namespace Binary64

open Float.Model Float.Model.UnpackedFloat

/-- What is unpacked of a sign, an exponent and a mantissa without its sign has the positive one. -/
theorem abs_unpack_packComponents (s : Sign) (e : BitVec 11) (m : BitVec 52) :
    (UnpackedFloat.unpack .binary64 (packComponents .binary64 s e m)).abs =
      UnpackedFloat.unpack .binary64 (packComponents .binary64 .positive e m) := by
  simp only [UnpackedFloat.unpack, unpackMantissa_packComponents, unpackExponent_packComponents,
    unpackSign_packComponents, Sign.ofBitVec_toBitVec]
  split_ifs <;> rfl

/-- The sign can be taken off before packing. -/
theorem abs_unpack_pack (u : UnpackedFloat) :
    (UnpackedFloat.unpack .binary64 (UnpackedFloat.pack .binary64 u)).abs =
      UnpackedFloat.unpack .binary64 (UnpackedFloat.pack .binary64 u.abs) := by
  cases u with
  | notANumber => exact congrArg UnpackedFloat.abs unpack_packedNaN
  | infinity s => cases s <;> rfl
  | zero s => cases s <;> rfl
  | finite s m e h =>
    rw [show (UnpackedFloat.finite s m e h).abs = .finite .positive m e h from rfl]
    simp only [UnpackedFloat.pack, apply_ite (UnpackedFloat.unpack .binary64),
      apply_ite UnpackedFloat.abs, abs_unpack_packComponents]
    congr 1
    cases s <;> rfl

/-- Rounding a product does not look at the signs. -/
theorem abs_unpacked_mul (u v : UnpackedFloat) :
    (UnpackedFloat.mul .binary64 u v).abs = UnpackedFloat.mul .binary64 u.abs v.abs := by
  cases u <;> cases v <;> try rfl
  simp only [UnpackedFloat.mul, UnpackedFloat.abs, roundWithAccuracy]
  split_ifs <;> rfl

/-- The magnitude of a product is the product of the magnitudes. -/
theorem abs_mul_abs (x y : Float) : (x * y).abs = x.abs * y.abs := by
  refine eq_of_unpack ?_
  rw [unpack_abs, unpack_mul, abs_unpack_pack, abs_unpacked_mul, unpack_mul, unpack_abs, unpack_abs]

/-- What is not less than one is missing or at least one. -/
theorem lt_one_eq_false (x : Float) : Scalar.lt x Scalar.one = false ↔
    Scalar.isNaN x = true ∨ Scalar.le Scalar.one x = true := by
  rw [Bool.eq_false_iff, ne_eq, lt_iff, isNaN_iff, le_iff, unpack_one]
  cases x.toModel.unpack with
  | notANumber => simp [UnpackedFloat.lt, UnpackedFloat.compare]
  | infinity s => cases s <;> simp [UnpackedFloat.lt, UnpackedFloat.le, UnpackedFloat.compare]
  | zero s => simp [UnpackedFloat.lt, UnpackedFloat.le, UnpackedFloat.compare]
  | finite s m e h =>
    cases s with
    | negative => simp [UnpackedFloat.lt, UnpackedFloat.le, UnpackedFloat.compare]
    | positive =>
      rw [UnpackedFloat.lt, UnpackedFloat.le, UnpackedFloat.compare, UnpackedFloat.compare, beq_iff_eq,
        Option.some_inj, Option.any_some, Ordering.then_eq_lt, Ordering.isLE_then_iff_or,
        compare_lt_iff_lt, compare_lt_iff_lt, compare_lt_iff_lt, compare_eq_iff_eq, compare_eq_iff_eq,
        Nat.isLE_compare]
      simp only [reduceCtorEq, false_or]
      omega

/-- A product of numbers that are not less than one in magnitude is not either. -/
theorem lt_abs_mul_one {x y : Float} (hx : Scalar.lt x.abs Scalar.one = false)
    (hy : Scalar.lt y.abs Scalar.one = false) : Scalar.lt (x * y).abs Scalar.one = false := by
  rw [lt_one_eq_false] at hx hy ⊢
  rw [abs_mul_abs]
  obtain hx | hx := hx
  · exact .inl (Scalar.Propagating.isNaN_mul _ _ (.inl hx))
  · obtain hy | hy := hy
    · exact .inl (Scalar.Propagating.isNaN_mul _ _ (.inr hy))
    · exact .inr (Scalar.Whole.one_le_mul _ _ hx hy)

/-- Zero is less than one in magnitude. -/
theorem lt_abs_one_of_zero {x : Float} (h : Scalar.eq x Scalar.zero = true) :
    Scalar.lt x.abs Scalar.one = true := by
  rw [eq_zero] at h
  rw [lt_iff, unpack_abs, unpack_one]
  cases hx : x.toModel.unpack with
  | zero s => rfl
  | _ => rw [hx] at h; cases h

/-- Powers of numbers that are not less than one in magnitude do not vanish. -/
theorem eq_npow_zero {x : Float} (h : Scalar.lt x.abs Scalar.one = false) (n : Nat) :
    Scalar.eq (Scalar.npow x n) Scalar.zero = false := by
  have hpower : Scalar.lt (Scalar.npow x n).abs Scalar.one = false :=
    Scalar.npow_of_mul (p := fun x : Float => Scalar.lt x.abs Scalar.one = false) rfl
      (fun _ _ => lt_abs_mul_one) h n
  rw [Bool.eq_false_iff]
  intro hzero
  rw [lt_abs_one_of_zero hzero] at hpower
  cases hpower

/-- Exact numbers other than zero are not less than one in magnitude. -/
theorem lt_abs_one_of_isExact {x : Float} (hx : Coefficient.isExact x = true)
    (hzero : Scalar.eq x Scalar.zero = false) : Scalar.lt x.abs Scalar.one = false := by
  obtain ⟨s, n, h, hn, hunpack⟩ := whole_of_isExact hx hzero
  have habs : x.abs.toModel.unpack = wholeOf .positive n h := by
    rw [unpack_abs, hunpack]
    rfl
  refine (lt_one_eq_false _).mpr (.inr ((one_le _).mpr (.inr ⟨_, _, _, habs, ?_⟩)))
  rw [totalExponent, log2_mantissaOf h hn]
  omega

/-- There are two zeros. -/
theorem eq_zero_or_neg_zero {x : Float} (h : Scalar.eq x Scalar.zero = true) :
    x = Scalar.zero ∨ x = -Scalar.zero := by
  rw [eq_zero] at h
  cases hx : x.toModel.unpack with
  | zero s =>
    cases s with
    | positive => exact .inl (eq_of_unpack hx)
    | negative => exact .inr (eq_of_unpack (hx.trans (unpack_neg Scalar.zero).symm))
  | _ => rw [hx] at h; cases h

/-- A zero that has lost its sign is not the negative one. -/
theorem unsignZero_ne_neg_zero (x : Float) : Scalar.unsignZero x ≠ -Scalar.zero := by
  intro hneg
  cases hx : Scalar.eq x Scalar.zero with
  | true =>
    rw [Scalar.unsignZero, Scalar.Unital.add_zero_of_zero x hx] at hneg
    exact absurd hneg (by decide +kernel)
  | false =>
    rw [Scalar.unsignZero_of_ne hx] at hneg
    rw [hneg] at hx
    cases hx

end Binary64

namespace Coefficient

open Binary64

/-- The denominator is positive, the numerator is no negative zero, and unless the denominator is one both
parts are whole numbers below `2 ^ 53` in magnitude whose greatest common divisor is one. -/
structure Proper (c : Coefficient Float) : Prop where
  denom_pos : Scalar.lt Scalar.zero c.denom = true
  numer_ne : c.numer ≠ -Scalar.zero
  fraction : c.denom ≠ Scalar.one →
    (Scalar.isWhole c.numer = true ∧ (Scalar.toInt c.numer).natAbs < 2 ^ 53) ∧
    (Scalar.isWhole c.denom = true ∧ (Scalar.toInt c.denom).natAbs < 2 ^ 53) ∧
    Int.gcd (Scalar.toInt c.numer) (Scalar.toInt c.denom) = 1

/-- Fractions in lowest terms are proper if their numerator is no negative zero. -/
theorem LowestTerms.proper {c : Coefficient Float} (h : c.LowestTerms) (hne : c.numer ≠ -Scalar.zero) :
    c.Proper where
  denom_pos := Scalar.Whole.pos_of_one_le _ h.one_le_denom
  numer_ne := hne
  fraction hone := by
    obtain ⟨hn, hd, -, hgcd⟩ := h.resolve_right hone
    exact ⟨⟨(Bool.and_eq_true_iff.mp hn).1, Scalar.Whole.natAbs_toInt_lt _ hn⟩,
      ⟨(Bool.and_eq_true_iff.mp hd).1, Scalar.Whole.natAbs_toInt_lt _ hd⟩, hgcd⟩

/-- The numerator of a fraction is no negative zero. -/
theorem numer_ofFraction_ne (n d : Float) : (ofFraction n d).numer ≠ -Scalar.zero := by
  simp only [ofFraction]
  generalize (if Scalar.lt d Scalar.zero then -n else n) = n'
  generalize (if Scalar.lt d Scalar.zero then -d else d) = d'
  split_ifs <;> exact unsignZero_ne_neg_zero _

/-- The power of a number below one in magnitude that a negative exponent divides by is not rounded to
zero. -/
def Lasting (c : Coefficient Float) (k : Int) : Prop :=
  k < 0 → Scalar.lt (Scalar.abs c.numer) Scalar.one = true →
    Scalar.eq (Scalar.npow c.numer k.natAbs) Scalar.zero = false

/-- The coefficients that are computed from finite numbers without dividing by zero, where only powers are
taken that are `raised`. -/
inductive Computed (raised : Coefficient Float → Int → Prop) : Coefficient Float → Prop
  | ofFraction {n d : Float} : Scalar.isFinite n = true → Scalar.isFinite d = true →
      Scalar.eq d Scalar.zero = false → Computed raised (ofFraction n d)
  | ofScalar {x : Float} : Scalar.isFinite x = true → Computed raised (ofScalar x)
  | add {a b : Coefficient Float} : Computed raised a → Computed raised b → Computed raised (a + b)
  | mul {a b : Coefficient Float} : Computed raised a → Computed raised b → Computed raised (a * b)
  | div {a b : Coefficient Float} : Computed raised a → Computed raised b → b.isZero = false →
      Computed raised (a / b)
  | neg {c : Coefficient Float} : Computed raised c → Computed raised (-c)
  | zpow {c : Coefficient Float} {k : Int} : Computed raised c → c.isZero = false → raised c k →
      Computed raised (c.zpow k)

/-- Powers to any exponent are in lowest terms if what they divide by is not rounded to zero. -/
theorem LowestTerms.zpow_of_lasting {c : Coefficient Float} (h : c.LowestTerms) {k : Int}
    (hk : Lasting c k) : (c.zpow k).LowestTerms := by
  cases k with
  | ofNat n => exact h.zpow (Int.natCast_nonneg n)
  | negSucc n =>
    refine lowestTerms_ofFraction _ ?_
    cases hsmall : Scalar.lt (Scalar.abs c.numer) Scalar.one with
    | true => exact hk (Int.negSucc_lt_zero n) hsmall
    | false => exact eq_npow_zero hsmall (n + 1)

/-- What is computed without a power that is rounded to zero and divided by is in lowest terms, and its
numerator is no negative zero. -/
theorem Computed.lowestTerms {c : Coefficient Float} (h : Computed Lasting c) :
    c.LowestTerms ∧ c.numer ≠ -Scalar.zero := by
  induction h with
  | ofFraction _ _ hd => exact ⟨lowestTerms_ofFraction _ hd, numer_ofFraction_ne _ _⟩
  | ofScalar _ => exact ⟨lowestTerms_ofScalar _, numer_ofFraction_ne _ _⟩
  | add _ _ iha ihb => exact ⟨iha.1.add ihb.1, numer_ofFraction_ne _ _⟩
  | mul _ _ iha ihb => exact ⟨iha.1.mul ihb.1, numer_ofFraction_ne _ _⟩
  | div _ _ hb iha => exact ⟨iha.1.div hb, numer_ofFraction_ne _ _⟩
  | neg _ ih => exact ⟨ih.1.neg, unsignZero_ne_neg_zero _⟩
  | @zpow c k _ _ hk ih =>
    refine ⟨ih.1.zpow_of_lasting hk, ?_⟩
    cases k <;> exact numer_ofFraction_ne _ _

/-- A power that is rounded to zero and divided by leaves a denominator of zero. -/
theorem LowestTerms.lt_denom_zpow {c : Coefficient Float} (h : c.LowestTerms) (hzero : c.isZero = false)
    {k : Int} (hk : ¬ Lasting c k) : Scalar.lt Scalar.zero (c.zpow k).denom = false := by
  obtain ⟨hneg, hsmall, hvanishes⟩ : k < 0 ∧ Scalar.lt (Scalar.abs c.numer) Scalar.one = true ∧
      Scalar.eq (Scalar.npow c.numer k.natAbs) Scalar.zero = true := by
    simpa only [Lasting, Classical.not_imp, Bool.not_eq_false] using hk
  cases k with
  | ofNat n => exact absurd hneg (Int.not_lt.mpr (Int.natCast_nonneg n))
  | negSucc n =>
    -- a small numerator is not whole, so that the denominator is one and stays one
    have hdenom : c.denom = Scalar.one := by
      refine h.resolve_left fun hexact => ?_
      have hlarge := lt_abs_one_of_isExact hexact.1 hzero
      rw [show Scalar.lt (Scalar.abs c.numer) Scalar.one = false from hlarge] at hsmall
      cases hsmall
    have hpower : Scalar.npow c.denom (n + 1) = Scalar.one :=
      Scalar.npow_of_mul (p := (· = (Scalar.one : Float))) rfl
        (fun _ _ ha hb => by rw [ha, hb, Scalar.Unital.one_mul]) hdenom _
    change Scalar.lt Scalar.zero (ofFraction (Scalar.npow c.denom (n + 1))
      (Scalar.npow c.numer (n + 1))).denom = false
    rw [hpower]
    obtain hzero | hzero := eq_zero_or_neg_zero hvanishes <;>
      rw [Int.natAbs_negSucc] at hzero <;> rw [hzero] <;> decide +kernel

/-- Computed coefficients are proper as long as no power is rounded to zero and divided by, and that is what
their powers need to be proper too. -/
theorem proper_of_computed {c : Coefficient Float} (h : Computed Lasting c) :
    c.Proper ∧ (c.isZero = false → ∀ k, (c.zpow k).Proper ↔ Lasting c k) := by
  obtain ⟨hlowest, hne⟩ := h.lowestTerms
  refine ⟨hlowest.proper hne, fun hzero k => ⟨fun hproper => ?_, fun hk => ?_⟩⟩
  · by_contra hk
    have hdenom := hproper.denom_pos
    rw [hlowest.lt_denom_zpow hzero hk] at hdenom
    cases hdenom
  · obtain ⟨hlowest, hne⟩ := (Computed.zpow h hzero hk).lowestTerms
    exact hlowest.proper hne

/-- Minus two thirds, to which four, the power of a half to minus two, is added, and the power of the sum to
minus three. -/
theorem proper_of_computed_powers :
    let half : Coefficient Float := ofScalar 0.5
    let sum := ofFraction 2 (-3) + half.zpow (-2)
    Computed Lasting (sum.zpow (-3)) ∧ (sum.zpow (-3)).Proper ∧ (sum.zpow (-3)).isZero = false ∧
      ((sum.zpow (-3)).zpow (-5)).Proper := by
  intro half sum
  have hhalf : Computed Lasting (half.zpow (-2)) :=
    .zpow (.ofScalar rfl) (by decide +kernel) fun _ _ => by decide +kernel
  have hsum : Computed Lasting sum := .add (.ofFraction rfl rfl rfl) hhalf
  have hpower : Computed Lasting (sum.zpow (-3)) :=
    .zpow hsum (by decide +kernel) fun _ _ => by decide +kernel
  have hzero : (sum.zpow (-3)).isZero = false := by decide +kernel
  obtain ⟨hproper, hpowers⟩ := proper_of_computed hpower
  exact ⟨hpower, hproper, hzero, (hpowers hzero (-5)).mpr fun _ _ => by decide +kernel⟩

/-- The power of a half to minus 1100 divides by zero. -/
theorem not_proper_zpow_half :
    Computed (fun _ _ => True) ((ofScalar (0.5 : Float)).zpow (-1100)) ∧
      ((ofScalar (0.5 : Float)).zpow (-1100)).denom = Scalar.zero ∧
      ¬ ((ofScalar (0.5 : Float)).zpow (-1100)).Proper := by
  have hdenom : ((ofScalar (0.5 : Float)).zpow (-1100)).denom = Scalar.zero := by decide +kernel
  refine ⟨.zpow (.ofScalar rfl) (by decide +kernel) trivial, hdenom, fun hproper => ?_⟩
  have hpos := hproper.denom_pos
  rw [hdenom] at hpos
  cases hpos

end Coefficient

end SymbolicAlgebra
