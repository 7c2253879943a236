import SymbolicAlgebra.Proofs.Scalar.Proper

/-!
# Integers among the doubles

Below `2 ^ 53` in magnitude the doubles without a fraction are the integers, each exactly once but for the
two zeros. Sums and products of them are rounded to those of the integers as long as these stay below that
bound, and so are powers: by squaring no factor is larger than the result, so that only the result has to
be bounded.
-/

namespace SymbolicAlgebra.Binary64

open Float.Model Float.Model.UnpackedFloat

/-- The double is exact, and it is the integer. -/
def Exactly (x : Float) (i : Int) : Prop := Coefficient.isExact x = true ∧ Scalar.toInt x = i

/-- Exact numbers are whole. -/
theorem Exactly.isWhole {x : Float} {i : Int} (h : Exactly x i) : Scalar.isWhole x = true :=
  (Bool.and_eq_true_iff.mp h.1).1

/-- Zeros are exact. -/
theorem exactly_zero {x : Float} (h : Scalar.eq x Scalar.zero = true) : Exactly x 0 := by
  refine ⟨?_, Scalar.Whole.toInt_of_zero x h⟩
  obtain rfl | rfl := eq_zero_or_neg_zero h <;> decide +kernel

/-- Integers below the bound are exact. -/
theorem exactly_ofInt {i : Int} (hi : i.natAbs < 2 ^ 53) : Exactly (Scalar.ofInt i) i :=
  ⟨Scalar.Whole.isExact_ofInt i hi, Scalar.Whole.toInt_ofInt i hi⟩

/-- What is exact is below the bound. -/
theorem Exactly.natAbs_lt {x : Float} {i : Int} (h : Exactly x i) : i.natAbs < 2 ^ 53 :=
  h.2 ▸ Scalar.Whole.natAbs_toInt_lt x h.1

/-- Only the integer zero is zero. -/
theorem Exactly.eq_zero_iff {x : Float} {i : Int} (h : Exactly x i) :
    Scalar.eq x Scalar.zero = true ↔ i = 0 := by
  obtain ⟨hexact, rfl⟩ := h
  refine ⟨Scalar.Whole.toInt_of_zero x, fun hi => ?_⟩
  by_contra hzero
  rw [Bool.not_eq_true] at hzero
  exact Scalar.toInt_ne_of_isExact hexact hzero hi

/-- An exact double other than zero is known by its integer. -/
theorem Exactly.eq_ofInt {x : Float} {i : Int} (h : Exactly x i) (hi : i ≠ 0) : x = Scalar.ofInt i := by
  have hzero := Bool.eq_false_iff.mpr fun hzero => hi (h.eq_zero_iff.mp hzero)
  rw [← h.2, Scalar.Whole.ofInt_toInt x h.1 hzero]

/-- An exact double that is no negative zero is known by its integer. -/
theorem Exactly.unique {x y : Float} {i : Int} (hx : Exactly x i) (hy : Exactly y i)
    (hx' : x ≠ -Scalar.zero) (hy' : y ≠ -Scalar.zero) : x = y := by
  by_cases hi : i = 0
  · rw [(eq_zero_or_neg_zero (hx.eq_zero_iff.mpr hi)).resolve_right hx',
      (eq_zero_or_neg_zero (hy.eq_zero_iff.mpr hi)).resolve_right hy']
  · rw [hx.eq_ofInt hi, hy.eq_ofInt hi]

/-- The opposite of an exact double is exact. -/
theorem Exactly.neg {x : Float} {i : Int} (h : Exactly x i) : Exactly (-x) (-i) := by
  by_cases hi : i = 0
  · rw [hi]
    exact exactly_zero ((Scalar.Lawful.eq_neg_zero x).trans (h.eq_zero_iff.mpr hi))
  · rw [h.eq_ofInt hi, Scalar.Whole.neg_ofInt i h.natAbs_lt hi]
    exact exactly_ofInt (Int.natAbs_neg i ▸ h.natAbs_lt)

/-- A zero that loses its sign stays exact. -/
theorem Exactly.unsignZero {x : Float} {i : Int} (h : Exactly x i) : Exactly (Scalar.unsignZero x) i := by
  by_cases hi : i = 0
  · rw [hi]
    exact exactly_zero ((Scalar.Lawful.eq_unsignZero x).trans (h.eq_zero_iff.mpr hi))
  · rwa [Scalar.unsignZero_of_ne (Bool.eq_false_iff.mpr fun hzero => hi (h.eq_zero_iff.mp hzero))]

/-- Dividing by a divisor is exact. -/
theorem Exactly.div {x : Float} {i k : Int} (h : Exactly x (i * k)) (hk : 0 < k) (hk' : k.natAbs < 2 ^ 53) :
    Exactly (x / Scalar.ofInt k) i := by
  by_cases hi : i = 0
  · have hzero := h.eq_zero_iff.mpr (by rw [hi, Int.zero_mul])
    have hdivisor : Scalar.eq (Scalar.ofInt k : Float) Scalar.zero = false := by
      rw [Scalar.Whole.eq_ofInt_zero k hk', decide_eq_false (Int.ne_of_gt hk)]
    rw [hi]
    exact exactly_zero (Scalar.Scaling.zero_div _ _ hzero (isFinite_ofInt hk') hdivisor)
  · have hsmall := h.natAbs_lt
    rw [h.eq_ofInt (Int.mul_ne_zero hi (Int.ne_of_gt hk)), Scalar.Whole.mul_div_ofInt i k hsmall hi hk]
    rw [Int.natAbs_mul] at hsmall
    exact exactly_ofInt ((Nat.le_mul_of_pos_right _ (Int.natAbs_pos.mpr (Int.ne_of_gt hk))).trans_lt hsmall)

/-- Whole numbers are finite. -/
theorem isFinite_of_isWhole {x : Float} (h : Scalar.isWhole x = true) : Scalar.isFinite x = true := by
  change isWhole x = true at h
  rw [isWhole, parts_eq] at h
  cases hx : x.toModel.unpack with
  | zero s => exact (isFinite_iff x).mpr (.inl ⟨s, hx⟩)
  | finite s m e hm => exact isFinite_of_mantissa hx
  | _ => rw [hx] at h; cases h

/-- The magnitude of the integer that a whole number is. -/
theorem natAbs_toInt {x : Float} {s : Sign} {m : Nat} {e : Int} {h : 0 < m}
    (hx : x.toModel.unpack = .finite s m e h) : (Scalar.toInt x).natAbs =
      if 0 ≤ e then m * 2 ^ e.toNat else m / 2 ^ (-e).toNat := by
  change (toInt x).natAbs = _
  rw [toInt, parts_of_mantissa hx]
  cases s <;> simp only [isMinus, if_true, Bool.false_eq_true, if_false, Int.natAbs_neg,
    Int.natAbs_natCast, Nat.pow_eq]

/-- A whole number other than zero is an integer other than zero. -/
theorem toInt_ne_zero {x : Float} (hwhole : Scalar.isWhole x = true)
    (hzero : Scalar.eq x Scalar.zero = false) : Scalar.toInt x ≠ 0 := by
  obtain ⟨s, m, e, h, hx⟩ := exists_mantissa (isFinite_of_isWhole hwhole) hzero
  rw [← Int.natAbs_ne_zero, natAbs_toInt hx]
  split
  · exact (Nat.mul_pos h (Nat.two_pow_pos _)).ne'
  · rename_i he
    have hdvd := ((isWhole_iff hx).mp hwhole).resolve_left he
    exact (Nat.div_pos (Nat.le_of_dvd h hdvd) (Nat.two_pow_pos _)).ne'

/-- A whole number is exact if its integer is below the bound. -/
theorem exactly_of_isWhole {x : Float} (hwhole : Scalar.isWhole x = true)
    (hsmall : (Scalar.toInt x).natAbs < 2 ^ 53) : Exactly x (Scalar.toInt x) := by
  refine ⟨?_, rfl⟩
  cases hzero : Scalar.eq x Scalar.zero with
  | true => exact (exactly_zero hzero).1
  | false =>
    obtain ⟨s, m, e, h, hx⟩ := exists_mantissa (isFinite_of_isWhole hwhole) hzero
    have he : e ≤ 0 := by
      by_contra he
      rw [natAbs_toInt hx, if_pos (by omega)] at hsmall
      obtain ⟨-, -, hlog⟩ := aligned_iff.mp (aligned_unpack hx)
      have hwide : 2 ^ 52 ≤ m := (Nat.le_log2 (Nat.ne_of_gt h)).mp (by omega)
      have htwo : 2 ^ 1 ≤ 2 ^ e.toNat := Nat.pow_le_pow_right (by decide) (by omega)
      exact absurd hsmall (Nat.not_lt.mpr (Nat.mul_le_mul hwide htwo))
    refine (isExact_iff hx).mpr ⟨he, ?_⟩
    obtain hnonneg | hdvd := (isWhole_iff hx).mp hwhole
    · obtain rfl : e = 0 := by omega
      exact one_dvd m
    · exact hdvd

/-- Products do not depend on the order of the factors. -/
theorem mul_swap (x y : Float) : x * y = y * x := by
  refine eq_of_unpack ?_
  rw [unpack_mul, unpack_mul]
  have hsigns (s t : Sign) : s * t = t * s := by cases s <;> cases t <;> rfl
  cases x.toModel.unpack <;> cases y.toModel.unpack <;>
    simp only [UnpackedFloat.mul, hsigns, Nat.mul_comm, Int.add_comm]

/-- The product of whole numbers is a whole number as long as it stays below the bound. -/
theorem mul_whole (s t : Sign) {n k : Nat} (hn : 0 < n) (hk : 0 < k) (h : n * k < 2 ^ 53) :
    UnpackedFloat.mul .binary64 (wholeOf s n hn) (wholeOf t k hk) =
      wholeOf (s * t) (n * k) (Nat.mul_pos hn hk) := by
  have hlog := log2_le_of_lt ((Nat.le_mul_of_pos_right n hk).trans_lt h)
  have hlog' := log2_le_of_lt ((Nat.le_mul_of_pos_left k hn).trans_lt h)
  have hgrows : k.log2 ≤ (n * k).log2 :=
    (Nat.le_log2 (Nat.mul_pos hn hk).ne').mpr
      ((Nat.log2_self_le hk.ne').trans (Nat.le_mul_of_pos_left k hn))
  have hmantissa : mantissaOf n * mantissaOf k = n * k * 2 ^ (52 - n.log2 + (52 - k.log2)) := by
    rw [mantissaOf, mantissaOf, Nat.pow_add]
    ring
  have hexponent : (n.log2 - 52 : Int) + (k.log2 - 52) = -(52 - n.log2 + (52 - k.log2) : Nat) := by
    omega
  simp only [wholeOf, UnpackedFloat.mul, hmantissa, hexponent]
  exact round_whole (s * t) (Nat.mul_pos hn hk) h (by omega)

/-- The sign of a product is the product of the signs. -/
theorem signOf_mul {i j : Int} (hi : i ≠ 0) (hj : j ≠ 0) : signOf (i * j) = signOf i * signOf j := by
  rcases lt_or_gt_of_ne hi with hi | hi <;> rcases lt_or_gt_of_ne hj with hj | hj <;>
    simp only [signOf, mul_neg_iff, hi, hj, lt_asymm hi, lt_asymm hj, and_true, and_false, or_false,
      false_or, if_true, if_false] <;> rfl

/-- What is packed of an integer is that integer. -/
theorem ofModel_wholeOf {i : Int} (hi : i ≠ 0) (h : i.natAbs < 2 ^ 53) :
    Float.ofModel (Float.Model.pack (wholeOf (signOf i) i.natAbs (Int.natAbs_pos.mpr hi))) =
      Scalar.ofInt i :=
  eq_of_model (congrArg Float.Model.pack (unpack_ofInt hi h))

/-- The product of integers is exact as long as it stays below the bound. -/
theorem ofInt_mul_ofInt {i j : Int} (hi : i ≠ 0) (hj : j ≠ 0) (h : (i * j).natAbs < 2 ^ 53) :
    (Scalar.ofInt i * Scalar.ofInt j : Float) = Scalar.ofInt (i * j) := by
  have hi' := Int.natAbs_pos.mpr hi
  have hj' := Int.natAbs_pos.mpr hj
  have hproduct : i.natAbs * j.natAbs < 2 ^ 53 := Int.natAbs_mul i j ▸ h
  rw [← ofModel_wholeOf (Int.mul_ne_zero hi hj) h]
  simp only [Int.natAbs_mul, signOf_mul hi hj, ← mul_whole _ _ hi' hj' hproduct,
    ← unpack_ofInt hi ((Nat.le_mul_of_pos_right _ hj').trans_lt hproduct),
    ← unpack_ofInt hj ((Nat.le_mul_of_pos_left _ hi').trans_lt hproduct)]
  rfl

/-- A magnitude that is shifted to the left is the integer shifted as far once its sign is put in front. -/
theorem signOf_apply (i : Int) (k : Nat) : (signOf i).apply (i.natAbs * 2 ^ k : Nat) = i * 2 ^ k := by
  rw [Int.natCast_mul, Int.natCast_pow, Nat.cast_ofNat, signOf]
  split
  · have hmagnitude : (i.natAbs : Int) = -i := by omega
    rw [hmagnitude, Sign.apply, Int.neg_mul, Int.neg_neg]
  · have hmagnitude : (i.natAbs : Int) = i := by omega
    rw [hmagnitude, Sign.apply]

/-- An integer is normalized to a whole number, however far it is shifted to the left. -/
theorem normalize_integer {i : Int} (hi : i ≠ 0) (h : i.natAbs < 2 ^ 53) (k : Nat) :
    UnpackedFloat.normalize .binary64 (i * 2 ^ k) (-k) .positive =
      wholeOf (signOf i) i.natAbs (Int.natAbs_pos.mpr hi) := by
  have hpower : (0 : Int) < 2 ^ k := by positivity
  have hmagnitude : (i * 2 ^ k).natAbs = i.natAbs * 2 ^ k := by
    rw [Int.natAbs_mul, Int.natAbs_pow]
    rfl
  rcases lt_or_gt_of_ne hi with hneg | hpos
  · have hproduct : i * 2 ^ k < 0 := Int.mul_neg_of_neg_of_pos hneg hpower
    have htoNat : (-(i * 2 ^ k)).toNat = i.natAbs * 2 ^ k := by omega
    simp only [UnpackedFloat.normalize, compare_lt_iff_lt.mpr hproduct, htoNat, signOf, if_pos hneg]
    exact round_integer .negative _ h k
  · have hproduct : 0 < i * 2 ^ k := Int.mul_pos hpos hpower
    have htoNat : (i * 2 ^ k).toNat = i.natAbs * 2 ^ k := by omega
    simp only [UnpackedFloat.normalize, compare_gt_iff_gt.mpr hproduct, htoNat, signOf,
      if_neg (lt_asymm hpos)]
    exact round_integer .positive _ h k

/-- The exponent of a whole number is lowered by shifting it to the left. -/
theorem decreaseExponent_whole {n k : Nat} (hn : n.log2 ≤ 52) (hk : 52 - n.log2 ≤ k) :
    decreaseExponent (mantissaOf n) (n.log2 - 52) (-k) = (n * 2 ^ k, -(k : Int)) := by
  have hshift : ((n.log2 - 52 : Int) - -k).toNat = k - (52 - n.log2) := by omega
  have hexponent : (n.log2 - 52 : Int) - (k - (52 - n.log2) : Nat) = -k := by omega
  simp only [decreaseExponent, hshift, hexponent, mantissaOf, Nat.shiftLeft_eq, Nat.mul_assoc,
    ← Nat.pow_add, Nat.add_sub_cancel' hk]

/-- The sum of integers is exact as long as it stays below the bound. -/
theorem ofInt_add_ofInt {i j : Int} (hi : i ≠ 0) (hj : j ≠ 0) (hi' : i.natAbs < 2 ^ 53)
    (hj' : j.natAbs < 2 ^ 53) (h : (i + j).natAbs < 2 ^ 53) :
    (Scalar.ofInt i + Scalar.ofInt j : Float) = Scalar.ofInt (i + j) := by
  have hlog := log2_le_of_lt hi'
  have hlog' := log2_le_of_lt hj'
  obtain ⟨k, hmin, hk, hk'⟩ : ∃ k : Nat,
      min (i.natAbs.log2 - 52 : Int) (j.natAbs.log2 - 52) = -k ∧ 52 - i.natAbs.log2 ≤ k ∧
        52 - j.natAbs.log2 ≤ k := ⟨52 - min i.natAbs.log2 j.natAbs.log2, by omega⟩
  have hadd : UnpackedFloat.add .binary64 (Scalar.ofInt i : Float).toModel.unpack
      (Scalar.ofInt j : Float).toModel.unpack =
        UnpackedFloat.normalize .binary64 ((i + j) * 2 ^ k) (-k) .positive := by
    rw [unpack_ofInt hi hi', unpack_ofInt hj hj', Int.add_mul, ← signOf_apply, ← signOf_apply]
    simp only [wholeOf, UnpackedFloat.add, hmin, decreaseExponent_whole hlog hk,
      decreaseExponent_whole hlog' hk']
  change Float.ofModel (Float.Model.pack (UnpackedFloat.add .binary64
    (Scalar.ofInt i : Float).toModel.unpack (Scalar.ofInt j : Float).toModel.unpack)) = _
  rw [hadd]
  by_cases hsum : i + j = 0
  · rw [hsum, Int.zero_mul]
    rfl
  · rw [normalize_integer hsum h, ofModel_wholeOf hsum h]

/-- The product of whole numbers is exact as long as it stays below the bound. -/
theorem exactly_mul {x y : Float} (hx : Scalar.isWhole x = true) (hy : Scalar.isWhole y = true)
    (h : (Scalar.toInt x * Scalar.toInt y).natAbs < 2 ^ 53) :
    Exactly (x * y) (Scalar.toInt x * Scalar.toInt y) := by
  -- zero is the one number that keeps the product small when the other factor is not exact
  have hzero {x y : Float} (hx : Scalar.eq x Scalar.zero = true) (hy : Scalar.isWhole y = true) :
      Exactly (y * x) 0 :=
    exactly_zero (Scalar.Scaling.mul_zero y x (isFinite_of_isWhole hy) hx)
  cases hx' : Scalar.eq x Scalar.zero with
  | true =>
    rw [Scalar.Whole.toInt_of_zero x hx', Int.zero_mul, mul_swap]
    exact hzero hx' hy
  | false =>
    cases hy' : Scalar.eq y Scalar.zero with
    | true =>
      rw [Scalar.Whole.toInt_of_zero y hy', Int.mul_zero]
      exact hzero hy' hx
    | false =>
      have hi := toInt_ne_zero hx hx'
      have hj := toInt_ne_zero hy hy'
      have hproduct := h
      rw [Int.natAbs_mul] at hproduct
      have hxExact := exactly_of_isWhole hx
        ((Nat.le_mul_of_pos_right _ (Int.natAbs_pos.mpr hj)).trans_lt hproduct)
      have hyExact := exactly_of_isWhole hy
        ((Nat.le_mul_of_pos_left _ (Int.natAbs_pos.mpr hi)).trans_lt hproduct)
      rw [hxExact.eq_ofInt hi, hyExact.eq_ofInt hj, ofInt_mul_ofInt hi hj h,
        Scalar.Whole.toInt_ofInt _ hxExact.natAbs_lt, Scalar.Whole.toInt_ofInt _ hyExact.natAbs_lt]
      exact exactly_ofInt h

/-- A zero with either sign is neutral for all other numbers. -/
theorem add_of_zero {x y : Float} (hx : Scalar.eq x Scalar.zero = true)
    (hy : Scalar.eq y Scalar.zero = false) : x + y = y ∧ y + x = y := by
  rw [eq_zero] at hx hy
  have hadd : UnpackedFloat.add .binary64 x.toModel.unpack y.toModel.unpack = y.toModel.unpack ∧
      UnpackedFloat.add .binary64 y.toModel.unpack x.toModel.unpack = y.toModel.unpack := by
    cases hx' : x.toModel.unpack with
    | zero s =>
      cases hy' : y.toModel.unpack with
      | zero t => rw [hy'] at hy; cases hy
      | _ => exact ⟨rfl, rfl⟩
    | _ => rw [hx'] at hx; cases hx
  exact ⟨eq_of_model (congrArg Float.Model.pack hadd.1.symm),
    eq_of_model (congrArg Float.Model.pack hadd.2.symm)⟩

/-- Adding a zero to an exact number, or adding the number to it, leaves the integer as it is. -/
theorem Exactly.add_zero {x y : Float} {i : Int} (hx : Exactly x i) (hy : Scalar.eq y Scalar.zero = true) :
    Exactly (x + y) i ∧ Exactly (y + x) i := by
  cases hx' : Scalar.eq x Scalar.zero with
  | true =>
    rw [hx.eq_zero_iff.mp hx']
    obtain rfl | rfl := eq_zero_or_neg_zero hx' <;> obtain rfl | rfl := eq_zero_or_neg_zero hy <;>
      exact ⟨exactly_zero (by decide +kernel), exactly_zero (by decide +kernel)⟩
  | false =>
    obtain ⟨hleft, hright⟩ := add_of_zero hy hx'
    rw [hleft, hright]
    exact ⟨hx, hx⟩

/-- The sum of exact numbers is exact as long as it stays below the bound. -/
theorem Exactly.add {x y : Float} {i j : Int} (hx : Exactly x i) (hy : Exactly y j)
    (h : (i + j).natAbs < 2 ^ 53) : Exactly (x + y) (i + j) := by
  by_cases hi : i = 0
  · rw [hi, Int.zero_add]
    exact (hy.add_zero (hx.eq_zero_iff.mpr hi)).2
  · by_cases hj : j = 0
    · rw [hj, Int.add_zero]
      exact (hx.add_zero (hy.eq_zero_iff.mpr hj)).1
    · rw [hx.eq_ofInt hi, hy.eq_ofInt hj, ofInt_add_ofInt hi hj hx.natAbs_lt hy.natAbs_lt h]
      exact exactly_ofInt h

/-- A power is at least as large as the base, and the square of the base if its exponent is at least two. -/
theorem natAbs_mul_le_of_pow {r a : Int} {n k : Nat} (hk : 0 < k) (hkn : k ≤ n) :
    (r * a ^ k).natAbs ≤ (r * a ^ n).natAbs := by
  rw [Int.natAbs_mul, Int.natAbs_mul, Int.natAbs_pow, Int.natAbs_pow]
  refine Nat.mul_le_mul_left _ ?_
  obtain ha | ha := Nat.eq_zero_or_pos a.natAbs
  · rw [ha, Nat.zero_pow hk]
    exact Nat.zero_le _
  · exact Nat.pow_le_pow_right ha hkn

/-- Squaring from the lowest bit on multiplies by the power, exactly if the result is below the bound: no
factor is then above it, since a factor of zero is only met when the base is zero. -/
theorem exactly_powLoop {fuel n : Nat} {r a : Float} (hn : n < 2 ^ fuel) (hr : Scalar.isWhole r = true)
    (ha : Scalar.isWhole a = true) (hne : Scalar.toInt r = 0 → Scalar.toInt a = 0)
    (h : (Scalar.toInt r * Scalar.toInt a ^ n).natAbs < 2 ^ 53) :
    Exactly (Scalar.powLoop fuel r a n) (Scalar.toInt r * Scalar.toInt a ^ n) := by
  induction fuel generalizing r a n with
  | zero =>
    obtain rfl : n = 0 := by omega
    rw [pow_zero, mul_one] at h ⊢
    exact exactly_of_isWhole hr h
  | succ fuel ih =>
    have hstep : Scalar.isWhole (if n % 2 = 1 then r * a else r) = true ∧
        Scalar.toInt (if n % 2 = 1 then r * a else r) = Scalar.toInt r * Scalar.toInt a ^ (n % 2) := by
      obtain hn | hn := Nat.mod_two_eq_zero_or_one n
      · simp [hn, hr]
      · have hle := natAbs_mul_le_of_pow (r := Scalar.toInt r) (a := Scalar.toInt a) (n := n) one_pos
          (by omega)
        rw [pow_one] at hle
        have hproduct := exactly_mul hr ha (hle.trans_lt h)
        rw [hn, if_pos rfl, pow_one]
        exact ⟨hproduct.isWhole, hproduct.2⟩
    rw [Scalar.powLoop]
    generalize (if n % 2 = 1 then r * a else r) = r' at hstep
    obtain ⟨hr', hint⟩ := hstep
    split
    · rename_i hhalf
      rw [show n % 2 = n by omega] at hint
      rw [← hint] at h ⊢
      exact exactly_of_isWhole hr' h
    · rename_i hhalf
      have hsquare : (Scalar.toInt a * Scalar.toInt a).natAbs < 2 ^ 53 := by
        by_cases hzero : Scalar.toInt r = 0
        · rw [hne hzero]
          decide
        · rw [← sq]
          calc (Scalar.toInt a ^ 2).natAbs ≤ (Scalar.toInt r * Scalar.toInt a ^ 2).natAbs := by
                rw [Int.natAbs_mul]
                exact Nat.le_mul_of_pos_left _ (Int.natAbs_pos.mpr hzero)
            _ ≤ (Scalar.toInt r * Scalar.toInt a ^ n).natAbs := natAbs_mul_le_of_pow two_pos (by omega)
            _ < 2 ^ 53 := h
      have hexact := exactly_mul ha ha hsquare
      have hpower : Scalar.toInt r' * Scalar.toInt (a * a) ^ (n / 2) =
          Scalar.toInt r * Scalar.toInt a ^ n := by
        rw [hint, hexact.2, mul_assoc, ← sq, ← pow_mul, ← pow_add, Nat.mod_add_div]
      rw [← hpower] at h ⊢
      refine ih ?_ hr' hexact.isWhole ?_ h
      · rw [pow_succ] at hn
        omega
      · rw [hint, hexact.2]
        intro hzero
        have hbase : Scalar.toInt a = 0 := (mul_eq_zero.mp hzero).elim hne eq_zero_of_pow_eq_zero
        rw [hbase, Int.zero_mul]

/-- Powers of whole numbers are exact as long as they stay below the bound. -/
theorem exactly_npow {a : Float} (ha : Scalar.isWhole a = true) {n : Nat}
    (h : (Scalar.toInt a ^ n).natAbs < 2 ^ 53) : Exactly (Scalar.npow a n) (Scalar.toInt a ^ n) := by
  have hone : Scalar.toInt (Scalar.one : Float) = 1 := rfl
  have hpower := exactly_powLoop (r := Scalar.one) (n := n) Nat.lt_log2_self rfl ha (by simp [hone])
    (by rwa [hone, one_mul])
  rwa [hone, one_mul] at hpower

end SymbolicAlgebra.Binary64
