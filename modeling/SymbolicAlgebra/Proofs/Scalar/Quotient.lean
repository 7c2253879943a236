import SymbolicAlgebra.Proofs.Scalar.LowestTerms

/-!
# Quotients of whole numbers

The quotient of two whole numbers is rounded to a double with a mantissa of 53 bits that is at most
half a unit in the last place away from it. Two divisors of one number whose sum is less than `2 ^ 53`
are therefore told apart by the quotients: they differ by more than rounding hides.
-/

namespace SymbolicAlgebra.Binary64

open Float.Model Float.Model.UnpackedFloat

/-- The mantissa and the two bits behind it tell where a number stands: on the mantissa, in the first
half of the way to the next one, in the middle, or in the second half. -/
def Describes : ExtendedMantissa → ℚ → Prop
  | ⟨m, false, false⟩, y => y = m
  | ⟨m, false, true⟩, y => m < y ∧ y < m + 1 / 2
  | ⟨m, true, false⟩, y => y = m + 1 / 2
  | ⟨m, true, true⟩, y => m + 1 / 2 < y ∧ y < m + 1

/-- Shifting by one place describes half of the number. -/
theorem Describes.shiftRightOne {em : ExtendedMantissa} {y : ℚ} (h : Describes em y) :
    Describes em.shiftRightOne (y / 2) := by
  obtain ⟨m, round, sticky⟩ := em
  obtain ⟨a, rfl | rfl⟩ := Nat.even_or_odd' m
  · have hhalf : 2 * a / 2 = a := by omega
    cases round <;> cases sticky <;>
      simp only [Describes, ExtendedMantissa.shiftRightOne, hhalf, Nat.mul_mod_right, bne_self_eq_false,
        Bool.or_false, Bool.or_true] at h ⊢ <;> push_cast at h
    · linarith
    · constructor <;> linarith
    · constructor <;> linarith
    · constructor <;> linarith
  · have hhalf : (2 * a + 1) / 2 = a := by omega
    have hodd : ((2 * a + 1) % 2 != 0) = true := by simp [Nat.add_mod]
    cases round <;> cases sticky <;>
      simp only [Describes, ExtendedMantissa.shiftRightOne, hhalf, hodd, Bool.or_false,
        Bool.or_true] at h ⊢ <;> push_cast at h
    · linarith
    · constructor <;> linarith
    · constructor <;> linarith
    · constructor <;> linarith

/-- Shifting divides the number by a power of two. -/
theorem Describes.shiftRight {em : ExtendedMantissa} {y : ℚ} (h : Describes em y) (k : Nat) :
    Describes (em >>> k) (y / 2 ^ k) := by
  change Describes (k.repeat ExtendedMantissa.shiftRightOne em) _
  induction k with
  | zero => simpa [Nat.repeat] using h
  | succ k ih =>
    rw [Nat.repeat, pow_succ, ← div_div]
    exact ih.shiftRightOne

/-- The mantissa that a number is rounded to is at most half a unit away. -/
theorem Describes.abs_rounded_sub_le {em : ExtendedMantissa} {y : ℚ} (h : Describes em y) :
    |(em.roundedMantissa : ℚ) - y| ≤ 1 / 2 := by
  obtain ⟨m, round, sticky⟩ := em
  have hparity : ((m % 2 : Nat) : ℚ) = 0 ∨ ((m % 2 : Nat) : ℚ) = 1 := by
    rcases Nat.mod_two_eq_zero_or_one m with h | h <;> simp [h]
  rw [abs_le]
  cases round <;> cases sticky <;>
    simp only [Describes, ExtendedMantissa.roundedMantissa, ExtendedMantissa.accuracy,
      Accuracy.roundToNearestEven] at h ⊢ <;> push_cast
  · constructor <;> linarith
  · constructor <;> linarith
  · obtain hparity | hparity := hparity <;> rw [hparity] <;> constructor <;> linarith
  · constructor <;> linarith

/-- A remainder that is less than the divisor describes the fraction that it is of it. -/
theorem describes_fraction (q : Nat) {r d : Nat} (h : r < d) :
    Describes (.ofMantissaAndAccuracy q (accuracyOfFraction r d)) (q + r / d) := by
  have hd : (0 : ℚ) < d := Nat.cast_pos.mpr (Nat.zero_lt_of_lt h)
  have hlt : (r : ℚ) / d < 1 := (div_lt_one hd).mpr (Nat.cast_lt.mpr h)
  rw [accuracyOfFraction]
  split
  · rename_i hr
    simp [hr, ExtendedMantissa.ofMantissaAndAccuracy, Describes]
  · rename_i hr
    have hpos : (0 : ℚ) < r / d := div_pos (Nat.cast_pos.mpr (Nat.pos_of_ne_zero hr)) hd
    cases hcompare : compare (2 * r) d with
    | lt =>
      have hhalf : (r : ℚ) / d < 1 / 2 := by
        rw [div_lt_div_iff₀ hd two_pos]
        exact_mod_cast (by have := Nat.compare_eq_lt.mp hcompare; omega : r * 2 < 1 * d)
      exact ⟨by linarith, by linarith⟩
    | eq =>
      have hhalf : (r : ℚ) / d = 1 / 2 := by
        rw [div_eq_div_iff hd.ne' two_ne_zero]
        exact_mod_cast (by have := Nat.compare_eq_eq.mp hcompare; omega : r * 2 = 1 * d)
      exact congrArg _ hhalf
    | gt =>
      have hhalf : (1 : ℚ) / 2 < r / d := by
        rw [div_lt_div_iff₀ two_pos hd]
        exact_mod_cast (by have := Nat.compare_eq_gt.mp hcompare; omega : 1 * d < r * 2)
      exact ⟨by linarith, by linarith⟩

/-- A mantissa of 53 bits, or the power of two above them, is brought to 53 bits without a loss. -/
theorem shift_rounded {r : Nat} {e : Int} (hlow : 2 ^ 52 ≤ r) (hhigh : r ≤ 2 ^ 53)
    (he : -1074 ≤ e) :
    ∃ m j : Nat, shiftToTargetExponent .binary64 r e .exact = (⟨m, false, false⟩, e + j) ∧
      r = m * 2 ^ j ∧ 2 ^ 52 ≤ m ∧ m < 2 ^ 53 ∧ j ≤ 1 := by
  have hmin : Format.binary64.minExponent = -1074 := rfl
  have hbits : Format.binary64.mantissaBits = 53 := rfl
  obtain hlt | rfl := Nat.lt_or_eq_of_le hhigh
  · have hlog : r.log2 = 52 := by
      rw [Nat.log2_eq_iff (by omega)]
      omega
    have htarget : (Format.binary64.targetExponent (totalExponent r e) - e).toNat = 0 := by
      rw [Format.targetExponent, totalExponent, hlog, hmin, hbits]
      omega
    refine ⟨r, 0, ?_, by simp, hlow, hlt, by omega⟩
    simp only [shiftToTargetExponent, shiftToExponent, htarget, ExtendedMantissa.ofMantissaAndAccuracy]
    rfl
  · have htarget : (Format.binary64.targetExponent (totalExponent (2 ^ 53) e) - e).toNat = 1 := by
      rw [Format.targetExponent, totalExponent, Nat.log2_two_pow, hmin, hbits]
      omega
    refine ⟨2 ^ 52, 1, ?_, by norm_num, le_refl _, by norm_num, le_refl _⟩
    simp only [shiftToTargetExponent, shiftToExponent, htarget, ExtendedMantissa.ofMantissaAndAccuracy]
    rfl

/-- A number of at least 53 bits that is not too small is rounded to one of 53 bits that is at most half
a unit in the last place away. -/
theorem round_normal (s : Sign) {q : Nat} {e : Int} {accuracy : Accuracy} {y : ℚ} (hq : 2 ^ 52 ≤ q)
    (he : -1074 ≤ e) (hy : Describes (.ofMantissaAndAccuracy q accuracy) y) :
    ∃ m e' h, roundWithAccuracy .binary64 s q e accuracy = .finite s m e' h ∧ 2 ^ 52 ≤ m ∧
      m < 2 ^ 53 ∧ e ≤ e' ∧ e' ≤ e + q.log2 - 51 ∧
      |(m : ℚ) * 2 ^ e' - y * 2 ^ e| ≤ 2 ^ e' / 2 := by
  have hmin : Format.binary64.minExponent = -1074 := rfl
  have hbits : Format.binary64.mantissaBits = 53 := rfl
  have hq0 : q ≠ 0 := by omega
  have hlog : 52 ≤ q.log2 := (Nat.le_log2 hq0).mpr hq
  -- the first shift leaves 53 bits before rounding
  obtain ⟨k, hk⟩ := Nat.exists_eq_add_of_le hlog
  have htarget : (Format.binary64.targetExponent (totalExponent q e) - e).toNat = k := by
    rw [Format.targetExponent, totalExponent, hk, hmin, hbits]
    omega
  have hfirst : shiftToTargetExponent .binary64 q e accuracy =
      (ExtendedMantissa.ofMantissaAndAccuracy q accuracy >>> k, e + k) := by
    simp only [shiftToTargetExponent, shiftToExponent, htarget]
  generalize hem : ExtendedMantissa.ofMantissaAndAccuracy q accuracy >>> k = em at hfirst
  have hmantissa : em.mantissa = q / 2 ^ k := by
    rw [← hem, mantissa_shiftRight]
    congr 1
    fun_cases ExtendedMantissa.ofMantissaAndAccuracy q accuracy <;> rfl
  have hlow : 2 ^ 52 ≤ em.mantissa := by
    rw [hmantissa, Nat.le_div_iff_mul_le (Nat.two_pow_pos k), ← Nat.pow_add, ← hk]
    exact Nat.log2_self_le hq0
  have hhigh : em.mantissa < 2 ^ 53 := by
    rw [hmantissa, Nat.div_lt_iff_lt_mul (Nat.two_pow_pos k), ← Nat.pow_add]
    exact Nat.lt_log2_self.trans_le (Nat.pow_le_pow_right (by decide) (by omega))
  have hdescribes : Describes em (y / 2 ^ k) := hem ▸ hy.shiftRight k
  have hclose := hdescribes.abs_rounded_sub_le
  have hceil : em.roundedMantissa ≤ em.mantissa + 1 := by
    obtain ⟨m, round, sticky⟩ := em
    cases round <;> cases sticky <;>
      simp [ExtendedMantissa.roundedMantissa, ExtendedMantissa.accuracy, Accuracy.roundToNearestEven]
    omega
  obtain ⟨m, j, hsecond, hround, hm, hm', hj⟩ := shift_rounded (e := e + k)
    (hlow.trans (mantissa_le_roundedMantissa em)) (by omega) (by omega)
  have hpos : m ≠ 0 := by omega
  refine ⟨m, e + k + j, Nat.pos_of_ne_zero hpos, ?_, hm, hm', by omega, by omega, ?_⟩
  · simp only [roundWithAccuracy, hfirst, hsecond, dif_neg hpos]
  · have hvalue : (m : ℚ) * 2 ^ (e + k + j) - y * 2 ^ e =
        (em.roundedMantissa - y / 2 ^ k) * 2 ^ (e + k) := by
      rw [hround, zpow_add₀ two_ne_zero, zpow_add₀ two_ne_zero, zpow_natCast, zpow_natCast]
      push_cast
      field_simp
    have hunit : (2 : ℚ) ^ (e + k) ≤ 2 ^ (e + k + j) :=
      zpow_le_zpow_right₀ one_le_two (by omega)
    have hunitPos : (0 : ℚ) < 2 ^ (e + k) := by positivity
    rw [hvalue, abs_mul, abs_of_pos hunitPos]
    calc |(em.roundedMantissa : ℚ) - y / 2 ^ k| * 2 ^ (e + k) ≤ 1 / 2 * 2 ^ (e + k) :=
          mul_le_mul_of_nonneg_right hclose hunitPos.le
      _ ≤ 2 ^ (e + k + j) / 2 := by linarith

/-- The mantissas of whole numbers are divided to 53 places behind the point. -/
theorem divCore_whole {n d : Nat} (hn : 0 < n) (hd : 0 < d) (hn' : n < 2 ^ 53) (hd' : d < 2 ^ 53) :
    divCore .binary64 (mantissaOf n) (n.log2 - 52) (mantissaOf d) (d.log2 - 52) =
      (mantissaOf n * 2 ^ 53 / mantissaOf d, (n.log2 : Int) - d.log2 - 53,
        accuracyOfFraction (mantissaOf n * 2 ^ 53 % mantissaOf d) (mantissaOf d)) := by
  have hlogn := log2_le_of_lt hn'
  have hlogd := log2_le_of_lt hd'
  have htarget : min ((n.log2 - 52 : Int) - (d.log2 - 52)) (Format.binary64.targetExponent
      (totalExponent (mantissaOf n) (n.log2 - 52) - totalExponent (mantissaOf d) (d.log2 - 52))) =
      (n.log2 : Int) - d.log2 - 53 := by
    have hmin : Format.binary64.minExponent = -1074 := rfl
    have hbits : Format.binary64.mantissaBits = 53 := rfl
    rw [Format.targetExponent, totalExponent, totalExponent, log2_mantissaOf hn hn',
      log2_mantissaOf hd hd', hmin, hbits]
    omega
  have hshift : ((n.log2 - 52 : Int) - (d.log2 - 52) - ((n.log2 : Int) - d.log2 - 53)).toNat = 53 := by
    omega
  simp only [divCore, htarget, hshift, Nat.shiftLeft_eq]

/-- The mantissa of a whole number is the number, shifted so far that it has 53 bits. -/
theorem cast_mantissaOf {n : Nat} (hn : n < 2 ^ 53) :
    (mantissaOf n : ℚ) = n * 2 ^ (52 : Int) / 2 ^ (n.log2 : Int) := by
  have hlog := log2_le_of_lt hn
  have hplaces : ((52 - n.log2 : Nat) : Int) = 52 - n.log2 := by omega
  rw [mantissaOf, Nat.cast_mul, Nat.cast_pow, Nat.cast_ofNat, ← zpow_natCast, hplaces,
    zpow_sub₀ two_ne_zero, mul_div_assoc]

/-- The quotient of the mantissas with its remainder is the quotient of the numbers. -/
theorem quotient_mantissas {n d : Nat} (hd : 0 < d) (hn' : n < 2 ^ 53) (hd' : d < 2 ^ 53) :
    ((mantissaOf n * 2 ^ 53 / mantissaOf d : Nat) +
      ((mantissaOf n * 2 ^ 53 % mantissaOf d : Nat) : ℚ) / mantissaOf d) *
        2 ^ ((n.log2 : Int) - d.log2 - 53) = n / d := by
  have hD : (mantissaOf d : ℚ) ≠ 0 :=
    Nat.cast_ne_zero.mpr (Nat.mul_pos hd (Nat.two_pow_pos _)).ne'
  have hdivision : ((mantissaOf n * 2 ^ 53 / mantissaOf d : Nat) +
      ((mantissaOf n * 2 ^ 53 % mantissaOf d : Nat) : ℚ) / mantissaOf d) =
      (mantissaOf n : ℚ) * 2 ^ 53 / mantissaOf d := by
    rw [eq_div_iff hD, add_mul, div_mul_cancel₀ _ hD]
    exact_mod_cast Nat.div_add_mod' (mantissaOf n * 2 ^ 53) (mantissaOf d)
  have hdpos : (d : ℚ) ≠ 0 := Nat.cast_ne_zero.mpr hd.ne'
  rw [hdivision, cast_mantissaOf hn', cast_mantissaOf hd', zpow_sub₀ two_ne_zero,
    zpow_sub₀ two_ne_zero]
  field_simp

/-- The quotient of two whole numbers has a mantissa of 53 bits and is at most half a unit in the last
place away from the exact one. -/
theorem div_whole_close (s : Sign) {n d : Nat} (hn : 0 < n) (hd : 0 < d) (hn' : n < 2 ^ 53)
    (hd' : d < 2 ^ 53) :
    ∃ m e h, UnpackedFloat.div .binary64 (wholeOf s n hn) (wholeOf .positive d hd) = .finite s m e h ∧
      2 ^ 52 ≤ m ∧ m < 2 ^ 53 ∧ -1074 ≤ e ∧ e < 972 ∧ |(m : ℚ) * 2 ^ e - n / d| ≤ 2 ^ e / 2 := by
  have hlogn := log2_le_of_lt hn'
  have hlogd := log2_le_of_lt hd'
  have hposN : 0 < mantissaOf n := Nat.mul_pos hn (Nat.two_pow_pos _)
  have hposD : 0 < mantissaOf d := Nat.mul_pos hd (Nat.two_pow_pos _)
  have hlowN : 2 ^ 52 ≤ mantissaOf n := (Nat.le_log2 hposN.ne').mp (log2_mantissaOf hn hn').ge
  have hhighN : mantissaOf n < 2 ^ 53 :=
    (Nat.log2_lt hposN.ne').mp (Nat.lt_succ_of_le (log2_mantissaOf hn hn').le)
  have hhighD : mantissaOf d < 2 ^ 53 :=
    (Nat.log2_lt hposD.ne').mp (Nat.lt_succ_of_le (log2_mantissaOf hd hd').le)
  have hq : 2 ^ 52 ≤ mantissaOf n * 2 ^ 53 / mantissaOf d := by
    rw [Nat.le_div_iff_mul_le hposD]
    exact Nat.mul_le_mul hlowN hhighD.le
  have hsize : (mantissaOf n * 2 ^ 53 / mantissaOf d).log2 < 106 := by
    refine (Nat.log2_lt (by omega)).mpr ((Nat.div_le_self _ _).trans_lt ?_)
    calc mantissaOf n * 2 ^ 53 < 2 ^ 53 * 2 ^ 53 := Nat.mul_lt_mul_of_pos_right hhighN (Nat.two_pow_pos _)
      _ = 2 ^ 106 := by norm_num
  obtain ⟨m, e, h, hround, hm, hm', he, he', hclose⟩ := round_normal s hq
    (e := (n.log2 : Int) - d.log2 - 53) (by omega)
    (describes_fraction _ (Nat.mod_lt (mantissaOf n * 2 ^ 53) hposD))
  rw [quotient_mantissas hd hn' hd'] at hclose
  refine ⟨m, e, h, ?_, hm, hm', by omega, by omega, hclose⟩
  have hs : s / .positive = s := by cases s <;> rfl
  simp only [wholeOf, UnpackedFloat.div, divCore_whole hn hd hn' hd', hs]
  exact hround

/-- The quotient of two integers as doubles has a mantissa of 53 bits and is at most half a unit in the
last place away from the exact one. -/
theorem unpack_div_ofInt {n d : Int} (hn : n ≠ 0) (hn' : n.natAbs < 2 ^ 53) (hd : 0 < d)
    (hd' : d < 2 ^ 53) :
    ∃ m e h, (Scalar.ofInt n / Scalar.ofInt d : Float).toModel.unpack = .finite (signOf n) m e h ∧
      2 ^ 52 ≤ m ∧ |(m : ℚ) * 2 ^ e - n.natAbs / d| ≤ 2 ^ e / 2 := by
  have hx := unpack_ofInt hn hn'
  have hy := unpack_ofInt (Int.ne_of_gt hd) (by omega)
  rw [signOf, if_neg (Int.not_lt.mpr (Int.le_of_lt hd))] at hy
  obtain ⟨m, e, hm, hdiv, hlow, hhigh, hmin, hmax, hclose⟩ := div_whole_close (signOf n)
    (Int.natAbs_pos.mpr hn) (Int.natAbs_pos.mpr (Int.ne_of_gt hd)) hn' (by omega)
  have habs : ((d.natAbs : Nat) : ℚ) = d := by
    rw [← Int.cast_natCast, Int.natAbs_of_nonneg hd.le]
  refine ⟨m, e, hm, ?_, hlow, habs ▸ hclose⟩
  change UnpackedFloat.unpack .binary64 (UnpackedFloat.pack .binary64
    (UnpackedFloat.div .binary64 (Scalar.ofInt n : Float).toModel.unpack
      (Scalar.ofInt d : Float).toModel.unpack)) = _
  have hlog : m.log2 = 52 := by
    rw [Nat.log2_eq_iff hm.ne']
    omega
  rw [hx, hy, hdiv]
  exact unpack_pack _ _ (aligned_iff.mpr ⟨hlog.le, hmin, .inl hlog⟩) hmax

/-- Two divisors are close to each other if the quotients of a number by them are. -/
theorem mul_abs_sub_le {x u n d d' : ℚ} (hx : 0 ≤ x) (hd : 0 < d) (hd' : 0 < d')
    (h : |x - n / d| ≤ u) (h' : |x - n / d'| ≤ u) : x * |d - d'| ≤ u * (d + d') := by
  have hscaled {k : ℚ} (hk : 0 < k) (hclose : |x - n / k| ≤ u) : |x * k - n| ≤ u * k := by
    have hfactor : x * k - n = (x - n / k) * k := by field_simp
    rw [hfactor, abs_mul, abs_of_pos hk]
    exact mul_le_mul_of_nonneg_right hclose hk.le
  calc x * |d - d'| = |(x * d - n) - (x * d' - n)| := by
        rw [sub_sub_sub_cancel_right, ← mul_sub, abs_mul, abs_of_nonneg hx]
    _ ≤ |x * d - n| + |x * d' - n| := abs_sub _ _
    _ ≤ u * d + u * d' := add_le_add (hscaled hd h) (hscaled hd' h')
    _ = u * (d + d') := (mul_add u d d').symm

/-- Two divisors of a whole number are the same if the quotients are rounded to the same double, unless
their sum is more than doubles count one by one. -/
theorem divisors_eq {n d d' : Int} (hn : n ≠ 0) (hn' : n.natAbs < 2 ^ 53) (hd : 0 < d) (hd' : 0 < d')
    (hsum : d + d' < 2 ^ 53)
    (h : (Scalar.ofInt n / Scalar.ofInt d : Float) = Scalar.ofInt n / Scalar.ofInt d') : d = d' := by
  obtain ⟨m, e, hm, hfirst, hlow, hclose⟩ := unpack_div_ofInt hn hn' hd (by omega)
  obtain ⟨m', e', hm', hsecond, -, hclose'⟩ := unpack_div_ofInt hn hn' hd' (by omega)
  rw [h, hsecond] at hfirst
  obtain ⟨-, rfl, rfl⟩ := UnpackedFloat.finite.inj hfirst
  have happart := mul_abs_sub_le (by positivity) (Int.cast_pos.mpr hd) (Int.cast_pos.mpr hd')
    hclose hclose'
  have hunit : (0 : ℚ) < 2 ^ e' / 2 := by positivity
  have hbound : (2 * m' : ℚ) * |(d : ℚ) - d'| ≤ d + d' := by
    refine le_of_mul_le_mul_left ?_ hunit
    calc (2 : ℚ) ^ e' / 2 * (2 * m' * |(d : ℚ) - d'|) = m' * 2 ^ e' * |(d : ℚ) - d'| := by ring
      _ ≤ 2 ^ e' / 2 * (d + d') := happart
  have hint : 2 * (m' : Int) * |d - d'| ≤ d + d' := by exact_mod_cast hbound
  by_contra hne
  have hone : 1 ≤ |d - d'| := Int.one_le_abs (sub_ne_zero.mpr hne)
  have hwide : 2 * (m' : Int) * 1 ≤ 2 * m' * |d - d'| :=
    Int.mul_le_mul_of_nonneg_left hone (by positivity)
  omega

end SymbolicAlgebra.Binary64
