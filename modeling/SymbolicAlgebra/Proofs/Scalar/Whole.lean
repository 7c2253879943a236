import SymbolicAlgebra.Proofs.Scalar.Text

/-!
# Whole numbers

Whole numbers that are small enough to be exact are known by the integers that they are, and dividing
one by a divisor is exact. A product does not vanish if one factor is at least one.
-/

namespace SymbolicAlgebra

/-- Scalars whose exact whole numbers are the integers below a bound; dividing one by a divisor leaves
no error, and multiplying by a number that is at least one does not make zero of another number. -/
class Scalar.Whole (α : Type) [Scalar α] : Prop extends Scalar.Signed α where
  toInt_of_zero (a : α) : Scalar.eq a Scalar.zero = true → Scalar.toInt a = 0
  toInt_nonneg (a : α) : Scalar.lt a Scalar.zero = false → 0 ≤ Scalar.toInt a
  natAbs_toInt_lt (a : α) : Coefficient.isExact a = true → (Scalar.toInt a).natAbs < 2 ^ 53
  ofInt_toInt (a : α) : Coefficient.isExact a = true → Scalar.eq a Scalar.zero = false →
    Scalar.ofInt (Scalar.toInt a) = a
  toInt_ofInt (n : Int) : n.natAbs < 2 ^ 53 → Scalar.toInt (Scalar.ofInt n : α) = n
  isExact_ofInt (n : Int) : n.natAbs < 2 ^ 53 → Coefficient.isExact (Scalar.ofInt n : α) = true
  eq_ofInt_zero (n : Int) : n.natAbs < 2 ^ 53 →
    Scalar.eq (Scalar.ofInt n : α) Scalar.zero = decide (n = 0)
  neg_ofInt (n : Int) : n.natAbs < 2 ^ 53 → n ≠ 0 → -(Scalar.ofInt n : α) = Scalar.ofInt (-n)
  one_le_ofInt (n : Int) : n.natAbs < 2 ^ 53 → 0 < n → Scalar.le Scalar.one (Scalar.ofInt n : α) = true
  pos_of_one_le (a : α) : Scalar.le Scalar.one a = true → Scalar.lt Scalar.zero a = true
  mul_div_ofInt (n k : Int) : (n * k).natAbs < 2 ^ 53 → n ≠ 0 → 0 < k →
    (Scalar.ofInt (n * k) / Scalar.ofInt k : α) = Scalar.ofInt n
  one_le_mul (a b : α) : Scalar.le Scalar.one a = true → Scalar.le Scalar.one b = true →
    Scalar.le Scalar.one (a * b) = true
  eq_mul_zero (a b : α) : Scalar.le Scalar.one a = true → Scalar.eq b Scalar.zero = false →
    Scalar.eq (a * b) Scalar.zero = false

section Whole

variable {α : Type} [Scalar α] [Scalar.Whole α]

/-- An exact number other than zero is an integer other than zero. -/
theorem Scalar.toInt_ne_of_isExact {a : α} (ha : Coefficient.isExact a = true)
    (hzero : Scalar.eq a Scalar.zero = false) : Scalar.toInt a ≠ 0 := by
  have hself := Whole.eq_ofInt_zero (α := α) (toInt a) (Whole.natAbs_toInt_lt a ha)
  rwa [Whole.ofInt_toInt a ha hzero, hzero, eq_comm, decide_eq_false_iff_not] at hself

/-- An exact number that is neither zero nor negative is a positive integer. -/
theorem Scalar.ofInt_toInt_of_pos {d : α} (hd : Coefficient.isExact d = true)
    (hneg : Scalar.lt d Scalar.zero = false) (hzero : Scalar.eq d Scalar.zero = false) :
    0 < Scalar.toInt d ∧ Scalar.ofInt (Scalar.toInt d) = d :=
  ⟨lt_of_le_of_ne (Whole.toInt_nonneg d hneg) (toInt_ne_of_isExact hd hzero).symm,
    Whole.ofInt_toInt d hd hzero⟩

/-- Dividing an exact number by a divisor gives the quotient of the integers. -/
theorem Scalar.div_ofInt {a : α} (ha : Coefficient.isExact a = true)
    (hzero : Scalar.eq a Scalar.zero = false) {k : Int} (hk : 0 < k) (hdvd : k ∣ Scalar.toInt a) :
    a / Scalar.ofInt k = Scalar.ofInt (Scalar.toInt a / k) ∧ Scalar.toInt a / k ≠ 0 ∧
      (Scalar.toInt a / k).natAbs < 2 ^ 53 := by
  have hback := Whole.ofInt_toInt a ha hzero
  have hsmall := Whole.natAbs_toInt_lt a ha
  have hne := toInt_ne_of_isExact ha hzero
  obtain ⟨b, hb⟩ := hdvd
  rw [hb, Int.mul_comm] at hback hsmall hne
  rw [hb, Int.mul_ediv_cancel_left b (Int.ne_of_gt hk)]
  refine ⟨?_, left_ne_zero_of_mul hne, ?_⟩
  · conv_lhs => rw [← hback]
    exact Whole.mul_div_ofInt b k hsmall (left_ne_zero_of_mul hne) hk
  · rw [Int.natAbs_mul] at hsmall
    exact (Nat.le_mul_of_pos_right _ (Int.natAbs_pos.mpr (Int.ne_of_gt hk))).trans_lt hsmall

/-- What holds of one, of a number and of products holds of its powers. -/
theorem Scalar.npow_of_mul {α : Type} [Scalar α] {p : α → Prop} (hone : p Scalar.one)
    (hmul : ∀ a b, p a → p b → p (a * b)) {a : α} (ha : p a) (n : Nat) : p (Scalar.npow a n) := by
  have hloop (fuel : Nat) (result a : α) (n : Nat) (hresult : p result) (ha : p a) :
      p (powLoop fuel result a n) := by
    induction fuel generalizing result a n with
    | zero => exact hresult
    | succ fuel ih =>
      have hnext : p (if n % 2 = 1 then result * a else result) := by
        split
        · exact hmul _ _ hresult ha
        · exact hresult
      simp only [powLoop]
      split
      · exact hnext
      · exact ih _ _ _ hnext (hmul _ _ ha ha)
  exact hloop _ _ _ _ hone ha

/-- A power of a number that is at least one is at least one. -/
theorem Scalar.one_le_npow {a : α} (ha : Scalar.le Scalar.one a = true) (n : Nat) :
    Scalar.le Scalar.one (Scalar.npow a n) = true :=
  npow_of_mul (Whole.one_le_ofInt 1 (by decide) (by decide)) Whole.one_le_mul ha n

end Whole

namespace Binary64

open Float.Model Float.Model.UnpackedFloat

/-- The number without its sign is unpacked to the same parts without it. -/
theorem unpack_abs (x : Float) : x.abs.toModel.unpack = x.toModel.unpack.abs := by
  change UnpackedFloat.unpack .binary64 (UnpackedFloat.pack .binary64 x.toModel.unpack.abs) = _
  cases hx : x.toModel.unpack with
  | notANumber => exact unpack_packedNaN
  | infinity s => cases s <;> rfl
  | zero s => exact unpack_packedZero
  | finite s m e h => exact unpack_pack .positive h (aligned_unpack hx) (exponent_lt_of_unpack hx)

/-- A double with a mantissa is taken apart into its sign, the mantissa and the exponent. -/
theorem parts_of_mantissa {x : Float} {s : Sign} {m : Nat} {e : Int} {h : 0 < m}
    (hx : x.toModel.unpack = .finite s m e h) : parts x = .finite (isMinus s) m e := by
  rw [parts_eq, hx]
  rfl

/-- The mantissa of a whole number with the leading bit in the first place. -/
def mantissaOf (n : Nat) : Nat := n * 2 ^ (52 - n.log2)

/-- The whole number with a sign. -/
def wholeOf (s : Sign) (n : Nat) (h : 0 < n) : UnpackedFloat :=
  .finite s (mantissaOf n) (n.log2 - 52) (Nat.mul_pos h (Nat.two_pow_pos _))

/-- A number below `2 ^ 53` has at most 53 bits. -/
theorem log2_le_of_lt {n : Nat} (hn : n < 2 ^ 53) : n.log2 ≤ 52 := by
  by_cases h : n = 0
  · simp [h]
  · exact Nat.le_of_lt_succ ((Nat.log2_lt h).mpr hn)

/-- The mantissa of a whole number has 53 bits. -/
theorem log2_mantissaOf {n : Nat} (h : 0 < n) (hn : n < 2 ^ 53) : (mantissaOf n).log2 = 52 := by
  rw [mantissaOf, log2_mul_two_pow h]
  have := log2_le_of_lt hn
  omega

/-- Whole numbers are aligned. -/
theorem aligned_whole {n : Nat} (h : 0 < n) (hn : n < 2 ^ 53) :
    Aligned (mantissaOf n) (n.log2 - 52) := by
  have hlog := log2_mantissaOf h hn
  exact aligned_iff.mpr ⟨Nat.le_of_eq hlog, by omega, .inl hlog⟩

/-- A whole number is what rounding makes of it, however far it is shifted to the left. -/
theorem round_whole (s : Sign) {n : Nat} (h : 0 < n) (hn : n < 2 ^ 53) {j : Nat}
    (hj : 52 - n.log2 ≤ j) :
    roundWithAccuracy .binary64 s (n * 2 ^ j) (-j) .exact = wholeOf s n h := by
  have hlog := log2_le_of_lt hn
  have hshift : n * 2 ^ j = mantissaOf n * 2 ^ (j - (52 - n.log2)) := by
    rw [mantissaOf, Nat.mul_assoc, ← Nat.pow_add, Nat.add_sub_cancel' hj]
  have hexponent : -(j : Int) = (n.log2 - 52 : Int) - (j - (52 - n.log2) : Nat) := by omega
  rw [hshift, hexponent]
  exact round_shifted s _ (aligned_whole h hn) _

/-- An integer is rounded to a whole number, however far it is shifted to the left. -/
theorem round_integer (s : Sign) {n : Nat} (h : 0 < n) (hn : n < 2 ^ 53) (j : Nat) :
    UnpackedFloat.round .binary64 s (n * 2 ^ j) (-j) = wholeOf s n h := by
  have hlog := log2_le_of_lt hn
  have htarget : (-(j : Int) - Format.binary64.targetExponent (totalExponent (n * 2 ^ j) (-j))).toNat =
      52 - n.log2 - j := by
    have hmin : Format.binary64.minExponent = -1074 := rfl
    have hbits : Format.binary64.mantissaBits = 53 := rfl
    rw [Format.targetExponent, totalExponent, log2_mul_two_pow h, hmin, hbits]
    omega
  have hexponent : -(j : Int) - (52 - n.log2 - j : Nat) = -(j + (52 - n.log2 - j) : Nat) := by omega
  simp only [UnpackedFloat.round, decreaseExponent, htarget, Nat.shiftLeft_eq, Nat.mul_assoc,
    ← Nat.pow_add, hexponent]
  exact round_whole s h hn (by omega)

/-- A natural number below the bound is a whole number. -/
theorem unpack_ofNat {n : Nat} (h : 0 < n) (hn : n < 2 ^ 53) :
    (Float.ofNat n).toModel.unpack = wholeOf .positive n h := by
  have hlog := log2_le_of_lt hn
  have hfactor : Float.ofNat n = n.toUInt64.toFloat * (Scalar.one : Float) := by
    change Float.ofScientific n false 0 = _
    rw [Float.ofScientific, dif_pos ⟨hn, by decide⟩]
    rfl
  have hnat : n.toUInt64.toNat = n := Nat.mod_eq_of_lt (hn.trans (by decide))
  have hmodel : n.toUInt64.toFloat.toModel =
      Float.Model.pack (UnpackedFloat.ofNat .binary64 n.toUInt64.toNat) := rfl
  have hround : UnpackedFloat.ofNat .binary64 n = wholeOf .positive n h := by
    have hpos : compare (n : Int) 0 = .gt := compare_gt_iff_gt.mpr (Int.natCast_pos.mpr h)
    rw [UnpackedFloat.ofNat, UnpackedFloat.ofInt, UnpackedFloat.normalize, hpos]
    simpa using round_integer .positive h hn 0
  rw [hfactor, Scalar.Unital.mul_one, hmodel, hnat, hround]
  exact unpack_pack .positive _ (aligned_whole h hn) (by omega)

/-- The sign of an integer. -/
def signOf (n : Int) : Sign := if n < 0 then .negative else .positive

/-- An integer below the bound is a whole number. -/
theorem unpack_ofInt {n : Int} (h : n ≠ 0) (hn : n.natAbs < 2 ^ 53) :
    (Scalar.ofInt n : Float).toModel.unpack = wholeOf (signOf n) n.natAbs (Int.natAbs_pos.mpr h) := by
  cases n with
  | ofNat n => exact unpack_ofNat (Nat.pos_of_ne_zero fun h0 => h (congrArg _ h0)) hn
  | negSucc n =>
    change (-(Float.ofNat (n + 1))).toModel.unpack = _
    rw [unpack_neg, unpack_ofNat (Nat.succ_pos n) hn, signOf, if_pos (Int.negSucc_lt_zero n)]
    rfl

/-- The integer that a whole number is. -/
theorem toInt_of_whole {x : Float} {s : Sign} {n : Nat} {h : 0 < n} (hn : n < 2 ^ 53)
    (hx : x.toModel.unpack = wholeOf s n h) : toInt x = if isMinus s then -(n : Int) else n := by
  have hlog := log2_le_of_lt hn
  rw [toInt, parts_of_mantissa hx]
  have hmagnitude : (if 0 ≤ (n.log2 - 52 : Int) then mantissaOf n * Nat.pow 2 (n.log2 - 52 : Int).toNat
      else mantissaOf n / Nat.pow 2 (-(n.log2 - 52 : Int)).toNat) = n := by
    have hback : (-(n.log2 - 52 : Int)).toNat = 52 - n.log2 := by omega
    split
    · have hfull : n.log2 = 52 := by omega
      rw [mantissaOf, hfull]
      simp
    · rw [hback, mantissaOf, Nat.pow_eq, Nat.mul_div_cancel _ (Nat.two_pow_pos _)]
  simp only [hmagnitude]

/-- A number is whole if no bit of its mantissa stands behind the point. -/
theorem isWhole_iff {x : Float} {s : Sign} {m : Nat} {e : Int} {h : 0 < m}
    (hx : x.toModel.unpack = .finite s m e h) :
    Scalar.isWhole x = true ↔ 0 ≤ e ∨ 2 ^ (-e).toNat ∣ m := by
  change isWhole x = true ↔ _
  simp only [isWhole, parts_of_mantissa hx, Bool.or_eq_true, decide_eq_true_eq, beq_iff_eq, Nat.pow_eq,
    Nat.dvd_iff_mod_eq_zero]

/-- A number is exact if its mantissa ends in enough zeros. -/
theorem isExact_iff {x : Float} {s : Sign} {m : Nat} {e : Int} {h : 0 < m}
    (hx : x.toModel.unpack = .finite s m e h) :
    Coefficient.isExact x = true ↔ e ≤ 0 ∧ 2 ^ (-e).toNat ∣ m := by
  have hsmall : Scalar.lt (Scalar.abs x) (Coefficient.exactLimit : Float) = true ↔ e ≤ 0 := by
    have hlimit : (Coefficient.exactLimit : Float).toModel.unpack =
        .finite .positive (2 ^ 52) 1 (by decide) := rfl
    have habs : (Scalar.abs x).toModel.unpack = .finite .positive m e h := by
      rw [show Scalar.abs x = x.abs from rfl, unpack_abs, hx]
      rfl
    rw [lt_iff, habs, hlimit, UnpackedFloat.lt, UnpackedFloat.compare, beq_iff_eq, Option.some_inj,
      Ordering.then_eq_lt]
    have hwide : e = 1 → 2 ^ 52 ≤ m := by
      rintro rfl
      obtain ⟨-, -, hlog | he⟩ := aligned_iff.mp (aligned_unpack hx)
      · exact (Nat.le_log2 (Nat.ne_of_gt h)).mp (Nat.le_of_eq hlog.symm)
      · omega
    simp only [compare_lt_iff_lt, compare_eq_iff_eq]
    omega
  rw [Coefficient.isExact, Bool.and_eq_true, isWhole_iff hx, hsmall]
  constructor
  · rintro ⟨hle | hdvd, he⟩
    · obtain rfl : e = 0 := by omega
      exact ⟨he, one_dvd m⟩
    · exact ⟨he, hdvd⟩
  · rintro ⟨he, hdvd⟩
    exact ⟨.inr hdvd, he⟩

/-- Whole numbers are exact. -/
theorem isExact_of_whole {x : Float} {s : Sign} {n : Nat} {h : 0 < n} (hn : n < 2 ^ 53)
    (hx : x.toModel.unpack = wholeOf s n h) : Coefficient.isExact x = true := by
  have hlog := log2_le_of_lt hn
  have hback : (-(n.log2 - 52 : Int)).toNat = 52 - n.log2 := by omega
  rw [wholeOf] at hx
  rw [isExact_iff hx, hback]
  exact ⟨by omega, Nat.dvd_mul_left _ n⟩

/-- Exact numbers other than zero are whole numbers. -/
theorem whole_of_isExact {x : Float} (hx : Coefficient.isExact x = true)
    (hzero : Scalar.eq x Scalar.zero = false) :
    ∃ s n h, n < 2 ^ 53 ∧ x.toModel.unpack = wholeOf s n h := by
  rw [eq_zero] at hzero
  have hwhole : isWhole x = true := (Bool.and_eq_true_iff.mp hx).1
  rw [isWhole, parts_eq] at hwhole
  cases hu : x.toModel.unpack with
  | notANumber =>
    rw [hu] at hwhole
    cases hwhole
  | infinity s =>
    rw [hu] at hwhole
    cases hwhole
  | zero s =>
    rw [hu] at hzero
    cases hzero
  | finite s m e h =>
    obtain ⟨he, n, rfl⟩ := (isExact_iff hu).mp hx
    obtain ⟨hlog, hmin, hwide⟩ := aligned_iff.mp (aligned_unpack hu)
    have hpos : 0 < n := Nat.pos_of_mul_pos_left h
    rw [Nat.mul_comm, log2_mul_two_pow hpos] at hlog hwide
    have hback : (-e).toNat = 52 - n.log2 := by omega
    have hn : n < 2 ^ 53 := (Nat.log2_lt (Nat.ne_of_gt hpos)).mp (by omega)
    refine ⟨s, n, hpos, hn, ?_⟩
    simp only [wholeOf, mantissaOf, hback, Nat.mul_comm n]
    congr 1
    omega

/-- Only a number with a leading bit in the place of one or above is at least one. -/
theorem one_le (x : Float) : Scalar.le Scalar.one x = true ↔
    x.toModel.unpack = .infinity .positive ∨
      ∃ m e h, x.toModel.unpack = .finite .positive m e h ∧ 1 ≤ totalExponent m e := by
  rw [le_iff, unpack_one]
  cases hx : x.toModel.unpack with
  | notANumber => simp [UnpackedFloat.le, UnpackedFloat.compare]
  | infinity s => cases s <;> simp [UnpackedFloat.le, UnpackedFloat.compare]
  | zero s => simp [UnpackedFloat.le, UnpackedFloat.compare]
  | finite s m e h =>
    cases s with
    | negative => simp [UnpackedFloat.le, UnpackedFloat.compare]
    | positive =>
      obtain ⟨hlog, hmin, hwide⟩ := aligned_iff.mp (aligned_unpack hx)
      have hlow : m.log2 = 52 → 2 ^ 52 ≤ m := fun hlog =>
        (Nat.le_log2 (Nat.ne_of_gt h)).mp (Nat.le_of_eq hlog.symm)
      have hle : UnpackedFloat.le (.finite .positive (2 ^ 52) (-52) (by decide))
          (.finite .positive m e h) = true ↔ 1 ≤ totalExponent m e := by
        rw [UnpackedFloat.le, UnpackedFloat.compare, Option.any_some, Ordering.isLE_then_iff_or,
          compare_lt_iff_lt, compare_eq_iff_eq, totalExponent, Nat.isLE_compare]
        omega
      rw [hle]
      simp [h]

/-- Multiplying is done with what is unpacked. -/
theorem unpack_mul (x y : Float) : (x * y).toModel.unpack = UnpackedFloat.unpack .binary64
    (UnpackedFloat.pack .binary64 (UnpackedFloat.mul .binary64 x.toModel.unpack y.toModel.unpack)) :=
  rfl

/-- The product of a number that is at least one with another one is infinite, or its leading bit is
in no lower place than the product of the leading bits. -/
theorem unpack_mul_finite {x y : Float} {s : Sign} {m n : Nat} {e f : Int} {hm : 0 < m} {hn : 0 < n}
    (hx : x.toModel.unpack = .finite .positive m e hm) (hone : 1 ≤ totalExponent m e)
    (hy : y.toModel.unpack = .finite s n f hn) :
    (x * y).toModel.unpack = .infinity s ∨ ∃ k g h, (x * y).toModel.unpack = .finite s k g h ∧
      totalExponent m e + totalExponent n f ≤ totalExponent k g + 1 := by
  have hmul : (x * y).toModel.unpack = UnpackedFloat.unpack .binary64 (UnpackedFloat.pack .binary64
      (roundWithAccuracy .binary64 s (m * n) (e + f) .exact)) := by
    rw [unpack_mul, hx, hy]
    cases s <;> rfl
  obtain ⟨hlog, hmin, hwide⟩ := aligned_iff.mp (aligned_unpack hx)
  obtain ⟨hlog', hmin', -⟩ := aligned_iff.mp (aligned_unpack hy)
  have hpos : 0 < m * n := Nat.mul_pos hm hn
  have hgrows : m.log2 + n.log2 ≤ (m * n).log2 := by
    rw [Nat.le_log2 (Nat.ne_of_gt hpos), Nat.pow_add]
    exact Nat.mul_le_mul (Nat.log2_self_le (Nat.ne_of_gt hm)) (Nat.log2_self_le (Nat.ne_of_gt hn))
  rw [totalExponent] at hone
  obtain ⟨k, g, h, hround, aligned, htotal⟩ := round_wide s (e := e + f) hpos
    (by
      have hbits : Format.binary64.mantissaBits = 53 := rfl
      rw [Format.targetExponent, totalExponent, hbits]
      omega)
    (by rw [totalExponent]; omega)
  rw [hmul, hround]
  rcases lt_or_ge g 972 with hg | hg
  · refine .inr ⟨k, g, h, unpack_pack s h aligned hg, ?_⟩
    rw [totalExponent] at htotal
    rw [totalExponent, totalExponent]
    omega
  · exact .inl (unpack_pack_large s h hg)

/-- Dividing a whole number by a divisor is exact. -/
theorem div_whole (s : Sign) {n k : Nat} (hn : 0 < n) (hk : 0 < k) (h : n * k < 2 ^ 53) :
    UnpackedFloat.div .binary64 (wholeOf s (n * k) (Nat.mul_pos hn hk)) (wholeOf .positive k hk) =
      wholeOf s n hn := by
  have hn' : n < 2 ^ 53 := (Nat.le_mul_of_pos_right n hk).trans_lt h
  have hk' : k < 2 ^ 53 := (Nat.le_mul_of_pos_left k hn).trans_lt h
  have hlog := log2_le_of_lt h
  have hlogk := log2_le_of_lt hk'
  have hgrows : (n * k).log2 ≤ n.log2 + 1 + k.log2 := by
    refine Nat.le_of_lt_succ ((Nat.log2_lt (Nat.ne_of_gt (Nat.mul_pos hn hk))).mpr ?_)
    calc n * k < 2 ^ (n.log2 + 1) * 2 ^ (k.log2 + 1) :=
          Nat.mul_lt_mul'' Nat.lt_log2_self Nat.lt_log2_self
      _ = 2 ^ (n.log2 + 1 + k.log2 + 1) := by rw [← Nat.pow_add, Nat.add_assoc _ k.log2]
  have hcore : divCore .binary64 (mantissaOf (n * k)) ((n * k).log2 - 52) (mantissaOf k) (k.log2 - 52) =
      (n * 2 ^ (53 + k.log2 - (n * k).log2), -((53 + k.log2 - (n * k).log2 : Nat) : Int), .exact) := by
    have htarget : min ((n * k).log2 - 52 - (k.log2 - 52) : Int) (Format.binary64.targetExponent
        (totalExponent (mantissaOf (n * k)) ((n * k).log2 - 52) -
          totalExponent (mantissaOf k) (k.log2 - 52))) =
        -((53 + k.log2 - (n * k).log2 : Nat) : Int) := by
      have hmin : Format.binary64.minExponent = -1074 := rfl
      have hbits : Format.binary64.mantissaBits = 53 := rfl
      rw [Format.targetExponent, totalExponent, totalExponent, hmin, hbits,
        log2_mantissaOf (Nat.mul_pos hn hk) h, log2_mantissaOf hk hk']
      omega
    have hshift : (((n * k).log2 - 52 - (k.log2 - 52) : Int) -
        -((53 + k.log2 - (n * k).log2 : Nat) : Int)).toNat = 53 := by omega
    have hmantissa : mantissaOf (n * k) <<< 53 =
        n * 2 ^ (53 + k.log2 - (n * k).log2) * mantissaOf k := by
      have hsplit : 52 - (n * k).log2 + 53 = 53 + k.log2 - (n * k).log2 + (52 - k.log2) := by omega
      rw [Nat.shiftLeft_eq, mantissaOf, mantissaOf, Nat.mul_assoc, ← Nat.pow_add, hsplit, Nat.pow_add]
      ring
    have hpos : 0 < mantissaOf k := Nat.mul_pos hk (Nat.two_pow_pos _)
    simp only [divCore, htarget, hshift, hmantissa, Nat.mul_div_cancel _ hpos, Nat.mul_mod_left,
      accuracyOfFraction, if_true]
  have hs : s / .positive = s := by cases s <;> rfl
  simp only [wholeOf, UnpackedFloat.div, hcore, hs]
  exact round_whole s hn hn' (by omega)

/-- A double that is a whole number is the integer that it is taken for. -/
theorem ofInt_of_whole {x : Float} {s : Sign} {n : Nat} {h : 0 < n} (hn : n < 2 ^ 53)
    (hx : x.toModel.unpack = wholeOf s n h) :
    Scalar.ofInt (if isMinus s then -(n : Int) else n) = x := by
  refine eq_of_unpack (Eq.trans ?_ hx.symm)
  cases s with
  | positive =>
    have hint := unpack_ofInt (n := (n : Int)) (by omega) hn
    simpa [signOf, isMinus, Int.not_lt.mpr (Int.natCast_nonneg n)] using hint
  | negative =>
    have hint := unpack_ofInt (n := -(n : Int)) (by omega) (by simpa using hn)
    simpa [signOf, isMinus, h] using hint

/-- The integer that zero is. -/
theorem toInt_of_isZero {x : Float} (h : isZero x.toModel.unpack = true) : toInt x = 0 := by
  cases hx : x.toModel.unpack with
  | zero s =>
    have hparts : parts x = .finite (isMinus s) 0 (-1074) := by
      rw [parts_eq, hx]
      rfl
    simp only [toInt, hparts, Nat.zero_mul, Nat.zero_div, ite_self, Int.natCast_zero, Int.neg_zero]
  | _ =>
    rw [hx] at h
    cases h

/-- The doubles below the bound are the integers there. -/
instance : Scalar.Whole Float where
  toInt_of_zero x h := toInt_of_isZero (eq_zero x ▸ h)
  toInt_nonneg x h := by
    change 0 ≤ toInt x
    rw [toInt, parts_eq]
    cases hx : x.toModel.unpack with
    | finite s m e hm =>
      cases s with
      | negative =>
        rw [(lt_zero x).mpr (.inr ⟨m, e, hm, hx⟩)] at h
        cases h
      | positive => exact Int.natCast_nonneg _
    | zero s =>
      rw [← hx, ← parts_eq]
      exact Int.le_of_eq (toInt_of_isZero (by rw [hx]; rfl)).symm
    | _ => exact Int.le_refl 0
  natAbs_toInt_lt x h := by
    change (toInt x).natAbs < _
    cases hzero : Scalar.eq x Scalar.zero with
    | true =>
      rw [toInt_of_isZero (eq_zero x ▸ hzero)]
      decide
    | false =>
      obtain ⟨s, n, hpos, hn, hx⟩ := whole_of_isExact h hzero
      rw [toInt_of_whole hn hx]
      cases s <;> simpa [isMinus] using hn
  ofInt_toInt x h hzero := by
    obtain ⟨s, n, hpos, hn, hx⟩ := whole_of_isExact h hzero
    change Scalar.ofInt (toInt x) = x
    rw [toInt_of_whole hn hx, ofInt_of_whole hn hx]
  toInt_ofInt n hn := by
    by_cases h : n = 0
    · rw [h]
      exact toInt_of_isZero rfl
    · refine (toInt_of_whole hn (unpack_ofInt h hn)).trans ?_
      rw [signOf]
      split <;> simp only [isMinus, Bool.false_eq_true, if_true, if_false] <;> omega
  isExact_ofInt n hn := by
    by_cases h : n = 0
    · rw [h]
      decide +kernel
    · exact isExact_of_whole hn (unpack_ofInt h hn)
  eq_ofInt_zero n hn := by
    by_cases h : n = 0
    · rw [h]
      rfl
    · rw [eq_zero, unpack_ofInt h hn, decide_eq_false h]
      rfl
  neg_ofInt n hn h := by
    refine eq_of_unpack ?_
    have hsign : signOf (-n) = -signOf n := by
      rcases lt_or_gt_of_ne h with hneg | hpos
      · rw [signOf, signOf, if_pos hneg, if_neg (by omega)]
        rfl
      · rw [signOf, signOf, if_neg (Int.not_lt.mpr (Int.le_of_lt hpos)), if_pos (by omega)]
        rfl
    rw [unpack_neg, unpack_ofInt h hn, unpack_ofInt (Int.neg_ne_zero.mpr h) (by rwa [Int.natAbs_neg])]
    simp only [hsign, Int.natAbs_neg]
    rfl
  one_le_ofInt n hn hpos := by
    have hlog := log2_mantissaOf (Int.natAbs_pos.mpr (Int.ne_of_gt hpos)) hn
    have hunpack := unpack_ofInt (Int.ne_of_gt hpos) hn
    rw [signOf, if_neg (Int.not_lt.mpr (Int.le_of_lt hpos))] at hunpack
    refine (one_le _).mpr (.inr ⟨_, _, _, hunpack, ?_⟩)
    rw [totalExponent, hlog]
    omega
  pos_of_one_le x h := by
    rw [zero_lt]
    obtain h | ⟨m, e, hm, h, -⟩ := (one_le x).mp h
    · exact .inl h
    · exact .inr ⟨m, e, hm, h⟩
  mul_div_ofInt n k h hn hk := by
    have hne : n * k ≠ 0 := Int.mul_ne_zero hn (Int.ne_of_gt hk)
    have hproduct : n.natAbs * k.natAbs < 2 ^ 53 := Int.natAbs_mul n k ▸ h
    have hkpos : 0 < k.natAbs := Int.natAbs_pos.mpr (Int.ne_of_gt hk)
    have hn' : n.natAbs < 2 ^ 53 := (Nat.le_mul_of_pos_right _ hkpos).trans_lt hproduct
    have hk' : k.natAbs < 2 ^ 53 :=
      (Nat.le_mul_of_pos_left _ (Int.natAbs_pos.mpr hn)).trans_lt hproduct
    have hx := unpack_ofInt hne h
    have hy := unpack_ofInt (Int.ne_of_gt hk) hk'
    have hsign : signOf (n * k) = signOf n := by
      simp only [signOf, mul_neg_iff, hk, Int.not_lt.mpr (Int.le_of_lt hk), and_false, and_true, false_or]
    simp only [Int.natAbs_mul, hsign] at hx
    rw [signOf, if_neg (Int.not_lt.mpr (Int.le_of_lt hk))] at hy
    refine eq_of_unpack ?_
    change UnpackedFloat.unpack .binary64 (UnpackedFloat.pack .binary64
      (UnpackedFloat.div .binary64 (Scalar.ofInt (n * k) : Float).toModel.unpack
        (Scalar.ofInt k : Float).toModel.unpack)) = _
    rw [hx, hy, div_whole _ (Int.natAbs_pos.mpr hn) hkpos hproduct, unpack_ofInt hn hn']
    exact unpack_pack _ _ (aligned_whole (Int.natAbs_pos.mpr hn) hn') (by
      have := log2_le_of_lt hn'
      omega)
  one_le_mul x y hx hy := by
    rw [one_le]
    obtain hx | ⟨m, e, hm, hx, hone⟩ := (one_le x).mp hx <;>
      obtain hy | ⟨n, f, hn, hy, hone'⟩ := (one_le y).mp hy
    case inr.inr =>
      obtain h | ⟨k, g, h, hxy, htotal⟩ := unpack_mul_finite hx hone hy
      · exact .inl h
      · exact .inr ⟨k, g, h, hxy, by omega⟩
    all_goals
      left
      rw [unpack_mul, hx, hy]
      simp only [UnpackedFloat.mul]
      rfl
  eq_mul_zero x y hx hy := by
    rw [eq_zero] at hy ⊢
    cases hu : y.toModel.unpack with
    | zero s =>
      rw [hu] at hy
      cases hy
    | notANumber =>
      obtain hx | ⟨m, e, hm, hx, -⟩ := (one_le x).mp hx <;> rw [unpack_mul, hx, hu] <;>
        simp only [UnpackedFloat.mul] <;> rfl
    | infinity s =>
      obtain hx | ⟨m, e, hm, hx, -⟩ := (one_le x).mp hx <;> rw [unpack_mul, hx, hu] <;>
        simp only [UnpackedFloat.mul] <;> cases s <;> rfl
    | finite s n f hn =>
      obtain hx | ⟨m, e, hm, hx, hone⟩ := (one_le x).mp hx
      · rw [unpack_mul, hx, hu]
        simp only [UnpackedFloat.mul]
        cases s <;> rfl
      · obtain h | ⟨k, g, h, hxy, -⟩ := unpack_mul_finite hx hone hu
        · rw [h]
          rfl
        · rw [hxy]
          rfl

end Binary64

end SymbolicAlgebra
