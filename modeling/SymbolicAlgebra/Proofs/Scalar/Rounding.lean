import SymbolicAlgebra.Proofs.Scalar.Units

/-!
# Rounding

A finite number whose exponent is the one that rounding aims at is packed without a loss, unless it is
too large and becomes infinite. A number of enough bits is rounded to one with that exponent, and not
below the power of two that its leading bit stands for, so it does not vanish.
-/

namespace SymbolicAlgebra.Binary64

open Float.Model Float.Model.UnpackedFloat

/-- The exponent is the one that rounding aims at if the mantissa has 53 bits, or at most as many and
the exponent is the smallest. -/
theorem aligned_iff {m : Nat} {e : Int} :
    Aligned m e ↔ m.log2 ≤ 52 ∧ -1074 ≤ e ∧ (m.log2 = 52 ∨ e = -1074) := by
  have hmin : Format.binary64.minExponent = -1074 := rfl
  have hbits : Format.binary64.mantissaBits = 53 := rfl
  rw [Aligned, Format.targetExponent, totalExponent, hmin, hbits]
  omega

/-- What is unpacked has an exponent below that of infinity. -/
theorem exponent_lt_of_unpack {b : BitVec 64} {s : Sign} {m : Nat} {e : Int} {h : 0 < m}
    (hb : UnpackedFloat.unpack .binary64 b = .finite s m e h) : e < 972 := by
  have hbias : Format.binary64.exponentBias = 1023 := rfl
  have hlt : (@unpackExponent .binary64 b).toNat < 2048 := BitVec.isLt _
  rw [UnpackedFloat.unpack] at hb
  split at hb
  · split at hb <;> cases hb
  · rename_i hspecial
    have hne : (@unpackExponent .binary64 b).toNat ≠ 2047 := fun h => hspecial (BitVec.eq_of_toNat_eq h)
    split at hb
    · rename_i he
      split at hb
      · cases hb
      · cases hb
        rw [he, hbias, BitVec.toNat_zero]
        decide
    · cases hb
      rw [hbias]
      simp only
      omega

/-- A finite number is packed with its sign, the exponent and the mantissa without its leading bit; it
is unpacked again as it was. -/
theorem unpack_pack (s : Sign) {m : Nat} {e : Int} (h : 0 < m) (aligned : Aligned m e)
    (he : e < 972) :
    UnpackedFloat.unpack .binary64 (UnpackedFloat.pack .binary64 (.finite s m e h)) =
      .finite s m e h := by
  obtain ⟨hlog, hmin, hwide⟩ := aligned_iff.mp aligned
  have hm : m < 2 ^ 53 := (Nat.log2_lt (Nat.ne_of_gt h)).mp (Nat.lt_succ_of_le hlog)
  have hfield : (e + Format.binary64.exponentBias + Format.binary64.mantissaBitsWithoutImplicit).toNat =
      (e + 1075).toNat := by
    change (e + 1023 + 52).toNat = _
    omega
  have hroom : ¬ 2 ^ Format.binary64.exponentBits ≤ (e + 1075).toNat + 1 := by
    change ¬ 2048 ≤ _
    omega
  simp only [UnpackedFloat.pack, hfield, if_neg hroom]
  split
  · rename_i hbits
    replace hbits : m.log2 = 52 := Nat.succ.inj hbits
    have hlow : 2 ^ 52 ≤ m := (Nat.le_log2 (Nat.ne_of_gt h)).mp (Nat.le_of_eq hbits.symm)
    have hexponent : (BitVec.ofNat 11 (e + 1075).toNat).toNat = (e + 1075).toNat := by
      rw [BitVec.toNat_ofNat]
      omega
    have hspecial : BitVec.ofNat 11 (e + 1075).toNat ≠ -1#11 := by
      intro hsame
      have : (e + 1075).toNat = 2047 := hexponent.symm.trans (congrArg BitVec.toNat hsame)
      omega
    have hzero : BitVec.ofNat 11 (e + 1075).toNat ≠ 0#11 := by
      intro hsame
      have : (e + 1075).toNat = 0 := hexponent.symm.trans (congrArg BitVec.toNat hsame)
      omega
    have hmantissa : (1#1 ++ BitVec.ofNat 52 m).toNat = m := by
      rw [toNat_normal, BitVec.toNat_ofNat]
      omega
    have hback : ((e + 1075).toNat : Int) - (Format.binary64.exponentBias + (52 : Nat)) = e := by
      change ((e + 1075).toNat : Int) - (1023 + 52) = e
      omega
    simp only [UnpackedFloat.unpack, unpackMantissa_packComponents, unpackExponent_packComponents,
      unpackSign_packComponents, Sign.ofBitVec_toBitVec]
    rw [if_neg hspecial, if_neg hzero]
    simp only [hexponent, hback, hmantissa]
  · rename_i hbits
    have hnarrow : m.log2 < 52 := Nat.lt_of_le_of_ne hlog fun h => hbits (congrArg Nat.succ h)
    obtain rfl : e = -1074 := hwide.resolve_left (Nat.ne_of_lt hnarrow)
    have hmantissa : (BitVec.ofNat 52 m).toNat = m := by
      rw [BitVec.toNat_ofNat]
      exact Nat.mod_eq_of_lt ((Nat.log2_lt (Nat.ne_of_gt h)).mp hnarrow)
    have hzero : BitVec.ofNat 52 m ≠ 0#52 := by
      intro hsame
      have : m = 0 := hmantissa.symm.trans (congrArg BitVec.toNat hsame)
      omega
    simp only [UnpackedFloat.unpack, unpackMantissa_packComponents, unpackExponent_packComponents,
      unpackSign_packComponents, Sign.ofBitVec_toBitVec]
    rw [if_neg (by decide), if_pos trivial, dif_neg hzero]
    simp only [hmantissa]
    rfl

/-- A number with an exponent that is too large is packed as infinite. -/
theorem unpack_pack_large (s : Sign) {m : Nat} {e : Int} (h : 0 < m) (he : 972 ≤ e) :
    UnpackedFloat.unpack .binary64 (UnpackedFloat.pack .binary64 (.finite s m e h)) =
      .infinity s := by
  have hlarge : 2 ^ Format.binary64.exponentBits ≤
      (e + Format.binary64.exponentBias + Format.binary64.mantissaBitsWithoutImplicit).toNat + 1 := by
    change 2048 ≤ (e + 1023 + 52).toNat + 1
    omega
  simp only [UnpackedFloat.pack, if_pos hlarge]
  cases s <;> rfl

/-- Shifting to the right halves the mantissa again and again. -/
theorem mantissa_shiftRight (m : ExtendedMantissa) (k : Nat) :
    (m >>> k).mantissa = m.mantissa / 2 ^ k := by
  change (k.repeat ExtendedMantissa.shiftRightOne m).mantissa = _
  induction k with
  | zero => simp [Nat.repeat]
  | succ k ih =>
    rw [Nat.repeat, ExtendedMantissa.shiftRightOne, ih, Nat.div_div_eq_div_mul, Nat.pow_succ]

/-- Rounding to the nearest mantissa cuts nothing off. -/
theorem mantissa_le_roundedMantissa (m : ExtendedMantissa) : m.mantissa ≤ m.roundedMantissa := by
  obtain ⟨mantissa, round, sticky⟩ := m
  cases round <;> cases sticky <;>
    simp [ExtendedMantissa.roundedMantissa, ExtendedMantissa.accuracy, Accuracy.roundToNearestEven]

/-- The exponent that rounding aims at grows with the number. -/
theorem targetExponent_mono {t t' : Int} (h : t ≤ t') :
    Format.binary64.targetExponent t ≤ Format.binary64.targetExponent t' := by
  rw [Format.targetExponent, Format.targetExponent]
  omega

/-- Shifting a number of enough bits to the exponent that rounding aims at keeps the place of its
leading bit. -/
theorem shift_wide {m : Nat} {e : Int} (hm : 0 < m)
    (hwide : e ≤ Format.binary64.targetExponent (totalExponent m e))
    (hlow : -1073 ≤ totalExponent m e) (accuracy : Accuracy) :
    ∃ m', shiftToTargetExponent .binary64 m e accuracy =
      (m', Format.binary64.targetExponent (totalExponent m e)) ∧ 0 < m'.mantissa ∧
      totalExponent m'.mantissa (Format.binary64.targetExponent (totalExponent m e)) =
        totalExponent m e := by
  have hmantissa : (ExtendedMantissa.ofMantissaAndAccuracy m accuracy).mantissa = m := by
    fun_cases ExtendedMantissa.ofMantissaAndAccuracy m accuracy <;> rfl
  have htarget : (Format.binary64.targetExponent (totalExponent m e) - e).toNat ≤ m.log2 := by
    have hmin : Format.binary64.minExponent = -1074 := rfl
    have hbits : Format.binary64.mantissaBits = 53 := rfl
    rw [totalExponent] at hlow
    rw [Format.targetExponent, totalExponent, hmin, hbits]
    omega
  rw [shiftToTargetExponent, shiftToExponent]
  generalize hk : (Format.binary64.targetExponent (totalExponent m e) - e).toNat = k at htarget
  have hexponent : e + (k : Int) = Format.binary64.targetExponent (totalExponent m e) := by omega
  have hshifted : m / 2 ^ k ≠ 0 := by
    rw [Nat.div_ne_zero_iff]
    exact ⟨by positivity, (Nat.le_log2 (Nat.ne_of_gt hm)).mp htarget⟩
  have hlog : (m / 2 ^ k).log2 = m.log2 - k := by
    rw [Nat.log2_eq_log_two, Nat.log2_eq_log_two, Nat.log_div_base_pow]
  refine ⟨_, Prod.ext rfl hexponent, ?_, ?_⟩
  · rw [mantissa_shiftRight, hmantissa]
    exact Nat.pos_of_ne_zero hshifted
  · rw [mantissa_shiftRight, hmantissa, ← hexponent, totalExponent, totalExponent, hlog]
    omega

/-- A number of enough bits is rounded to one that is aligned and not below the power of two that its
leading bit stands for. -/
theorem round_wide (s : Sign) {m : Nat} {e : Int} (hm : 0 < m)
    (hwide : e ≤ Format.binary64.targetExponent (totalExponent m e))
    (hlow : -1073 ≤ totalExponent m e) :
    ∃ m' e' h, roundWithAccuracy .binary64 s m e .exact = .finite s m' e' h ∧ Aligned m' e' ∧
      totalExponent m e ≤ totalExponent m' e' := by
  obtain ⟨first, hfirst, hpos, htotal⟩ := shift_wide hm hwide hlow .exact
  have htarget : ∀ t, totalExponent m e ≤ t → Format.binary64.targetExponent (totalExponent m e) ≤
      Format.binary64.targetExponent t := fun _ h => targetExponent_mono h
  generalize Format.binary64.targetExponent (totalExponent m e) = e₁ at hfirst htotal htarget
  have hgrows : totalExponent m e ≤ totalExponent first.roundedMantissa e₁ := by
    have := Nat.log_mono_right (b := 2) (mantissa_le_roundedMantissa first)
    rw [← Nat.log2_eq_log_two, ← Nat.log2_eq_log_two] at this
    rw [← htotal, totalExponent, totalExponent]
    omega
  obtain ⟨last, hlast, hpos', htotal'⟩ := shift_wide
    (hpos.trans_le (mantissa_le_roundedMantissa first))
    (htarget _ hgrows) (hlow.trans hgrows) .exact
  refine ⟨_, Format.binary64.targetExponent (totalExponent first.roundedMantissa e₁), hpos', ?_, ?_, ?_⟩
  · simp only [roundWithAccuracy, hfirst, hlast, dif_neg (Nat.ne_of_gt hpos')]
  · rw [Aligned, htotal']
  · rw [htotal']
    exact hgrows

end SymbolicAlgebra.Binary64
