import SymbolicAlgebra.Proofs.Scalar.Lawful
import SymbolicAlgebra.Scalar.Binary64

/-!
# Laws of binary floating point numbers

The doubles have the laws of `Scalar.Lawful`. Their order compares integer keys, so it is a total
preorder. What is zero is read off the exponent and the mantissa, and packing a number that was
unpacked keeps these apart from zero, so neither adding zero nor another sign makes or breaks a
zero.
-/

namespace SymbolicAlgebra.Binary64

open Float.Model Float.Model.UnpackedFloat

/-- The number is a zero with either sign. -/
def isZero : UnpackedFloat → Bool
  | .zero _ => true
  | _ => false

/-- Only a zero is equal to zero. -/
theorem beq_zero (u : UnpackedFloat) (s : Sign) : u.beq (.zero s) = isZero u := by
  cases u with
  | infinity t => cases t <;> rfl
  | notANumber => rfl
  | zero t => rfl
  | finite t m e h => cases t <;> rfl

/-- The bits of a zero are those without an exponent and a mantissa. -/
theorem isZero_unpack (b : BitVec 64) :
    isZero (UnpackedFloat.unpack .binary64 b) = true ↔
      @unpackExponent .binary64 b = 0#_ ∧ @unpackMantissa .binary64 b = 0#_ := by
  unfold UnpackedFloat.unpack
  simp only
  split
  · rename_i h
    rw [h]
    split <;> simp [isZero]
  · split
    · split
      · rename_i hexponent hmantissa
        simp [isZero, hexponent, hmantissa]
      · rename_i hexponent hmantissa
        simp [isZero, hexponent, hmantissa]
    · rename_i hexponent
      simp [isZero, hexponent]

/-- The leading bit of the mantissa of a normal number is added to the bits that are stored. -/
theorem toNat_normal (m : BitVec 52) : (1#1 ++ m).toNat = 2 ^ 52 + m.toNat := by
  rw [BitVec.toNat_append, ← Nat.shiftLeft_add_eq_or_of_lt m.isLt, Nat.shiftLeft_eq,
    BitVec.toNat_one (by decide), Nat.one_mul]

/-- The mantissa of a normal number has 53 bits. -/
theorem log2_normal (m : BitVec 52) : (1#1 ++ m).toNat.log2 = 52 := by
  have hlt := m.isLt
  rw [toNat_normal, Nat.log2_eq_iff (by omega)]
  omega

/-- Unpacking what was packed after unpacking finds a zero only where there was one. -/
theorem isZero_repack (b : BitVec 64) :
    isZero (UnpackedFloat.unpack .binary64
      (UnpackedFloat.pack .binary64 (UnpackedFloat.unpack .binary64 b))) =
      isZero (UnpackedFloat.unpack .binary64 b) := by
  rw [Bool.eq_iff_iff, isZero_unpack]
  unfold UnpackedFloat.unpack
  simp only
  split
  · split
    · simp [UnpackedFloat.pack, packedInfinity, isZero]
    · simp [UnpackedFloat.pack, packedNaN, isZero]
  · split
    · split
      · simp [UnpackedFloat.pack, packedZero, isZero]
      · -- a subnormal number keeps its mantissa
        rename_i hmantissa
        simp only [isZero, UnpackedFloat.pack]
        split
        · simp [packedInfinity]
        · split <;> simp [hmantissa]
    · -- a normal number keeps its exponent
      rename_i hexponent
      simp only [isZero, UnpackedFloat.pack]
      split
      · simp [packedInfinity]
      · split
        · have hback (x : BitVec 11) :
              ((x.toNat : Int) - (Format.binary64.exponentBias + (52 : Nat)) +
                Format.binary64.exponentBias + (52 : Nat)).toNat = x.toNat := by omega
          rw [hback]
          simp [hexponent]
        · rename_i hbits
          rw [log2_normal] at hbits
          exact (hbits rfl).elim

/-- Another sign does not change what is packed to zero. -/
theorem isZero_pack_neg (u : UnpackedFloat) :
    isZero (UnpackedFloat.unpack .binary64 (UnpackedFloat.pack .binary64 u.neg)) =
      isZero (UnpackedFloat.unpack .binary64 (UnpackedFloat.pack .binary64 u)) := by
  rw [Bool.eq_iff_iff, isZero_unpack, isZero_unpack]
  cases u with
  | notANumber => rfl
  | infinity s => simp [UnpackedFloat.neg, UnpackedFloat.pack, packedInfinity]
  | zero s => simp [UnpackedFloat.neg, UnpackedFloat.pack, packedZero]
  | finite s m e h =>
    simp only [UnpackedFloat.neg, UnpackedFloat.pack]
    split
    · simp [packedInfinity]
    · split <;> simp

/-- Equality with zero is what unpacking tells. -/
theorem eq_zero (x : Float) : Scalar.eq x Scalar.zero = isZero x.toModel.unpack :=
  beq_zero x.toModel.unpack .positive

/-- Adding zero keeps a number, and makes a zero positive. -/
theorem add_zero (u : UnpackedFloat) :
    UnpackedFloat.add .binary64 u (.zero .positive) =
      if isZero u then .zero .positive else u := by
  cases u with
  | zero s => cases s <;> rfl
  | _ => rfl

/-- The key of a number is zero only for the positive zero. -/
theorem eq_zero_of_orderKey {x : Float} (h : orderKey x = 0) : x = Scalar.zero := by
  simp only [orderKey] at h
  split at h
  · cases h
  · split at h
    · omega
    · have hbits : x.toModel.toBits = 0 := by
        apply UInt64.toNat_inj.mp
        exact Int.ofNat_eq_zero.mp h
      obtain ⟨⟨bits, valid⟩⟩ := x
      subst hbits
      rfl

/-- The doubles have the laws of scalars. -/
instance : Scalar.Lawful Float where
  order_trans := inferInstanceAs (Std.TransCmp (compareOn orderKey))
  eq_unsignZero x := by
    rw [eq_zero, eq_zero]
    change isZero (UnpackedFloat.unpack .binary64 (UnpackedFloat.pack .binary64
      (UnpackedFloat.add .binary64 x.toModel.unpack (.zero .positive)))) = _
    rw [add_zero]
    split
    · rename_i hzero
      rw [hzero]
      rfl
    · exact isZero_repack _
  eq_one := rfl
  eq_unsignZero_one := rfl
  eq_neg_zero x := by
    rw [eq_zero, eq_zero]
    exact (isZero_pack_neg x.toModel.unpack).trans (isZero_repack _)
  eq_minusOne_zero := rfl
  eq_zero_of_order x h := by
    rw [eq_zero_of_orderKey (Std.LawfulEqOrd.eq_of_compare h)]
    rfl

end SymbolicAlgebra.Binary64
