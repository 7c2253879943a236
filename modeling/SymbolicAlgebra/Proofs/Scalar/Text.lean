import SymbolicAlgebra.Proofs.Decimal.Numeral
import SymbolicAlgebra.Proofs.Scalar.Signed

/-!
# Texts of numbers

A finite number that is not negative is written as a numeral, and a negative one as a minus sign and
the number with the other sign.
-/

namespace SymbolicAlgebra

/-- Scalars that are written as numerals with or without a minus sign in front. -/
class Scalar.Numeric (α : Type) [Scalar α] : Prop extends Scalar.Signed α where
  text_numeral (a : α) : Scalar.isFinite a = true → Scalar.lt a Scalar.zero = false →
    Scalar.unsignZero a = a → IsNumeral (Scalar.text a).toList
  text_negative (a : α) : Scalar.isFinite a = true → Scalar.lt a Scalar.zero = true →
    Scalar.text a = "-" ++ Scalar.text (-a)

namespace Scalar

variable {α : Type} [Scalar α]

/-- The number with a minus sign left out. -/
def magnitude (a : α) : α := if lt a zero then -a else a

/-- The number is read back from its text; a minus sign is not part of what is read. -/
def ReadsBack (a : α) : Prop := read? (text (magnitude a)).toList = some (magnitude a)

/-- The number is finite and no zero with a sign, and is read back from its text. -/
structure Legible (a : α) : Prop where
  finite : isFinite a = true
  unsigned : unsignZero a = a
  back : ReadsBack a

variable [Numeric α]

/-- A number that is not negative is written as a numeral, which is read as the number. -/
theorem Legible.numeral {a : α} (h : Legible a) (ha : lt a zero = false) :
    IsNumeral (text a).toList ∧ read? (text a).toList = some a := by
  have hback := h.back
  rw [ReadsBack, magnitude, ha] at hback
  exact ⟨Numeric.text_numeral a h.finite ha h.unsigned, hback⟩

/-- The opposite of a negative number is not negative, and its text stands behind a minus in that of
the number. -/
theorem Legible.opposite {a : α} (h : Legible a) (ha : lt a zero = true) :
    Legible (-a) ∧ lt (-a) zero = false ∧ text a = "-" ++ text (-a) := by
  have hneg := Signed.lt_neg a ha
  have hzero : eq (-a) zero = false := (Lawful.eq_neg_zero a).trans (Signed.eq_zero_of_neg a ha)
  refine ⟨⟨(Signed.isFinite_neg a).trans h.finite, unsignZero_of_ne hzero, ?_⟩, hneg,
    Numeric.text_negative a h.finite ha⟩
  have hback := h.back
  rw [ReadsBack, magnitude, ha] at hback
  rw [ReadsBack, magnitude, hneg]
  exact hback

end Scalar

namespace Binary64

open Float.Model Float.Model.UnpackedFloat

/-- The sign is a minus. -/
def isMinus : Sign → Bool
  | .negative => true
  | .positive => false

/-- What an unpacked number stands for. -/
def partsOf : UnpackedFloat → Parts
  | .notANumber => .nan
  | .infinity s => .infinite (isMinus s)
  | .zero s => .finite (isMinus s) 0 (-1074)
  | .finite s m e _ => .finite (isMinus s) m e

/-- A double is taken apart into what it is unpacked to. -/
theorem parts_eq (x : Float) : parts x = partsOf x.toModel.unpack := by
  have hexponent : (@unpackExponent .binary64 x.toModel.toBits.toBitVec).toNat =
      x.toBits.toNat / Nat.pow 2 52 % Nat.pow 2 11 := by
    rw [unpackExponent_def, BitVec.extractLsb'_toNat, Nat.shiftRight_eq_div_pow]
    rfl
  have hmantissa : (@unpackMantissa .binary64 x.toModel.toBits.toBitVec).toNat =
      x.toBits.toNat % Nat.pow 2 52 := by
    rw [unpackMantissa_def, BitVec.extractLsb'_toNat, Nat.shiftRight_zero]
    rfl
  have hsign : isMinus (Sign.ofBitVec (@unpackSign .binary64 x.toModel.toBits.toBitVec)) =
      decide (Nat.pow 2 63 ≤ x.toBits.toNat) := by
    have hbit : (@unpackSign .binary64 x.toModel.toBits.toBitVec).toNat =
        x.toBits.toNat / Nat.pow 2 63 % 2 := by
      rw [unpackSign_def, BitVec.extractLsb'_toNat, Nat.shiftRight_eq_div_pow]
      rfl
    have hlt := x.toBits.toNat_lt
    rw [Sign.ofBitVec]
    split
    · rename_i hzero
      rw [hzero, BitVec.toNat_ofNat] at hbit
      have : ¬ Nat.pow 2 63 ≤ x.toBits.toNat := by
        rw [Nat.pow_eq] at *
        omega
      simp only [this, decide_false, isMinus]
    · rename_i hone
      have hone : (@unpackSign .binary64 x.toModel.toBits.toBitVec).toNat ≠ 0 := fun h =>
        hone (BitVec.eq_of_toNat_eq h)
      have : Nat.pow 2 63 ≤ x.toBits.toNat := by
        rw [Nat.pow_eq] at *
        omega
      simp only [this, decide_true, isMinus]
  have hspecial (e : BitVec 11) : e.toNat = 2047 ↔ e = -1#11 := by
    rw [← BitVec.toNat_inj]
    rfl
  have hsubnormal (e : BitVec 11) : e.toNat = 0 ↔ e = 0#11 := by
    rw [← BitVec.toNat_inj]
    rfl
  have hzero (m : BitVec 52) : m.toNat = 0 ↔ m = 0#52 := by
    rw [← BitVec.toNat_inj]
    rfl
  simp only [parts, Float.Model.unpack, UnpackedFloat.unpack, ← hexponent, ← hmantissa, ← hsign,
    hspecial, hsubnormal, hzero]
  split
  · split <;> rfl
  · split
    · rename_i he
      split
      · rename_i hm
        rw [hm]
        rfl
      · rw [he]
        rfl
    · rw [partsOf, toNat_normal]
      rfl

/-- The text of a number with its sign left out. -/
def magnitudeText (mantissa : Nat) (exponent : Int) : String :=
  if mantissa = 0 then "0" else (rounded mantissa exponent).shortest.text

/-- A number without its sign is written as a numeral. -/
theorem isNumeral_magnitudeText (mantissa : Nat) (exponent : Int) :
    IsNumeral (magnitudeText mantissa exponent).toList := by
  rw [magnitudeText]
  split
  · exact ⟨['0'], [], rfl, by simp, by simp, .inl rfl⟩
  · exact Decimal.isNumeral_text _

/-- A finite double is taken apart into a sign, a mantissa and an exponent; another sign changes the
first of them only. -/
theorem exists_parts {x : Float} (h : Scalar.isFinite x = true) :
    ∃ s m e, parts x = .finite (isMinus s) m e ∧ parts (-x) = .finite (isMinus (-s)) m e ∧
      (Scalar.lt x Scalar.zero = true → s = .negative) ∧
      (Scalar.lt x Scalar.zero = false → Scalar.unsignZero x = x → s = .positive) := by
  rw [parts_eq, parts_eq, unpack_neg]
  have hfinite : x.toModel.unpack.isFinite = true := h
  have hlt := lt_zero x
  cases hx : x.toModel.unpack with
  | notANumber =>
    rw [hx] at hfinite
    cases hfinite
  | infinity s =>
    rw [hx] at hfinite
    cases hfinite
  | zero s =>
    rw [hx] at hlt
    refine ⟨s, 0, -1074, rfl, rfl, fun hneg => ?_, fun _ hsame => ?_⟩
    · simp [hlt] at hneg
    · have hsum : x.toModel.unpack = .zero .positive := by
        rw [← hsame]
        change UnpackedFloat.unpack .binary64 (UnpackedFloat.pack .binary64
          (UnpackedFloat.add .binary64 x.toModel.unpack (.zero .positive))) = _
        rw [add_zero, hx]
        exact unpack_packedZero
      rw [hx] at hsum
      exact UnpackedFloat.zero.inj hsum
  | finite s m e hm =>
    rw [hx] at hlt
    refine ⟨s, m, e, rfl, rfl, fun hneg => ?_, fun hpos _ => ?_⟩
    · simpa [hm] using hlt.mp hneg
    · cases s with
      | positive => rfl
      | negative => simp [hpos, hm] at hlt

/-- The doubles are written as numerals with or without a minus sign in front. -/
instance : Scalar.Numeric Float where
  text_numeral x hfinite hpos hsame := by
    obtain ⟨s, m, e, hparts, -, -, hs⟩ := exists_parts hfinite
    obtain rfl := hs hpos hsame
    change IsNumeral (text x).toList
    rw [text, hparts]
    exact isNumeral_magnitudeText m e
  text_negative x hfinite hneg := by
    obtain ⟨s, m, e, hparts, hparts', hs, -⟩ := exists_parts hfinite
    obtain rfl := hs hneg
    change text x = "-" ++ text (-x)
    rw [text, text, hparts, hparts']
    rfl

end Binary64

end SymbolicAlgebra
