import SymbolicAlgebra.Proofs.Scalar.Quotient
import SymbolicAlgebra.Proofs.Scalar.Zeros

/-!
# Finite numbers

Another sign keeps a double finite, a quotient by a finite number is finite only if the dividend is, and
whole numbers that are small enough to be exact are finite. So the parts of a fraction in lowest terms are
finite as soon as its value is, and its value is as finite as its numerator, and no more zero than it.
-/

namespace SymbolicAlgebra

/-- The parts of a coefficient are finite, and it does not divide by zero. -/
def Coefficient.Finite {α : Type} [Scalar α] (c : Coefficient α) : Prop :=
  Scalar.isFinite c.numer = true ∧ Scalar.isFinite c.denom = true ∧
    Scalar.eq c.denom Scalar.zero = false

namespace Binary64

open Float.Model Float.Model.UnpackedFloat

/-- A double with a mantissa is finite. -/
theorem isFinite_of_mantissa {x : Float} {s : Sign} {m : Nat} {e : Int} {h : 0 < m}
    (hx : x.toModel.unpack = .finite s m e h) : Scalar.isFinite x = true :=
  (isFinite_iff x).mpr (.inr ⟨s, m, e, h, hx⟩)

/-- A zero is finite. -/
theorem isFinite_of_zero {x : Float} (h : Scalar.eq x Scalar.zero = true) : Scalar.isFinite x = true := by
  rw [eq_zero] at h
  cases hx : x.toModel.unpack with
  | zero s => exact (isFinite_iff x).mpr (.inl ⟨s, hx⟩)
  | _ => rw [hx] at h; cases h

/-- Another sign keeps a double finite. -/
theorem isFinite_neg (x : Float) : Scalar.isFinite (-x) = Scalar.isFinite x := by
  change (-x).toModel.unpack.isFinite = x.toModel.unpack.isFinite
  rw [unpack_neg]
  cases x.toModel.unpack <;> rfl

/-- A zero without a sign is as finite as one with it. -/
theorem isFinite_unsignZero (x : Float) : Scalar.isFinite (Scalar.unsignZero x) = Scalar.isFinite x := by
  cases hzero : Scalar.eq x Scalar.zero with
  | true =>
    rw [isFinite_of_zero hzero, isFinite_of_zero ((Scalar.Lawful.eq_unsignZero x).trans hzero)]
  | false => rw [Scalar.unsignZero_of_ne hzero]

/-- What is packed of no number or of an infinite one is not finite. -/
theorem isFinite_pack_eq_false {u : UnpackedFloat} (h : u = .notANumber ∨ ∃ s, u = .infinity s) :
    (UnpackedFloat.unpack .binary64 (UnpackedFloat.pack .binary64 u)).isFinite = false := by
  obtain rfl | ⟨s, rfl⟩ := h
  · rfl
  · cases s <;> rfl

/-- A quotient is finite only if the dividend is. -/
theorem isFinite_of_div {x y : Float} (h : Scalar.isFinite (x / y) = true) :
    Scalar.isFinite x = true := by
  by_contra hx
  have hdiv : UnpackedFloat.div .binary64 x.toModel.unpack y.toModel.unpack = .notANumber ∨
      ∃ s, UnpackedFloat.div .binary64 x.toModel.unpack y.toModel.unpack = .infinity s := by
    cases hu : x.toModel.unpack with
    | notANumber => exact .inl (div_notANumber (.inl rfl))
    | infinity s =>
      cases y.toModel.unpack with
      | notANumber => exact .inl rfl
      | infinity t => exact .inl rfl
      | _ => exact .inr ⟨_, rfl⟩
    | zero s => exact absurd ((isFinite_iff x).mpr (.inl ⟨s, hu⟩)) hx
    | finite s m e hm => exact absurd (isFinite_of_mantissa hu) hx
  exact absurd h (Bool.eq_false_iff.mp (isFinite_pack_eq_false hdiv))

/-- Exact numbers are finite. -/
theorem isFinite_of_isExact {x : Float} (h : Coefficient.isExact x = true) : Scalar.isFinite x = true := by
  cases hzero : Scalar.eq x Scalar.zero with
  | true => exact isFinite_of_zero hzero
  | false =>
    obtain ⟨s, n, hn, -, hx⟩ := whole_of_isExact h hzero
    exact isFinite_of_mantissa hx

/-- Whole numbers up to the largest exponent are exact. -/
theorem isExact_of_le {x : Float} (hwhole : Scalar.isWhole x = true)
    (hle : Scalar.le (Scalar.abs x) (Scalar.ofInt 2147483647) = true) : Coefficient.isExact x = true := by
  have hlargest : (Scalar.ofInt 2147483647 : Float).toModel.unpack =
      .finite .positive (2 ^ 53 - 2 ^ 22) (-22) (by decide) := rfl
  have hlimit : (Coefficient.exactLimit : Float).toModel.unpack =
      .finite .positive (2 ^ 52) 1 (by decide) := rfl
  rw [Coefficient.isExact, hwhole, Bool.true_and]
  rw [le_iff, show Scalar.abs x = x.abs from rfl, unpack_abs, hlargest] at hle
  rw [lt_iff, show Scalar.abs x = x.abs from rfl, unpack_abs, hlimit]
  cases hx : x.toModel.unpack with
  | notANumber => rw [hx] at hle; cases hle
  | infinity s => rw [hx] at hle; cases hle
  | zero s => rfl
  | finite s m e hm =>
    rw [hx, UnpackedFloat.abs, UnpackedFloat.le, UnpackedFloat.compare, Option.any_some,
      Ordering.isLE_then_iff_or, compare_lt_iff_lt, compare_eq_iff_eq] at hle
    rw [UnpackedFloat.abs, UnpackedFloat.lt, UnpackedFloat.compare, beq_iff_eq, Option.some_inj,
      Ordering.then_eq_lt, compare_lt_iff_lt]
    omega

/-- Exact whole numbers are finite. -/
theorem isFinite_ofInt {k : Int} (hk : k.natAbs < 2 ^ 53) : Scalar.isFinite (Scalar.ofInt k : Float) = true :=
  isFinite_of_isExact (Scalar.Whole.isExact_ofInt k hk)

/-- The value of a fraction in lowest terms is its numerator, or a double with a mantissa. -/
theorem value_cases {c : Coefficient Float} (hc : c.LowestTerms) (hzero : c.isZero = false) :
    c.value = c.numer ∨ ∃ s m e h, c.value.toModel.unpack = .finite s m e h := by
  obtain ⟨hn, hd, hpos, -⟩ | hone := hc
  · right
    have hdenom := Scalar.Signed.eq_zero_of_pos _ hpos
    obtain ⟨hd', hback⟩ := Scalar.ofInt_toInt_of_pos hd (Scalar.Signed.lt_of_pos _ hpos) hdenom
    have hback' := Scalar.Whole.ofInt_toInt _ hn hzero
    have hsmall := Scalar.Whole.natAbs_toInt_lt _ hn
    have hsmall' := Scalar.Whole.natAbs_toInt_lt _ hd
    obtain ⟨m, e, h, hunpack, -⟩ := unpack_div_ofInt
      (Scalar.toInt_ne_of_isExact hn hzero) hsmall hd' (by omega)
    rw [hback, hback'] at hunpack
    exact ⟨_, m, e, h, hunpack⟩
  · left
    rw [Coefficient.value, hone, Scalar.Unital.div_one]

/-- The value of a fraction in lowest terms that is not zero is not zero. -/
theorem eq_value_zero {c : Coefficient Float} (hc : c.LowestTerms) (hzero : c.isZero = false) :
    Scalar.eq c.value Scalar.zero = false := by
  obtain hvalue | ⟨s, m, e, h, hvalue⟩ := value_cases hc hzero
  · rw [hvalue]
    exact hzero
  · rw [eq_zero, hvalue]
    rfl

/-- The denominator of a fraction in lowest terms is finite. -/
theorem isFinite_denom {c : Coefficient Float} (hc : c.LowestTerms) : Scalar.isFinite c.denom = true := by
  obtain ⟨-, hd, -⟩ | hone := hc
  · exact isFinite_of_isExact hd
  · rw [hone]
    exact isFinite_ofInt (by decide)

/-- A fraction in lowest terms is finite if its numerator is. -/
theorem finite_iff {c : Coefficient Float} (hc : c.LowestTerms) :
    c.Finite ↔ Scalar.isFinite c.numer = true :=
  ⟨fun h => h.1, fun h => ⟨h, isFinite_denom hc, hc.denom_ne_zero⟩⟩

/-- The value of a fraction in lowest terms is finite if its numerator is. -/
theorem isFinite_value {c : Coefficient Float} (hc : c.LowestTerms)
    (hfinite : Scalar.isFinite c.numer = true) : Scalar.isFinite c.value = true := by
  cases hzero : c.isZero with
  | true =>
    exact isFinite_of_zero (Scalar.Scaling.zero_div _ _ hzero (isFinite_denom hc) hc.denom_ne_zero)
  | false =>
    obtain hvalue | ⟨s, m, e, h, hvalue⟩ := value_cases hc hzero
    · rw [hvalue]
      exact hfinite
    · exact isFinite_of_mantissa hvalue

end Binary64

end SymbolicAlgebra
