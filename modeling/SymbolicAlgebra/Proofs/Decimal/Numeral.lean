import Mathlib
import SymbolicAlgebra.Decimal.Basic

/-!
# Numerals

A decimal number is written as digits, and behind a point the digits of its fraction if it has one.
There is no sign and no exponent, and a digit stands on both sides of the point.
-/

namespace SymbolicAlgebra

/-- Digits, and then a point and more digits or nothing. -/
def IsNumeral (cs : List Char) : Prop :=
  ∃ whole rest, cs = whole ++ rest ∧ whole ≠ [] ∧ (∀ c ∈ whole, c.isDigit = true) ∧
    (rest = [] ∨ ∃ places, rest = '.' :: places ∧ places ≠ [] ∧ ∀ c ∈ places, c.isDigit = true)

/-- A decimal number is written as a numeral. -/
theorem Decimal.isNumeral_text (d : Decimal) : IsNumeral d.text.toList := by
  have hdigits : ∀ c ∈ Nat.toDigits 10 d.digits, c.isDigit = true := fun c hc =>
    Nat.isDigit_of_mem_toDigits (by decide) (le_refl 10) hc
  have hsome : Nat.toDigits 10 d.digits ≠ [] := Nat.toDigits_ne_nil
  have hzeros : ∀ k, ∀ c ∈ List.replicate k '0', c.isDigit = true := by
    intro k c hc
    rw [List.eq_of_mem_replicate hc]
    rfl
  rw [text]
  generalize Nat.toDigits 10 d.digits = digits at *
  dsimp only
  split
  · rw [String.toList_ofList]
    refine ⟨digits ++ List.replicate d.exponent.toNat '0', [], by simp, by simp [hsome], ?_,
      .inl rfl⟩
    rw [List.forall_mem_append]
    exact ⟨hdigits, hzeros _⟩
  · rename_i hexponent
    rw [String.toList_ofList]
    generalize hplaces : (-d.exponent).toNat = places
    generalize hpadded : List.replicate (places + 1 - digits.length) '0' ++ digits = padded
    have hall : ∀ c ∈ padded, c.isDigit = true := by
      rw [← hpadded, List.forall_mem_append]
      exact ⟨hzeros _, hdigits⟩
    -- there is a digit before the point, and one after it since the exponent is negative
    have hlength : places + 1 ≤ padded.length := by
      rw [← hpadded, List.length_append, List.length_replicate]
      omega
    have hpositive : 0 < places := by omega
    refine ⟨padded.take (padded.length - places), _, rfl, ?_, fun c hc =>
      hall c (List.mem_of_mem_take hc), .inr ⟨_, rfl, ?_, fun c hc =>
      hall c (List.mem_of_mem_drop hc)⟩⟩
    · rw [ne_eq, List.take_eq_nil_iff, not_or, ← List.length_eq_zero_iff]
      omega
    · rw [ne_eq, List.drop_eq_nil_iff]
      omega

/-- A digit has no other case. -/
theorem toLower_of_isDigit {c : Char} (h : c.isDigit = true) : c.toLower = c := by
  have hdigit : 48 ≤ c.toNat ∧ c.toNat ≤ 57 := by
    simpa [Char.isDigit, UInt32.le_iff_toNat_le] using h
  rw [Char.toLower, dif_neg]
  intro hupper
  have : 65 ≤ c.toNat := by simpa [UInt32.le_iff_toNat_le] using hupper.1
  omega

/-- The digits of a numeral and its point are read as a number. -/
theorem IsNumeral.exists_readMagnitude? {cs : List Char} (h : IsNumeral cs) :
    ∃ d, Literal.readMagnitude? cs = some d := by
  obtain ⟨whole, rest, rfl, hsome, hwhole, hrest⟩ := h
  have hrun {run : List Char} (hdigits : ∀ c ∈ run, c.isDigit = true) :
      run.takeWhile Char.isDigit = run ∧ run.dropWhile Char.isDigit = [] :=
    ⟨List.takeWhile_eq_self_iff.mpr hdigits, List.dropWhile_eq_nil_iff.mpr hdigits⟩
  have hwhole' : whole.isEmpty = false := by simpa using hsome
  obtain rfl | ⟨places, rfl, -, hplaces⟩ := hrest
  · simp only [List.append_nil, Literal.readMagnitude?, hrun hwhole, hwhole', Bool.false_and,
      Bool.false_eq_true, if_false]
    exact ⟨_, rfl⟩
  · have hpoint : '.'.isDigit = false := rfl
    simp only [Literal.readMagnitude?, List.takeWhile_append_of_pos hwhole,
      List.dropWhile_append_of_pos hwhole, List.takeWhile_cons, List.dropWhile_cons, hpoint,
      hrun hplaces, Bool.false_eq_true, if_false, List.append_nil, hwhole', Bool.false_and]
    exact ⟨_, rfl⟩

/-- A numeral is read as a number that is not negative. -/
theorem IsNumeral.exists_read? {cs : List Char} (h : IsNumeral cs) :
    ∃ d, Literal.read? cs = some (.finite false d) := by
  obtain ⟨d, hmagnitude⟩ := h.exists_readMagnitude?
  obtain ⟨whole, rest, rfl, hsome, hwhole, -⟩ := h
  obtain ⟨c, ds, rfl⟩ := List.exists_cons_of_ne_nil hsome
  have hc : c.isDigit = true := hwhole c List.mem_cons_self
  have hsign : Literal.readSign (c :: ds ++ rest) = (false, c :: ds ++ rest) := by
    rw [List.cons_append, Literal.readSign] <;>
      · rintro _ ⟨⟩
        cases hc
  have hword (word : List Char) (hfirst : ∀ d ∈ word.head?, d.isDigit = false) :
      String.ofList ((c :: ds ++ rest).map Char.toLower) ≠ String.ofList word := by
    intro heq
    rw [List.cons_append, List.map_cons, toLower_of_isDigit hc, String.ofList_inj] at heq
    have hdigit := hfirst c (by rw [← heq]; rfl)
    rw [hc] at hdigit
    cases hdigit
  refine ⟨d, ?_⟩
  simp only [Literal.read?, hsign, hmagnitude]
  rw [if_neg (hword ['n', 'a', 'n'] (by rintro _ ⟨⟩; rfl)), if_neg]
  · rfl
  · rintro (heq | heq)
    · exact hword ['i', 'n', 'f'] (by rintro _ ⟨⟩; rfl) heq
    · exact hword ['i', 'n', 'f', 'i', 'n', 'i', 't', 'y'] (by rintro _ ⟨⟩; rfl) heq

end SymbolicAlgebra
