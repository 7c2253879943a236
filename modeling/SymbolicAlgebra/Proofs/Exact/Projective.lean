import SymbolicAlgebra.Proofs.Exact.Basic

/-!
# Projective numbers

The reals with a single infinity, which is what one divided by zero is, and with an element for
what has no meaning at all, such as zero divided by zero. Factors can move across a fraction line
here even where they are zero, and whatever is computed from something absent is absent.

One number is below another if they are the same wherever the first has a meaning. The laws of
powers hold in this sense only: a negative number squared has a square root, but is no square of one.
-/

namespace SymbolicAlgebra

/-- A real number, the single infinity, or nothing at all. -/
inductive Projective where
  | absent
  | infinite
  | finite (r : ℝ)

namespace Projective

open Exact (Whole)

/-- The number that an exact number is, if it is one. -/
def ofExact : Exact → Projective
  | .missing => absent
  | .number r => finite r

/-- The product of two numbers; zero times infinity has none. -/
noncomputable def mul : Projective → Projective → Projective
  | finite r, finite s => finite (r * s)
  | finite r, infinite => if r = 0 then absent else infinite
  | infinite, finite s => if s = 0 then absent else infinite
  | infinite, infinite => infinite
  | _, _ => absent

/-- The sum of two numbers; infinity plus infinity has none. -/
noncomputable def add : Projective → Projective → Projective
  | finite r, finite s => finite (r + s)
  | finite _, infinite => infinite
  | infinite, finite _ => infinite
  | _, _ => absent

/-- The reciprocal of a number. -/
noncomputable def reciprocal : Projective → Projective
  | finite r => if r = 0 then infinite else finite r⁻¹
  | infinite => finite 0
  | absent => absent

noncomputable instance : Mul Projective := ⟨mul⟩

noncomputable instance : Add Projective := ⟨add⟩

noncomputable instance : Inv Projective := ⟨reciprocal⟩

instance : One Projective := ⟨finite 1⟩

instance : Zero Projective := ⟨finite 0⟩

section Rules

variable {p q : Projective} {r s : ℝ}

@[simp] theorem finite_mul_finite : finite r * finite s = finite (r * s) := rfl

@[simp] theorem finite_add_finite : finite r + finite s = finite (r + s) := rfl

@[simp] theorem absent_mul : absent * p = absent := by cases p <;> rfl

@[simp] theorem mul_absent : p * absent = absent := by cases p <;> rfl

@[simp] theorem absent_add : absent + p = absent := by cases p <;> rfl

@[simp] theorem add_absent : p + absent = absent := by cases p <;> rfl

@[simp] theorem infinite_mul_infinite : infinite * infinite = infinite := rfl

@[simp] theorem infinite_add_infinite : infinite + infinite = absent := rfl

@[simp] theorem finite_add_infinite : finite r + infinite = infinite := rfl

@[simp] theorem infinite_add_finite : infinite + finite r = infinite := rfl

@[simp] theorem zero_mul_infinite : finite 0 * infinite = absent := if_pos rfl

/-- Infinity absorbs every factor but zero. -/
theorem finite_mul_infinite (h : r ≠ 0) : finite r * infinite = infinite := if_neg h

@[simp] theorem inv_absent : absent⁻¹ = absent := rfl

@[simp] theorem inv_infinite : infinite⁻¹ = finite 0 := rfl

@[simp] theorem inv_zero : (finite 0)⁻¹ = infinite := if_pos rfl

/-- A number other than zero has a reciprocal that is one too. -/
theorem inv_finite (h : r ≠ 0) : (finite r)⁻¹ = finite r⁻¹ := if_neg h

/-- One is the real number one. -/
theorem one_eq : (1 : Projective) = finite 1 := rfl

/-- Zero is the real number zero. -/
theorem zero_eq : (0 : Projective) = finite 0 := rfl

end Rules

noncomputable instance : AddCommMonoid Projective where
  add_assoc p q r := by cases p <;> cases q <;> cases r <;> simp [add_assoc]
  zero_add p := by cases p <;> simp [zero_eq]
  add_zero p := by cases p <;> simp [zero_eq]
  add_comm p q := by cases p <;> cases q <;> simp [add_comm]
  nsmul := nsmulRec

/-- Multiplication does not depend on the order of the factors. -/
theorem mul_swap (p q : Projective) : p * q = q * p := by
  cases p <;> cases q <;> first | exact congrArg finite (mul_comm _ _) | rfl

/-- Multiplication does not depend on the grouping of the factors. -/
theorem mul_regroup (p q r : Projective) : p * q * r = p * (q * r) := by
  have swap (s : ℝ) : infinite * finite s = finite s * infinite := mul_swap _ _
  cases p with
  | absent => simp
  | infinite =>
    cases q with
    | absent => simp
    | infinite =>
      cases r with
      | finite c => by_cases hc : c = 0 <;> simp [swap, hc, finite_mul_infinite]
      | _ => simp
    | finite b =>
      cases r with
      | finite c =>
        by_cases hb : b = 0 <;> by_cases hc : c = 0 <;> simp [swap, hb, hc, finite_mul_infinite]
      | _ => by_cases hb : b = 0 <;> simp [swap, hb, finite_mul_infinite]
  | finite a =>
    cases q with
    | absent => simp
    | infinite =>
      cases r with
      | finite c =>
        by_cases ha : a = 0 <;> by_cases hc : c = 0 <;> simp [swap, ha, hc, finite_mul_infinite]
      | _ => by_cases ha : a = 0 <;> simp [ha, finite_mul_infinite]
    | finite b =>
      cases r with
      | infinite =>
        by_cases ha : a = 0 <;> by_cases hb : b = 0 <;> simp [ha, hb, finite_mul_infinite]
      | absent => simp
      | finite c => simp [mul_assoc]

noncomputable instance : DivisionCommMonoid Projective where
  mul_assoc := mul_regroup
  mul_comm := mul_swap
  one_mul p := by cases p <;> simp [one_eq, finite_mul_infinite]
  mul_one p := by rw [mul_swap]; cases p <;> simp [one_eq, finite_mul_infinite]
  inv_inv p := by
    cases p with
    | finite r => by_cases hr : r = 0 <;> simp [hr, inv_finite]
    | _ => simp
  mul_inv_rev p q := by
    have swap (s : ℝ) : infinite * finite s = finite s * infinite := mul_swap _ _
    cases p with
    | absent => simp
    | infinite =>
      cases q with
      | finite s => by_cases hs : s = 0 <;> simp [swap, hs, finite_mul_infinite, inv_finite]
      | _ => simp
    | finite r =>
      cases q with
      | finite s =>
        by_cases hr : r = 0 <;> by_cases hs : s = 0 <;>
          simp [swap, hr, hs, finite_mul_infinite, inv_finite, mul_comm]
      | _ => by_cases hr : r = 0 <;> simp [hr, finite_mul_infinite, inv_finite]
  inv_eq_of_mul p q h := by
    cases p with
    | finite r =>
      cases q with
      | finite s =>
        have hrs : r * s = 1 := by simpa [one_eq] using h
        rw [inv_finite (left_ne_zero_of_mul_eq_one hrs), inv_eq_of_mul_eq_one_right hrs]
      | _ => by_cases hr : r = 0 <;> simp [hr, finite_mul_infinite, one_eq] at h
    | infinite =>
      cases q with
      | finite s =>
        rw [mul_swap] at h
        by_cases hs : s = 0 <;> simp [hs, finite_mul_infinite, one_eq] at h
      | _ => simp [one_eq] at h
    | absent => simp [one_eq] at h

instance : PartialOrder Projective where
  le p q := p = absent ∨ p = q
  le_refl _ := .inr rfl
  le_trans p q r hpq hqr := by
    obtain rfl | rfl := hpq
    · exact .inl rfl
    · exact hqr
  le_antisymm p q hpq hqp := by
    obtain rfl | rfl := hpq
    · obtain rfl | rfl := hqp <;> rfl
    · rfl

section Order

variable {p q : Projective} {r s : ℝ}

/-- Below a value are what is absent and the value itself. -/
theorem le_iff : p ≤ q ↔ p = absent ∨ p = q := Iff.rfl

@[simp] theorem absent_le : absent ≤ p := .inl rfl

/-- Only what is absent is below a number other than this number itself. -/
@[simp] theorem finite_le_iff : finite r ≤ p ↔ p = finite r := by
  rw [le_iff, eq_comm (a := p)]
  simp

/-- Only infinity is above infinity. -/
@[simp] theorem infinite_le_iff : infinite ≤ p ↔ p = infinite := by
  rw [le_iff, eq_comm (a := p)]
  simp

/-- Nothing that has a meaning is below what has none. -/
@[simp] theorem le_absent_iff : p ≤ absent ↔ p = absent := or_self_iff

/-- A function that keeps what is absent keeps the order. -/
theorem mono_of_absent {f : Projective → Projective} (h : f absent = absent) (hpq : p ≤ q) :
    f p ≤ f q := by
  obtain rfl | rfl := hpq
  · rw [h]
    exact absent_le
  · exact le_rfl

instance : MulLeftMono Projective := ⟨fun p _ _ => mono_of_absent (f := (p * ·)) mul_absent⟩

instance : AddLeftMono Projective := ⟨fun p _ _ => mono_of_absent (f := (p + ·)) add_absent⟩

/-- Reciprocals keep the order. -/
theorem inv_mono (h : p ≤ q) : p⁻¹ ≤ q⁻¹ := mono_of_absent inv_absent h

/-- A number times a sum is the sum of the products. -/
theorem finite_mul_add (r : ℝ) (p q : Projective) :
    finite r * (p + q) = finite r * p + finite r * q := by
  cases p <;> cases q <;> by_cases hr : r = 0 <;> simp [hr, finite_mul_infinite, mul_add]

/-- A number times the sum of a list is the sum of the products. -/
theorem finite_mul_sum (r : ℝ) (ps : List Projective) :
    finite r * ps.sum = (ps.map (finite r * ·)).sum := by
  induction ps with
  | nil => simp [zero_eq]
  | cons p ps ih => rw [List.sum_cons, finite_mul_add, ih, List.map_cons, List.sum_cons]

/-- Multiples of the same can be added by adding the numbers. -/
theorem finite_mul_add_le (r s : ℝ) (p : Projective) :
    finite r * p + finite s * p ≤ finite (r + s) * p := by
  cases p with
  | infinite =>
    by_cases hr : r = 0 <;> by_cases hs : s = 0 <;> simp [hr, hs, finite_mul_infinite]
  | absent => simp
  | finite a => simp [add_mul]

/-- Zero times anything is zero or has no meaning. -/
theorem zero_mul_le (p : Projective) : finite 0 * p ≤ finite 0 := by
  cases p <;> simp

/-- A product with a factor of zero is zero or has no meaning. -/
theorem prod_le_zero_of_mem {ps : List Projective} (h : finite 0 ∈ ps) : ps.prod ≤ finite 0 := by
  obtain ⟨before, after, rfl⟩ := List.append_of_mem h
  rw [List.prod_append, List.prod_cons, mul_left_comm]
  exact zero_mul_le _

/-- Infinity absorbs whatever it can be multiplied with. -/
theorem mul_infinite_le (p : Projective) : p * infinite ≤ infinite := by
  cases p with
  | finite r => by_cases hr : r = 0 <;> simp [hr, finite_mul_infinite]
  | _ => simp

/-- What is above something with a meaning has one. -/
theorem ne_absent_of_le (h : p ≤ q) (hp : p ≠ absent) : q ≠ absent := by
  rintro rfl
  exact hp (le_absent_iff.mp h)

/-- The factors of a product with a meaning have one. -/
theorem ne_absent_of_mul (h : p * q ≠ absent) : p ≠ absent ∧ q ≠ absent := by
  constructor
  · rintro rfl
    exact h absent_mul
  · rintro rfl
    exact h mul_absent

/-- What has a meaning has a reciprocal, and nothing else has one. -/
@[simp] theorem inv_eq_absent : p⁻¹ = absent ↔ p = absent := by rw [← inv_inj, inv_inv, inv_absent]

/-- All factors of a product with a meaning have one. -/
theorem ne_absent_of_mem_prod {ps : List Projective} (h : ps.prod ≠ absent) (hp : p ∈ ps) :
    p ≠ absent := by
  induction ps with
  | nil => cases hp
  | cons r ps ih =>
    rw [List.prod_cons] at h
    obtain rfl | hp := List.mem_cons.mp hp
    · exact (ne_absent_of_mul h).1
    · exact ih (ne_absent_of_mul h).2 hp

/-- All addends of a sum with a meaning have one. -/
theorem ne_absent_of_mem_sum {ps : List Projective} (h : ps.sum ≠ absent) (hp : p ∈ ps) :
    p ≠ absent := by
  rintro rfl
  obtain ⟨before, after, rfl⟩ := List.append_of_mem hp
  simp at h

end Order

/-- The number is a real one. -/
def IsFinite (p : Projective) : Prop := ∃ r : ℝ, p = finite r

section Finite

variable {p q : Projective}

@[simp] theorem isFinite_finite (r : ℝ) : (finite r).IsFinite := ⟨r, rfl⟩

@[simp] theorem not_isFinite_infinite : ¬ infinite.IsFinite := nofun

@[simp] theorem not_isFinite_absent : ¬ absent.IsFinite := nofun

/-- A real number has a meaning. -/
theorem IsFinite.ne_absent (h : p.IsFinite) : p ≠ absent := by
  obtain ⟨r, rfl⟩ := h
  exact nofun

/-- Only a real number is above one. -/
theorem IsFinite.mono (h : p.IsFinite) (hpq : p ≤ q) : q.IsFinite := by
  obtain ⟨r, rfl⟩ := h
  exact ⟨r, finite_le_iff.mp hpq⟩

/-- An exact number is a real one if it is any. -/
theorem isFinite_ofExact {x : Exact} (h : ofExact x ≠ absent) : (ofExact x).IsFinite := by
  cases x with
  | missing => exact (h rfl).elim
  | number r => exact isFinite_finite r

/-- The product of real numbers is one. -/
theorem IsFinite.mul (hp : p.IsFinite) (hq : q.IsFinite) : (p * q).IsFinite := by
  obtain ⟨r, rfl⟩ := hp
  obtain ⟨s, rfl⟩ := hq
  exact isFinite_finite (r * s)

/-- A sum is a real number if and only if its two addends are. -/
theorem isFinite_add : (p + q).IsFinite ↔ p.IsFinite ∧ q.IsFinite := by
  cases p <;> cases q <;> simp

/-- A sum is a real number if and only if all of its addends are. -/
theorem isFinite_sum {ps : List Projective} : ps.sum.IsFinite ↔ ∀ p ∈ ps, p.IsFinite := by
  induction ps with
  | nil => simp [zero_eq]
  | cons p ps ih => rw [List.sum_cons, isFinite_add, ih, List.forall_mem_cons]

end Finite

end Projective

end SymbolicAlgebra
