import Mathlib.Tactic.Tauto

/-!
# Lists of names

Names are listed in the order of their characters and without repeats. Such a list has the same names as
the list that it was made from.
-/

namespace SymbolicAlgebra

variable {name : String}

/-- Without its repeats a list has the same names. -/
theorem mem_eraseReps {names : List String} : name ∈ names.eraseReps ↔ name ∈ names := by
  have loop (a : String) (rest kept : List String) :
      name ∈ List.eraseRepsBy.loop (· == ·) a rest kept ↔ name ∈ kept ∨ name = a ∨ name ∈ rest := by
    induction rest generalizing a kept with
    | nil => simp [List.eraseRepsBy.loop, or_comm]
    | cons b rest ih =>
      rw [List.eraseRepsBy.loop]
      split
      · rename_i heq
        rw [ih, beq_iff_eq.mp heq, List.mem_cons]
        tauto
      · rw [ih, List.mem_cons, List.mem_cons]
        tauto
  cases names with
  | nil => rfl
  | cons a rest =>
    rw [List.mem_cons]
    simpa [List.eraseReps, List.eraseRepsBy] using loop a rest []

/-- Sorted and without its repeats a list has the same names. -/
theorem mem_eraseReps_mergeSort {names : List String} :
    name ∈ (names.mergeSort fun a b => decide (a ≤ b)).eraseReps ↔ name ∈ names := by
  rw [mem_eraseReps, List.mem_mergeSort]

end SymbolicAlgebra
