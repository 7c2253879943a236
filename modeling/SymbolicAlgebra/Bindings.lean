import SymbolicAlgebra.Text.EditDistance

/-!
# Bindings

Values for variables, in the order in which the variables were first bound.
-/

namespace SymbolicAlgebra

/-- Variables with their values; no variable occurs twice. -/
structure Bindings (α : Type) where
  entries : List (String × α)

namespace Bindings

variable {α : Type}

/-- No variable has a value. -/
def empty : Bindings α := ⟨[]⟩

/-- Replaces the value of a variable among bindings, or adds it at their end. -/
def insertEntry (name : String) (value : α) : List (String × α) → List (String × α)
  | [] => [(name, value)]
  | (x, v) :: entries =>
    if x = name then (x, value) :: entries else (x, v) :: insertEntry name value entries

/-- Binds a variable to a value, in place of an earlier one. -/
def insert (name : String) (value : α) (b : Bindings α) : Bindings α :=
  ⟨insertEntry name value b.entries⟩

/-- Binds variables one after the other. -/
def ofList (entries : List (String × α)) : Bindings α :=
  entries.foldl (fun b (name, value) => b.insert name value) empty

/-- The value of a variable. -/
def get? (b : Bindings α) (name : String) : Option α := b.entries.lookup name

/-- The number of variables with a value. -/
def size (b : Bindings α) : Nat := b.entries.length

/-- The variables whose names differ from the given one in at most one character, sorted. -/
def similar (b : Bindings α) (name : String) : List String :=
  ((b.entries.map Prod.fst).filter fun x =>
    Text.editDistance x.toList name.toList < 2).mergeSort fun x y => decide (x ≤ y)

/-- A variable has the value that it was bound to last. -/
theorem get?_insert_self (b : Bindings α) (name : String) (value : α) :
    (b.insert name value).get? name = some value := by
  rcases b with ⟨entries⟩
  simp only [insert, get?]
  induction entries with
  | nil => simp [insertEntry]
  | cons entry entries ih =>
    obtain ⟨found, old⟩ := entry
    simp only [insertEntry]
    split
    · next h => simp [h]
    · next h =>
      have : (name == found) = false := by simpa using fun e => h e.symm
      simp [List.lookup_cons, this, ih]

/-- Binding a variable leaves the values of the others as they are. -/
theorem get?_insert_of_ne (b : Bindings α) {name other : String} (value : α) (h : other ≠ name) :
    (b.insert name value).get? other = b.get? other := by
  rcases b with ⟨entries⟩
  simp only [insert, get?]
  have differs : (other == name) = false := by simpa using h
  induction entries with
  | nil => simp [insertEntry, List.lookup_cons, differs]
  | cons entry entries ih =>
    obtain ⟨found, old⟩ := entry
    simp only [insertEntry]
    split
    · next same => simp [List.lookup_cons, same, differs]
    · simp only [List.lookup_cons, ih]

end Bindings

end SymbolicAlgebra
