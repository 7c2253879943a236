import SymbolicAlgebra.Expr.Value
import SymbolicAlgebra.Proofs.Names
import SymbolicAlgebra.Proofs.Reduction.Settling

/-!
# Variables and values

An expression has a value where all its variables have one, and only there, and the value depends on
these variables alone. The rules bring in no new variables.
-/

namespace SymbolicAlgebra.Expr

variable {α : Type}

/-- All variables are of a kind. -/
def VariablesIn (p : String → Prop) (e : Expr α) : Prop :=
  e.Everywhere fun
    | var x => p x
    | _ => True

variable {p : String → Prop}

/-- A product has the variables of its factors. -/
theorem variablesIn_product {c : Coefficient α} {n d : List (Expr α)} :
    (product c n d).VariablesIn p ↔
      (∀ e ∈ n, e.VariablesIn p) ∧ ∀ e ∈ d, e.VariablesIn p := by
  refine everywhere_iff.trans ?_
  rw [children, List.forall_mem_append]
  exact and_iff_right trivial

/-- The kind of the variables is hereditary. -/
theorem hereditary_variablesIn [Scalar α] :
    Reduction.Hereditary (fun _ => True) (VariablesIn p : Expr α → Prop) where
  arithmetic := Reduction.arithmetic_trivial
  real _ := everywhere_of_leaf rfl trivial
  sum := everywhere_sum trivial
  coefficient _ := trivial
  factors h := variablesIn_product.mp h
  product _ hn hd :=
    variablesIn_product.mpr ⟨fun e he => (hn e he).1, fun e he => (hd e he).1⟩
  rescale _ h := variablesIn_product.mpr (variablesIn_product.mp h)
  power := everywhere_power trivial
  log := everywhere_log trivial
  trig := everywhere_trig trivial

variable [Scalar α]

/-- The stages of a run have no new variables. -/
theorem variablesIn_settling {e last : Expr α} {stages : List (Expr α)}
    (h : Reduction.Settling e stages last) (he : e.VariablesIn p) :
    ∀ x ∈ stages, x.VariablesIn p :=
  hereditary_variablesIn.settling (fun _ hn hd => variablesIn_product.mpr ⟨hn, hd⟩) h he

/-- The values of a list are those of its members. -/
theorem values_eq_ok {b : Bindings α} {es : List (Expr α)} {vs : List α} :
    values b es = .ok vs ↔ List.Forall₂ (fun e v => value b e = .ok v) es vs := by
  induction es generalizing vs with
  | nil =>
    rw [values, List.forall₂_nil_left_iff]
    exact ⟨fun h => by cases h; rfl, fun h => by rw [h]⟩
  | cons e es ih =>
    rw [values]
    constructor
    · intro h
      obtain ⟨v, hv, h⟩ := Reduction.ok_of_bind h
      obtain ⟨rest, hrest, h⟩ := Reduction.ok_of_bind h
      cases h
      exact .cons hv (ih.mp hrest)
    · rintro (_ | ⟨hv, hrest⟩)
      rw [hv, ih.mpr hrest]
      rfl

/-- Expressions of a list that all have values have a list of values. -/
theorem exists_values {b : Bindings α} {es : List (Expr α)}
    (h : ∀ e ∈ es, ∃ v, value b e = .ok v) : ∃ vs, values b es = .ok vs := by
  induction es with
  | nil => exact ⟨[], rfl⟩
  | cons e es ih =>
    rw [List.forall_mem_cons] at h
    obtain ⟨⟨v, hv⟩, hes⟩ := h
    obtain ⟨vs, hvs⟩ := ih hes
    exact ⟨v :: vs, values_eq_ok.mpr (.cons hv (values_eq_ok.mp hvs))⟩

/-- An expression has a value where all its variables have one. -/
theorem exists_value {b : Bindings α} (e : Expr α)
    (h : e.VariablesIn fun x => (b.get? x).isSome) : ∃ v, value b e = .ok v := by
  have ih (child : Expr α) (hchild : child ∈ e.children) : ∃ v, value b child = .ok v :=
    exists_value child (h.child hchild)
  cases e with
  | sum as =>
    rw [children] at ih
    obtain ⟨vs, hvs⟩ := exists_values ih
    exact ⟨_, by rw [value, hvs]; rfl⟩
  | product c n d =>
    rw [children, List.forall_mem_append] at ih
    obtain ⟨vs, hvs⟩ := exists_values ih.1
    obtain ⟨ws, hws⟩ := exists_values ih.2
    exact ⟨_, by rw [value, hvs, hws]; rfl⟩
  | power a x =>
    obtain ⟨v, hv⟩ := ih a (by simp [children])
    obtain ⟨w, hw⟩ := ih x (by simp [children])
    exact ⟨_, by rw [value, hv, hw]; rfl⟩
  | log a x =>
    obtain ⟨v, hv⟩ := ih a (by simp [children])
    obtain ⟨w, hw⟩ := ih x (by simp [children])
    exact ⟨_, by rw [value, hv, hw]; rfl⟩
  | trig f a =>
    obtain ⟨v, hv⟩ := ih a (by simp [children])
    exact ⟨_, by rw [value, hv]; rfl⟩
  | var x =>
    obtain ⟨v, hv⟩ := Option.isSome_iff_exists.mp h.root
    exact ⟨v, by rw [value, hv]⟩
  | number n => exact ⟨n.value, rfl⟩
termination_by e.size
decreasing_by exact size_lt_of_mem_children hchild

/-- Where an expression has a value its children have values too. -/
theorem exists_value_of_mem_children {b : Bindings α} {e child : Expr α}
    (h : ∃ v, value b e = .ok v) (hchild : child ∈ e.children) : ∃ w, value b child = .ok w := by
  have hlist {es : List (Expr α)} {vs : List α} (hvs : values b es = .ok vs) :
      ∀ x ∈ es, ∃ w, value b x = .ok w :=
    Reduction.forall_of_forall₂ (values_eq_ok.mp hvs).flip fun w _ _ hw => ⟨w, hw⟩
  obtain ⟨v, h⟩ := h
  cases e with
  | sum as =>
    rw [value] at h
    obtain ⟨vs, hvs, -⟩ := Reduction.ok_of_bind h
    exact hlist hvs child hchild
  | product c n d =>
    rw [value] at h
    obtain ⟨vs, hvs, h⟩ := Reduction.ok_of_bind h
    obtain ⟨ws, hws, -⟩ := Reduction.ok_of_bind h
    obtain hmem | hmem := List.mem_append.mp hchild
    · exact hlist hvs child hmem
    · exact hlist hws child hmem
  | power a x =>
    rw [value] at h
    obtain ⟨v, hv, h⟩ := Reduction.ok_of_bind h
    obtain ⟨w, hw, -⟩ := Reduction.ok_of_bind h
    obtain rfl | rfl : child = a ∨ child = x := by simpa [children] using hchild
    · exact ⟨v, hv⟩
    · exact ⟨w, hw⟩
  | log a x =>
    rw [value] at h
    obtain ⟨v, hv, h⟩ := Reduction.ok_of_bind h
    obtain ⟨w, hw, -⟩ := Reduction.ok_of_bind h
    obtain rfl | rfl : child = a ∨ child = x := by simpa [children] using hchild
    · exact ⟨v, hv⟩
    · exact ⟨w, hw⟩
  | trig f a =>
    rw [value] at h
    obtain ⟨v, hv, -⟩ := Reduction.ok_of_bind h
    obtain rfl : child = a := by simpa [children] using hchild
    exact ⟨v, hv⟩
  | var x => cases hchild
  | number n => cases hchild

/-- Where an expression has a value all its variables have one. -/
theorem variablesIn_of_value {b : Bindings α} {e : Expr α} {v : α} (h : value b e = .ok v) :
    e.VariablesIn fun x => (b.get? x).isSome := by
  have heverywhere := everywhere_of_children (p := fun x => ∃ w, value b x = .ok w)
    (fun _ he _ => exists_value_of_mem_children he) e ⟨v, h⟩
  intro x hx
  cases x with
  | var name =>
    obtain ⟨w, hw⟩ := heverywhere _ hx
    rw [value] at hw
    change (b.get? name).isSome = true
    cases hb : b.get? name with
    | some w => rfl
    | none =>
      rw [hb] at hw
      cases hw
  | _ => trivial

/-- The value depends only on the values of the variables in the expression. -/
theorem value_eq_of_variablesIn {b b' : Bindings α} (e : Expr α)
    (h : e.VariablesIn fun x => ∃ v, b.get? x = some v ∧ b'.get? x = some v) :
    value b e = value b' e := by
  have ih (child : Expr α) (hchild : child ∈ e.children) : value b child = value b' child :=
    value_eq_of_variablesIn child (h.child hchild)
  have hlist {es : List (Expr α)} (hes : ∀ child ∈ es, value b child = value b' child) :
      values b es = values b' es := by
    induction es with
    | nil => rfl
    | cons x es ih =>
      rw [List.forall_mem_cons] at hes
      rw [values, values, hes.1, ih hes.2]
  cases e with
  | sum as =>
    rw [children] at ih
    rw [value, value, hlist ih]
  | product c n d =>
    rw [children, List.forall_mem_append] at ih
    rw [value, value, hlist ih.1, hlist ih.2]
  | power a x => rw [value, value, ih a (by simp [children]), ih x (by simp [children])]
  | log a x => rw [value, value, ih a (by simp [children]), ih x (by simp [children])]
  | trig f a => rw [value, value, ih a (by simp [children])]
  | var x =>
    obtain ⟨v, hv, hv'⟩ := h.root
    rw [value, value, hv, hv']
  | number n => rw [value, value]
termination_by e.size
decreasing_by exact size_lt_of_mem_children hchild

/-- Without variables the value is the same everywhere. -/
theorem value_eq_of_no_variables (b b' : Bindings α) (e : Expr α)
    (h : e.VariablesIn fun _ => False) : value b e = value b' e := by
  apply value_eq_of_variablesIn
  intro x hx
  cases x with
  | var name => exact (h _ hx).elim
  | _ => trivial

omit [Scalar α] in
/-- The names of the variables in an expression are those of its nodes that are variables. -/
theorem mem_variableNames {name : String} {e : Expr α} :
    name ∈ e.variableNames ↔ var name ∈ e.postOrder := by
  rw [variableNames, mem_eraseReps_mergeSort, List.mem_filterMap]
  constructor
  · rintro ⟨x, hx, h⟩
    cases x with
    | var found =>
      cases h
      exact hx
    | _ => cases h
  · exact fun h => ⟨_, h, rfl⟩

omit [Scalar α] in
/-- All variables of an expression are of a kind if all names in its list are. -/
theorem variablesIn_iff {e : Expr α} : e.VariablesIn p ↔ ∀ name ∈ e.variableNames, p name := by
  constructor
  · exact fun h name hname => h _ (mem_variableNames.mp hname)
  · intro h x hx
    cases x with
    | var name => exact h name (mem_variableNames.mpr hx)
    | _ => trivial

omit [Scalar α] in
/-- An expression without names of variables has no variables. -/
theorem no_variables_of_variableNames {e : Expr α} (h : e.variableNames.isEmpty = true) :
    e.VariablesIn fun _ => False :=
  variablesIn_iff.mpr fun name hname => by
    rw [List.isEmpty_iff.mp h] at hname
    cases hname

end SymbolicAlgebra.Expr
