import Mathlib
import SymbolicAlgebra.Expr.Traversal

/-!
# What holds at every node

A property of all nodes of an expression is one of its root and of all nodes below. The walk in
post order visits exactly these nodes.
-/

namespace SymbolicAlgebra.Expr

variable {α : Type}

/-- The property holds at every node. -/
def Everywhere (p : Expr α → Prop) (e : Expr α) : Prop := ∀ x ∈ e.postOrder, p x

mutual

/-- What is put before a node list comes before it as a whole. -/
theorem postOrderOnto_eq (rest : List (Expr α)) (e : Expr α) :
    postOrderOnto rest e = postOrderOnto [] e ++ rest := by
  cases e with
  | sum as =>
    rw [postOrderOnto, postOrderOnto, postOrderListOnto_eq (sum as :: rest),
      postOrderListOnto_eq [sum as], List.append_assoc, List.singleton_append]
  | product c n d =>
    rw [postOrderOnto, postOrderOnto, postOrderListOnto_eq _ n, postOrderListOnto_eq _ d,
      postOrderListOnto_eq (postOrderListOnto _ d) n, postOrderListOnto_eq [_] d]
    simp only [List.append_assoc, List.singleton_append]
  | power a b =>
    rw [postOrderOnto, postOrderOnto, postOrderOnto_eq _ a, postOrderOnto_eq _ b,
      postOrderOnto_eq (postOrderOnto _ b) a, postOrderOnto_eq [_] b]
    simp only [List.append_assoc, List.singleton_append]
  | log a b =>
    rw [postOrderOnto, postOrderOnto, postOrderOnto_eq _ a, postOrderOnto_eq _ b,
      postOrderOnto_eq (postOrderOnto _ b) a, postOrderOnto_eq [_] b]
    simp only [List.append_assoc, List.singleton_append]
  | trig f a =>
    rw [postOrderOnto, postOrderOnto, postOrderOnto_eq _ a, postOrderOnto_eq [_] a,
      List.append_assoc, List.singleton_append]
  | var x => rfl
  | number n => rfl

/-- What is put before a node list comes before it as a whole. -/
theorem postOrderListOnto_eq (rest es : List (Expr α)) :
    postOrderListOnto rest es = postOrderListOnto [] es ++ rest := by
  cases es with
  | nil => rfl
  | cons e es =>
    rw [postOrderListOnto, postOrderListOnto, postOrderOnto_eq _ e, postOrderListOnto_eq rest es,
      postOrderOnto_eq (postOrderListOnto [] es) e, List.append_assoc]

end

/-- The nodes of a list of expressions are those of its members. -/
theorem mem_postOrderListOnto {x : Expr α} {es : List (Expr α)} :
    x ∈ postOrderListOnto [] es ↔ ∃ e ∈ es, x ∈ e.postOrder := by
  induction es with
  | nil => simp [postOrderListOnto]
  | cons e es ih =>
    rw [postOrderListOnto, postOrderOnto_eq, List.mem_append, ih]
    simp [postOrder]

/-- A node is the root or a node of a child. -/
theorem mem_postOrder {x e : Expr α} :
    x ∈ e.postOrder ↔ x = e ∨ ∃ child ∈ e.children, x ∈ child.postOrder := by
  cases e with
  | sum as =>
    rw [postOrder, postOrderOnto, postOrderListOnto_eq, List.mem_append, mem_postOrderListOnto,
      List.mem_singleton, or_comm]
    rfl
  | product c n d =>
    rw [postOrder, postOrderOnto, postOrderListOnto_eq _ n, postOrderListOnto_eq _ d,
      List.mem_append, List.mem_append, mem_postOrderListOnto, mem_postOrderListOnto,
      List.mem_singleton]
    simp only [children, List.mem_append, or_and_right, exists_or]
    rw [← or_assoc]
    exact or_comm
  | power a b =>
    rw [postOrder, postOrderOnto, postOrderOnto_eq _ a, postOrderOnto_eq _ b]
    simp only [List.mem_append, children, List.mem_cons, List.not_mem_nil, or_false,
      exists_eq_or_imp, exists_eq_left, postOrder]
    rw [← or_assoc]
    exact or_comm
  | log a b =>
    rw [postOrder, postOrderOnto, postOrderOnto_eq _ a, postOrderOnto_eq _ b]
    simp only [List.mem_append, children, List.mem_cons, List.not_mem_nil, or_false,
      exists_eq_or_imp, exists_eq_left, postOrder]
    rw [← or_assoc]
    exact or_comm
  | trig f a =>
    rw [postOrder, postOrderOnto, postOrderOnto_eq _ a]
    simp only [List.mem_append, List.mem_singleton, children, exists_eq_left, postOrder]
    exact or_comm
  | var x => simp [postOrder, postOrderOnto, children]
  | number n => simp [postOrder, postOrderOnto, children]

/-- A property of all nodes is one of the root and of all nodes below it. -/
theorem everywhere_iff {p : Expr α → Prop} {e : Expr α} :
    Everywhere p e ↔ p e ∧ ∀ child ∈ e.children, Everywhere p child := by
  constructor
  · intro h
    exact ⟨h e (mem_postOrder.mpr (.inl rfl)),
      fun child hchild x hx => h x (mem_postOrder.mpr (.inr ⟨child, hchild, hx⟩))⟩
  · rintro ⟨root, below⟩ x hx
    obtain rfl | ⟨child, hchild, hx⟩ := mem_postOrder.mp hx
    · exact root
    · exact below child hchild x hx

/-- What holds at a node without children holds everywhere in it. -/
theorem everywhere_of_leaf {p : Expr α → Prop} {e : Expr α} (hleaf : e.children = []) (he : p e) :
    Everywhere p e := by
  rw [everywhere_iff, hleaf]
  exact ⟨he, List.forall_mem_nil _⟩

/-- All nodes of a sum have a property that sums have if those of its addends do. -/
theorem everywhere_sum {p : Expr α → Prop} {as : List (Expr α)} (h : p (sum as)) :
    Everywhere p (sum as) ↔ ∀ a ∈ as, Everywhere p a := by
  rw [everywhere_iff]
  exact and_iff_right h

/-- All nodes of a power have a property that powers have if those of its base and its exponent do. -/
theorem everywhere_power {p : Expr α → Prop} {base exponent : Expr α} (h : p (power base exponent)) :
    Everywhere p (power base exponent) ↔ Everywhere p base ∧ Everywhere p exponent := by
  rw [everywhere_iff, children, List.forall_mem_cons, List.forall_mem_singleton]
  exact and_iff_right h

/-- All nodes of a logarithm have a property that logarithms have if those of its base and its body do. -/
theorem everywhere_log {p : Expr α → Prop} {base body : Expr α} (h : p (log base body)) :
    Everywhere p (log base body) ↔ Everywhere p base ∧ Everywhere p body := by
  rw [everywhere_iff, children, List.forall_mem_cons, List.forall_mem_singleton]
  exact and_iff_right h

/-- All nodes of a function have a property that functions have if those of its body do. -/
theorem everywhere_trig {p : Expr α → Prop} {f : Trig} {body : Expr α} (h : p (trig f body)) :
    Everywhere p (trig f body) ↔ Everywhere p body := by
  rw [everywhere_iff, children, List.forall_mem_singleton]
  exact and_iff_right h

/-- The root has every property that all nodes have. -/
theorem Everywhere.root {p : Expr α → Prop} {e : Expr α} (h : Everywhere p e) : p e := by
  rw [everywhere_iff] at h
  exact h.1

/-- A child's nodes have every property that all nodes have. -/
theorem Everywhere.child {p : Expr α → Prop} {e child : Expr α} (h : Everywhere p e)
    (hchild : child ∈ e.children) : Everywhere p child := by
  rw [everywhere_iff] at h
  exact h.2 child hchild

/-- A child has fewer nodes. -/
theorem size_lt_of_mem_children {e child : Expr α} (h : child ∈ e.children) :
    child.size < e.size := by
  have hlist : ∀ es : List (Expr α), child ∈ es → child.size ≤ sizeList es := by
    intro es hes
    induction es with
    | nil => cases hes
    | cons x es ih =>
      rw [sizeList]
      obtain rfl | hes := List.mem_cons.mp hes
      · omega
      · have := ih hes
        omega
  have := hlist e.children h
  rw [size_eq_sizeList_children e]
  omega

/-- There is a level at least. -/
theorem one_le_depth (e : Expr α) : 1 ≤ e.depth := by
  cases e with
  | var x => exact le_refl _
  | number v => exact le_refl _
  | _ => exact Nat.le_add_left _ _

/-- A child has fewer levels. -/
theorem depth_lt_of_mem_children {e child : Expr α} (h : child ∈ e.children) :
    child.depth < e.depth := by
  have hlist : ∀ es : List (Expr α), child ∈ es → child.depth ≤ depthList es := by
    intro es hes
    induction es with
    | nil => cases hes
    | cons x es ih =>
      rw [depthList]
      obtain rfl | hes := List.mem_cons.mp hes
      · exact le_max_left _ _
      · exact (ih hes).trans (le_max_right _ _)
  cases e with
  | sum as =>
    have := hlist as h
    rw [depth]
    omega
  | product c n d =>
    rw [depth]
    obtain h | h := List.mem_append.mp h
    · have := hlist n h
      omega
    · have := hlist d h
      omega
  | power a b =>
    rw [depth]
    obtain rfl | rfl : child = a ∨ child = b := by simpa [children] using h
    · omega
    · omega
  | log a b =>
    rw [depth]
    obtain rfl | rfl : child = a ∨ child = b := by simpa [children] using h
    · omega
    · omega
  | trig f a =>
    obtain rfl : child = a := by simpa [children] using h
    exact Nat.lt_succ_self _
  | var x => cases h
  | number v => cases h

mutual

/-- An expression has no more levels than nodes. -/
theorem depth_le_size (e : Expr α) : e.depth ≤ e.size := by
  cases e with
  | sum as =>
    have := depthList_le_sizeList as
    rw [depth, size]
    omega
  | product c n d =>
    have hn := depthList_le_sizeList n
    have hd := depthList_le_sizeList d
    rw [depth, size]
    omega
  | power a b =>
    have ha := depth_le_size a
    have hb := depth_le_size b
    rw [depth, size]
    omega
  | log a b =>
    have ha := depth_le_size a
    have hb := depth_le_size b
    rw [depth, size]
    omega
  | trig f a =>
    have ha := depth_le_size a
    rw [depth, size]
    omega
  | var x => exact le_refl _
  | number v => exact le_refl _

/-- The expressions of a list have no more levels than nodes. -/
theorem depthList_le_sizeList (es : List (Expr α)) : depthList es ≤ sizeList es := by
  cases es with
  | nil => exact le_refl _
  | cons e es =>
    have he := depth_le_size e
    have hes := depthList_le_sizeList es
    rw [depthList, sizeList]
    omega

end

/-- What holds everywhere holds everywhere below each node. -/
theorem Everywhere.node {p : Expr α → Prop} {e x : Expr α} (h : Everywhere p e)
    (hx : x ∈ e.postOrder) : Everywhere p x := by
  obtain rfl | ⟨child, hchild, hx⟩ := mem_postOrder.mp hx
  · exact h
  · exact Everywhere.node (h.child hchild) hx
termination_by e.size
decreasing_by exact size_lt_of_mem_children hchild

/-- What every child inherits holds at every node. -/
theorem everywhere_of_children {p : Expr α → Prop} (hp : ∀ e, p e → ∀ child ∈ e.children, p child)
    (e : Expr α) (he : p e) : Everywhere p e :=
  everywhere_iff.mpr ⟨he, fun child hchild => everywhere_of_children hp child (hp e he child hchild)⟩
termination_by e.size
decreasing_by exact size_lt_of_mem_children hchild

/-- What does not hold everywhere fails at a node where it holds everywhere below. -/
theorem exists_lowest {p : Expr α → Prop} (e : Expr α) (h : ¬ Everywhere p e) :
    ∃ x ∈ e.postOrder, ¬ p x ∧ ∀ child ∈ x.children, Everywhere p child := by
  by_cases hbelow : ∀ child ∈ e.children, Everywhere p child
  · refine ⟨e, mem_postOrder.mpr (.inl rfl), fun he => h ?_, hbelow⟩
    exact everywhere_iff.mpr ⟨he, hbelow⟩
  · simp only [Classical.not_forall] at hbelow
    obtain ⟨child, hchild, hfails⟩ := hbelow
    obtain ⟨x, hx, hlowest⟩ := exists_lowest child hfails
    exact ⟨x, mem_postOrder.mpr (.inr ⟨child, hchild, hx⟩), hlowest⟩
termination_by e.size
decreasing_by exact size_lt_of_mem_children hchild

end SymbolicAlgebra.Expr
