import SymbolicAlgebra.Expr.Reader

/-!
# The depth limit of reading

A limit on the depth of expressions is only looked at to refuse one. So reading under a limit comes to what
reading under a larger one does, or it fails since an expression is too deep.
-/

namespace SymbolicAlgebra.Expr

variable {α : Type} [Scalar α] {limits limits' : Limits}

/-- The first computation comes to what the second one does, or it fails at the depth limit. -/
def UpToDepth {β : Type} (limits : Limits) (x y : Except Failure β) : Prop :=
  x = y ∨ ∃ span, x = .error (.located span (.tooDeep limits.maxDepth))

/-- What the first computation answers the second one answers as well. -/
theorem UpToDepth.ok_of_ok {β : Type} {limits : Limits} {x y : Except Failure β}
    (h : UpToDepth limits x y) {b : β} (hb : x = .ok b) : y = .ok b := by
  obtain rfl | ⟨span, rfl⟩ := h
  · exact hb
  · cases hb

/-- Computations in sequence fail at the depth limit or come to the same if each of them does. -/
theorem UpToDepth.bind {β γ : Type} {limits : Limits} {x y : Except Failure β}
    {f g : β → Except Failure γ} (h : UpToDepth limits x y) (hfg : ∀ b, UpToDepth limits (f b) (g b)) :
    UpToDepth limits (x >>= f) (y >>= g) := by
  obtain rfl | ⟨span, rfl⟩ := h
  · cases x with
    | error failure => exact .inl rfl
    | ok b => exact hfg b
  · exact .inr ⟨span, rfl⟩

omit [Scalar α] in
/-- An expression that a larger limit allows is allowed or too deep. -/
theorem upToDepth_checkDepth (h : limits.maxDepth ≤ limits'.maxDepth) (tree : ParseTree)
    (r : Reading α) : UpToDepth limits
    (Reading.checkDepth limits tree r) (Reading.checkDepth limits' tree r) := by
  cases r with
  | bare _ => exact .inl rfl
  | chain _ => exact .inl rfl
  | expr value depth =>
    rw [Reading.checkDepth, Reading.checkDepth]
    by_cases hdeep : limits.maxDepth < depth
    · exact .inr ⟨tree.span, if_pos hdeep⟩
    · rw [if_neg hdeep, if_neg fun hdeeper => hdeep (Nat.lt_of_le_of_lt h hdeeper)]
      exact .inl rfl

mutual

/-- A tree means what it does under a larger limit or is too deep. -/
theorem upToDepth_reading (h : limits.maxDepth ≤ limits'.maxDepth) : ∀ tree : ParseTree,
    UpToDepth limits (Reading.ofTree limits tree : Except Failure (Reading α))
      (Reading.ofTree limits' tree)
  | .leaf token => by
    rw [Reading.ofTree, Reading.ofTree]
    exact .inl rfl
  | .node name span children => by
    rw [Reading.ofTree, Reading.ofTree]
    refine .bind (upToDepth_readings h children) fun parts => ?_
    exact .bind (.inl rfl) fun r => upToDepth_checkDepth h _ r

/-- Trees mean what they do under a larger limit or one of them is too deep. -/
theorem upToDepth_readings (h : limits.maxDepth ≤ limits'.maxDepth) : ∀ trees : List ParseTree,
    UpToDepth limits (Reading.ofTrees limits trees : Except Failure (List (Reading α)))
      (Reading.ofTrees limits' trees)
  | [] => by
    rw [Reading.ofTrees, Reading.ofTrees]
    exact .inl rfl
  | tree :: trees => by
    rw [Reading.ofTrees, Reading.ofTrees]
    refine .bind (upToDepth_reading h tree) fun r => ?_
    exact .bind (upToDepth_readings h trees) fun rs => .inl rfl

end

/-- A tree stands for what it does under a larger limit or is too deep. -/
theorem upToDepth_ofTree (h : limits.maxDepth ≤ limits'.maxDepth) (tree : ParseTree) : UpToDepth limits
    (ofTree limits tree : Except Failure (Expr α)) (ofTree limits' tree) := by
  rw [ofTree, ofTree]
  exact .bind (upToDepth_reading h tree) fun r => .inl rfl

/-- A source is read as it is under a larger limit or is too deep. -/
theorem upToDepth_read (h : limits.maxDepth ≤ limits'.maxDepth) (table : Table) (source : String) :
    UpToDepth limits (read table limits source : Except Failure (Expr α)) (read table limits' source) := by
  rw [read, read]
  exact .bind (.inl rfl) fun tree => upToDepth_ofTree h tree

end SymbolicAlgebra.Expr
