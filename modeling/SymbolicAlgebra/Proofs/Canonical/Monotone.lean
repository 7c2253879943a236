import SymbolicAlgebra.Proofs.Canonical.Unlimited
import SymbolicAlgebra.Proofs.Expr.Depth
import SymbolicAlgebra.Proofs.Expr.Limit

/-!
# Larger limits

Limits are only looked at to refuse an expression or to give up. So what is answered under some limits is
answered under all larger ones too, with the same expression, exclusions and steps.
-/

namespace SymbolicAlgebra

/-- Whatever the first computation answers the second answers as well. -/
def AnswersKept {β : Type} (x y : Except Failure β) : Prop := ∀ b, x = .ok b → y = .ok b

namespace AnswersKept

variable {β γ : Type}

/-- A computation keeps its own answers. -/
theorem refl (x : Except Failure β) : AnswersKept x x := fun _ h => h

/-- A failure has no answers to be kept. -/
theorem error (f : Failure) (y : Except Failure β) : AnswersKept (.error f) y := nofun

/-- Answers are kept by sequences of computations that keep them. -/
theorem bind {x y : Except Failure β} {f g : β → Except Failure γ} (h : AnswersKept x y)
    (hfg : ∀ b, AnswersKept (f b) (g b)) : AnswersKept (x >>= f) (y >>= g) := by
  intro c hc
  obtain ⟨b, hb, hc⟩ := Reduction.ok_of_bind hc
  rw [h b hb]
  exact hfg b c hc

/-- Answers are kept where a computation goes on if the other one does. -/
theorem ite_error {p q : Prop} [Decidable p] [Decidable q] {f g : Failure} {x y : Except Failure β}
    (hpq : q → p) (h : AnswersKept x y) :
    AnswersKept (if p then .error f else x) (if q then .error g else y) := by
  intro b hb
  split at hb
  · cases hb
  · rename_i hp
    rw [if_neg fun hq => hp (hpq hq)]
    exact h b hb

end AnswersKept

variable {α : Type} {limits limits' : Limits}

namespace Reduction

/-- An expression within limits is within larger ones. -/
theorem kept_checkSize (h : limits ≤ limits') (e : Expr α) :
    AnswersKept (checkSize limits e) (checkSize limits' e) := by
  obtain ⟨hnodes, hdepth, -⟩ := h
  refine .ite_error (fun hlarge => lt_of_le_of_lt hnodes hlarge) ?_
  exact .ite_error (fun hdeep => lt_of_le_of_lt hdepth hdeep) (.refl _)

variable [Scalar α]

/-- A round within limits is one within larger ones. -/
theorem kept_round (h : limits ≤ limits') (e : Expr α) :
    AnswersKept (round limits e) (round limits' e) := by
  refine .bind (.refl _) fun first => .bind (kept_checkSize h first.value) fun _ => ?_
  refine .bind (.refl _) fun second => .bind (kept_checkSize h second.value) fun _ => ?_
  exact .bind (.refl _) fun third => .bind (kept_checkSize h third.value) fun _ => .refl _

/-- Rounds that settle do so within larger limits and with more rounds left. -/
theorem kept_rounds (h : limits ≤ limits') {count count' : Nat} (hcount : count ≤ count') (e : Expr α) :
    AnswersKept (rounds limits count e) (rounds limits' count' e) := by
  induction count generalizing count' e with
  | zero => exact .error _ _
  | succ count ih =>
    obtain ⟨count', rfl⟩ := Nat.exists_eq_add_of_le' (Nat.lt_of_lt_of_le (Nat.succ_pos count) hcount)
    rw [rounds, rounds]
    refine .bind (kept_round h e) fun next => ?_
    split
    · exact .refl _
    · exact .bind (ih (Nat.le_of_succ_le_succ hcount) next.value) fun last => .refl _

/-- What settles within limits settles within larger ones. -/
theorem kept_settle (h : limits ≤ limits') (e : Expr α) :
    AnswersKept (settle limits e) (settle limits' e) :=
  .bind (kept_checkSize h e) fun _ => .bind (kept_rounds h h.2.2 e) fun _ => .refl _

/-- A canonical form within limits is one within larger ones. -/
theorem kept_canonicalForm (h : limits ≤ limits') (e : Expr α) :
    AnswersKept (canonicalForm limits e) (canonicalForm limits' e) :=
  .bind (kept_settle h e) fun _ => .refl _

end Reduction

namespace Exclusions

variable [Scalar α]

/-- A clause is tidied in the same way within larger limits. -/
theorem kept_tidyClause (h : limits ≤ limits') (c : Clause α) :
    AnswersKept (c.tidy limits) (c.tidy limits') :=
  .bind (Reduction.kept_canonicalForm h c.operand) fun _ => .refl _

/-- The same clauses of a group are left within larger limits. -/
theorem kept_tidyGroup (h : limits ≤ limits') (group : List (Clause α)) :
    AnswersKept (tidyGroup limits group) (tidyGroup limits' group) := by
  induction group with
  | nil => exact .refl _
  | cons c group ih =>
    rw [tidyGroup, tidyGroup]
    refine .bind (kept_tidyClause h c) fun c' => ?_
    split
    · exact .refl _
    · exact ih
    · exact .bind ih fun _ => .refl _

/-- The same groups are left within larger limits. -/
theorem kept_tidyGroups (h : limits ≤ limits') (groups : List (List (Clause α))) :
    AnswersKept (tidyGroups limits groups) (tidyGroups limits' groups) := by
  induction groups with
  | nil => exact .refl _
  | cons group groups ih =>
    exact .bind (kept_tidyGroup h group) fun _ => .bind ih fun _ => .refl _

/-- Exclusions are tidied in the same way within larger limits. -/
theorem kept_tidy (h : limits ≤ limits') (x : Exclusions α) :
    AnswersKept (x.tidy limits) (x.tidy limits') :=
  .bind (kept_tidyGroups h x.groups) fun _ => .refl _

end Exclusions

namespace Expr

variable [Scalar α]

/-- A source is read in the same way within larger limits. -/
theorem kept_read (h : limits ≤ limits') (table : Table) (source : String) :
    AnswersKept (read table limits source : Except Failure (Expr α)) (read table limits' source) :=
  fun _ => (upToDepth_read h.2.1 table source).ok_of_ok

/-- A canonical form with its exclusions and steps is the same within larger limits. -/
theorem kept_canonicalize (h : limits ≤ limits') (e : Expr α) :
    AnswersKept (e.canonicalize limits) (e.canonicalize limits') :=
  .bind (Reduction.kept_settle h e) fun found =>
    .bind (Exclusions.kept_tidy h (collectAll found.stages)) fun _ => .refl _

/-- A derivative with its exclusions and steps is the same within larger limits. -/
theorem kept_differentiate (h : limits ≤ limits') (name : String) (e : Expr α) :
    AnswersKept (e.differentiate limits name) (e.differentiate limits' name) :=
  .bind (kept_canonicalize h e) fun canonical =>
    .bind (kept_canonicalize h (canonical.expr.derivative name)) fun _ => .refl _

/-- Limits decide between an answer and a failure, and never what the answer is: whatever is read,
canonicalized or differentiated under some limits is so under limits of which none is smaller, and the
expression, the exclusions and the steps are the same. -/
theorem answer_of_le_limits {limits limits' : Limits} (hnodes : limits.maxNodes ≤ limits'.maxNodes)
    (hdepth : limits.maxDepth ≤ limits'.maxDepth) (hrounds : limits.maxRounds ≤ limits'.maxRounds) :
    (∀ table source (e : Expr α), read table limits source = .ok e →
      read table limits' source = .ok e) ∧
    (∀ (e : Expr α) k, e.canonicalize limits = .ok k → e.canonicalize limits' = .ok k) ∧
    ∀ name (e : Expr α) s, e.differentiate limits name = .ok s →
      e.differentiate limits' name = .ok s := by
  have h : limits ≤ limits' := ⟨hnodes, hdepth, hrounds⟩
  exact ⟨kept_read h, kept_canonicalize h, kept_differentiate h⟩

/-- The opposite of a variable is read under a limit of two levels as it is under the default limits, and
a variable has the same canonical form and the same derivative under both. -/
theorem answer_of_le_limits_var :
    let limits : Limits := { maxDepth := 2 }
    ∃ table, Table.expression = .ok table ∧ ∃ e : Expr Float, ∃ k s,
      (read table limits "-x" = .ok e ∧ (var "x" : Expr Float).canonicalize limits = .ok k ∧
        (var "x" : Expr Float).differentiate limits "x" = .ok s) ∧
      read table {} "-x" = .ok e ∧ (var "x" : Expr Float).canonicalize {} = .ok k ∧
        (var "x" : Expr Float).differentiate {} "x" = .ok s := by
  intro limits
  obtain ⟨table, htable, ⟨e, hread, -⟩, -⟩ := exists_read_opposites
  have hleaf (x : Expr Float) (hround : Reduction.Round x x x x)
      (hsize : Reduction.checkSize limits x = .ok ())
      (hcollect : (collectAll [x, x, x, x]).tidy limits = .ok .empty) :
      ∃ k, x.canonicalize limits = .ok k ∧ k.expr = x := by
    obtain ⟨steps, hsettle⟩ := hround.settle_self hsize (by decide)
    exact ⟨_, canonicalize_of_settle hsettle hcollect, rfl⟩
  obtain ⟨k, hk, hexpr⟩ := hleaf (var "x") ⟨⟨_, rfl, rfl⟩, ⟨_, rfl, rfl⟩, ⟨_, rfl, rfl⟩⟩ rfl rfl
  obtain ⟨s, hs, -⟩ := hleaf one ⟨⟨_, rfl, rfl⟩, ⟨_, rfl, rfl⟩, ⟨_, rfl, rfl⟩⟩ rfl rfl
  have hslope : (var "x" : Expr Float).derivative "x" = one := by
    rw [derivative, if_pos (by simp [dependsOn, postOrder, postOrderOnto, isVar]), if_pos rfl]
  have hdifferentiate : (var "x" : Expr Float).differentiate limits "x" =
      .ok ⟨s.expr, k.exclusions.extend s.exclusions, k.steps ++ s.steps⟩ := by
    rw [differentiate, hk]
    change (k.expr.derivative "x").canonicalize limits >>= _ = _
    rw [hexpr, hslope, hs]
    rfl
  have answer := @answer_of_le_limits Float _ limits {} (by decide) (by decide) (by decide)
  exact ⟨table, htable, e, k, _, ⟨hread, hk, hdifferentiate⟩, answer.1 _ _ _ hread,
    answer.2.1 _ _ hk, answer.2.2 _ _ _ hdifferentiate⟩

end Expr

end SymbolicAlgebra
