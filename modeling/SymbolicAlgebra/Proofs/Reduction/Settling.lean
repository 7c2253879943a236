import SymbolicAlgebra.Canonical
import SymbolicAlgebra.Proofs.Expr.Order
import SymbolicAlgebra.Proofs.Reduction.Merge

/-!
# Runs of rounds

What a successful reduction went through: rounds of simplification, combination and simplification,
each starting where the one before ended, until a round ends with an expression that counts as equal
to the one it started with. Canonical forms are what such runs settle at, and their exclusions are those of
all stages of the run.
-/

namespace SymbolicAlgebra

namespace Reduction

variable {α : Type} [Scalar α]

/-- One round: the expression simplified, its like terms and factors combined, and that simplified
again. -/
structure Round (e first second third : Expr α) : Prop where
  simplified : (simplified e).Returns first
  merged : (merged first).Returns second
  again : (Reduction.simplified second).Returns third

/-- The stages of rounds from an expression on, and the expression they settle at. -/
inductive Settling : Expr α → List (Expr α) → Expr α → Prop
  | last {e first second third : Expr α} (round : Round e first second third) :
    (third == e) = true → Settling e [first, second, third] third
  | next {e first second third last : Expr α} {stages : List (Expr α)}
    (round : Round e first second third) (rest : Settling third stages last) :
    Settling e (first :: second :: third :: stages) last

/-- A hereditary property that all products of such factors have is kept by a round. -/
theorem Hereditary.round {C : Coefficient α → Prop} {K : Expr α → Prop} (hK : Hereditary C K)
    (hproduct : ∀ {c n d}, C c → (∀ x ∈ n, K x) → (∀ x ∈ d, K x) → K (.product c n d))
    {e first second third : Expr α} (round : Round e first second third) (he : K e) :
    K first ∧ K second ∧ K third := by
  have hfirst := hK.closed.simplify_returns round.simplified he
  have hsecond := hK.merge hproduct first round.merged hfirst
  exact ⟨hfirst, hsecond, hK.closed.simplify_returns round.again hsecond⟩

/-- A hereditary property that all products of such factors have is one of all stages of a run. -/
theorem Hereditary.settling {C : Coefficient α → Prop} {K : Expr α → Prop} (hK : Hereditary C K)
    (hproduct : ∀ {c n d}, C c → (∀ x ∈ n, K x) → (∀ x ∈ d, K x) → K (.product c n d))
    {e last : Expr α} {stages : List (Expr α)} (h : Settling e stages last) (he : K e) :
    ∀ x ∈ stages, K x := by
  induction h with
  | last round _ =>
    obtain ⟨hfirst, hsecond, hthird⟩ := hK.round hproduct round he
    simpa using ⟨hfirst, hsecond, hthird⟩
  | next round _ ih =>
    obtain ⟨hfirst, hsecond, hthird⟩ := hK.round hproduct round he
    simpa using ⟨hfirst, hsecond, hthird, ih hthird⟩

/-- A reduction that does not fail returns its result. -/
theorem returns_of_attempt {β : Type} {x : Reducing β} {found : Traced β}
    (h : attempt x = .ok found) : x.Returns found.value := by
  rw [attempt] at h
  split at h
  · rename_i result hresult
    cases h
    exact ⟨_, hresult, rfl⟩
  · cases h

/-- What a sequence of fallible operations gives went through a result of the first. -/
theorem ok_of_bind {β γ : Type} {x : Except Failure β} {f : β → Except Failure γ} {c : γ}
    (h : (x >>= f) = .ok c) : ∃ b, x = .ok b ∧ f b = .ok c := by
  cases x with
  | error failure => cases h
  | ok b => exact ⟨b, rfl, h⟩

/-- A round that does not fail is one of simplification, combination and simplification. -/
theorem round_of_ok {limits : Limits} {e : Expr α} {found : Settled α}
    (h : round limits e = .ok found) :
    ∃ first second, Round e first second found.value ∧
      found.stages = [first, second, found.value] := by
  rw [round] at h
  obtain ⟨first, hfirst, h⟩ := ok_of_bind h
  obtain ⟨-, -, h⟩ := ok_of_bind h
  obtain ⟨second, hsecond, h⟩ := ok_of_bind h
  obtain ⟨-, -, h⟩ := ok_of_bind h
  obtain ⟨third, hthird, h⟩ := ok_of_bind h
  obtain ⟨-, -, h⟩ := ok_of_bind h
  cases h
  exact ⟨first.value, second.value, ⟨returns_of_attempt hfirst, returns_of_attempt hsecond,
    returns_of_attempt hthird⟩, rfl⟩

/-- Repeated rounds that do not fail settle. -/
theorem settling_of_rounds {limits : Limits} {count : Nat} {e : Expr α} {found : Settled α}
    (h : rounds limits count e = .ok found) : Settling e found.stages found.value := by
  induction count generalizing e found with
  | zero => cases h
  | succ count ih =>
    rw [rounds] at h
    obtain ⟨next, hnext, h⟩ := ok_of_bind h
    obtain ⟨first, second, hround, hstages⟩ := round_of_ok hnext
    split at h
    · rename_i hsame
      cases h
      rw [hstages]
      exact .last hround hsame
    · obtain ⟨last, hlast, h⟩ := ok_of_bind h
      cases h
      simp only [hstages]
      exact .next hround (ih hlast)

/-- A reduction that does not fail settles; its first stage is the expression itself. -/
theorem settling_of_settle {limits : Limits} {e : Expr α} {found : Settled α}
    (h : settle limits e = .ok found) :
    ∃ stages, found.stages = e :: stages ∧ Settling e stages found.value := by
  rw [settle] at h
  obtain ⟨-, -, h⟩ := ok_of_bind h
  obtain ⟨run, hrun, h⟩ := ok_of_bind h
  cases h
  exact ⟨run.stages, rfl, settling_of_rounds hrun⟩

/-- A canonical form is what its expression settles at. -/
theorem settling_of_canonicalForm {limits : Limits} {e e' : Expr α}
    (h : canonicalForm limits e = .ok e') : ∃ stages, Settling e stages e' := by
  rw [canonicalForm] at h
  obtain ⟨found, hfound, h⟩ := ok_of_bind h
  cases h
  obtain ⟨stages, -, hsettling⟩ := settling_of_settle hfound
  exact ⟨stages, hsettling⟩

/-- A round whose stages stay within the limits does not fail. -/
theorem Round.exists_ok {limits : Limits} {e first second third : Expr α}
    (h : Round e first second third) (hfirst : checkSize limits first = .ok ())
    (hsecond : checkSize limits second = .ok ()) (hthird : checkSize limits third = .ok ()) :
    ∃ steps, round limits e = .ok ⟨third, [first, second, third], steps⟩ := by
  obtain ⟨⟨f, hf, rfl⟩, ⟨s, hs, rfl⟩, ⟨t, ht, rfl⟩⟩ := h
  refine ⟨f.steps ++ s.steps ++ t.steps, ?_⟩
  simp only [round, attempt, hf, hs, ht, bind, Except.bind, hfirst, hsecond, hthird]
  rfl

/-- Repeated rounds stop after one whose result counts as equal. -/
theorem Round.rounds_last {limits : Limits} {count : Nat} {e first second third : Expr α}
    (h : Round e first second third) (hsame : (third == e) = true)
    (hsize : ∀ x ∈ [first, second, third], checkSize limits x = .ok ()) (hcount : 0 < count) :
    ∃ steps, rounds limits count e = .ok ⟨third, [first, second, third], steps⟩ := by
  simp only [List.forall_mem_cons] at hsize
  obtain ⟨hfirst, hsecond, hthird, -⟩ := hsize
  obtain ⟨steps, hok⟩ := h.exists_ok hfirst hsecond hthird
  obtain ⟨count, rfl⟩ := Nat.exists_eq_add_one.mpr hcount
  refine ⟨steps, ?_⟩
  rw [rounds, hok]
  exact if_pos hsame

/-- Repeated rounds go on from the result of one that changes something. -/
theorem Round.rounds_next {limits : Limits} {count : Nat} {e first second third : Expr α}
    {rest : Settled α} (h : Round e first second third) (hchanged : (third == e) = false)
    (hsize : ∀ x ∈ [first, second, third], checkSize limits x = .ok ())
    (hrest : rounds limits count third = .ok rest) :
    ∃ steps, rounds limits (count + 1) e =
      .ok ⟨rest.value, first :: second :: third :: rest.stages, steps⟩ := by
  simp only [List.forall_mem_cons] at hsize
  obtain ⟨hfirst, hsecond, hthird, -⟩ := hsize
  obtain ⟨steps, hok⟩ := h.exists_ok hfirst hsecond hthird
  refine ⟨steps ++ rest.steps, ?_⟩
  rw [rounds, hok]
  refine (if_neg ?_).trans ?_
  · rw [hchanged]
    exact Bool.false_ne_true
  · change (rounds limits count third >>= _) = _
    rw [hrest]
    rfl

/-- An expression within the limits is reduced by repeated rounds. -/
theorem settle_of_rounds {limits : Limits} {e : Expr α} {found : Settled α}
    (hsize : checkSize limits e = .ok ()) (h : rounds limits limits.maxRounds e = .ok found) :
    settle limits e = .ok { found with stages := e :: found.stages } := by
  rw [settle, hsize]
  change (rounds limits limits.maxRounds e >>= _) = _
  rw [h]
  rfl

/-- What counts as equal to the result of a round settles at that at once. -/
theorem Round.settle_last {limits : Limits} {e first second third : Expr α}
    (h : Round e first second third) (hsame : (third == e) = true)
    (hsize : ∀ x ∈ [e, first, second, third], checkSize limits x = .ok ())
    (hrounds : 0 < limits.maxRounds) :
    ∃ steps, settle limits e = .ok ⟨third, [e, first, second, third], steps⟩ := by
  rw [List.forall_mem_cons] at hsize
  obtain ⟨steps, hrun⟩ := h.rounds_last hsame hsize.2 hrounds
  exact ⟨steps, settle_of_rounds hsize.1 hrun⟩

/-- What a round leaves as it is settles at once. -/
theorem Round.settle_self [Scalar.Lawful α] {limits : Limits} {e : Expr α} (h : Round e e e e)
    (hsize : checkSize limits e = .ok ()) (hrounds : 0 < limits.maxRounds) :
    ∃ steps, settle limits e = .ok ⟨e, [e, e, e, e], steps⟩ :=
  h.settle_last (Expr.beq_iff.mpr (Expr.order_self e)) (by simpa using hsize) hrounds

/-- What a second round leaves as it is settles after the first. -/
theorem Round.settle_next [Scalar.Lawful α] {limits : Limits} {e first second third : Expr α}
    (h : Round e first second third) (hnext : Round third third third third)
    (hchanged : (third == e) = false)
    (hsize : ∀ x ∈ [e, first, second, third], checkSize limits x = .ok ())
    (hrounds : 1 < limits.maxRounds) :
    ∃ steps, settle limits e =
      .ok ⟨third, [e, first, second, third, third, third, third], steps⟩ := by
  rw [List.forall_mem_cons] at hsize
  have hthird : ∀ x ∈ [third, third, third], checkSize limits x = .ok () := by
    simpa using hsize.2 third (by simp)
  have hsame : (third == third) = true := Expr.beq_iff.mpr (Expr.order_self third)
  obtain ⟨count, hcount⟩ := Nat.exists_eq_add_of_lt hrounds
  obtain ⟨steps', hlast⟩ := hnext.rounds_last hsame hthird (Nat.lt_add_right count Nat.one_pos)
  obtain ⟨steps, hrun⟩ := h.rounds_next hchanged hsize.2 hlast
  rw [← hcount] at hrun
  exact ⟨steps, settle_of_rounds hsize.1 hrun⟩

/-- What is settled at comes out of a last simplification. -/
theorem Settling.simplified {e last : Expr α} {stages : List (Expr α)}
    (h : Settling e stages last) : ∃ second, (Reduction.simplified second).Returns last := by
  induction h with
  | last round => exact ⟨_, round.again⟩
  | next _ _ ih => exact ih

/-- What a run settles at is one of its stages. -/
theorem Settling.last_mem {e last : Expr α} {stages : List (Expr α)}
    (h : Settling e stages last) : last ∈ stages := by
  induction h with
  | last round _ => simp
  | next round _ ih => simp [ih]

end Reduction

/-- Canonical forms are what their expressions settle at, and their exclusions come from all stages. -/
theorem Expr.settle_of_canonicalize {α : Type} [Scalar α] {limits : Limits} {e : Expr α} {k : Canonical α}
    (h : e.canonicalize limits = .ok k) :
    ∃ found, Reduction.settle limits e = .ok found ∧ found.value = k.expr ∧
      (Expr.collectAll found.stages).tidy limits = .ok k.exclusions := by
  rw [Expr.canonicalize] at h
  obtain ⟨found, hfound, h⟩ := Reduction.ok_of_bind h
  obtain ⟨exclusions, hexclusions, h⟩ := Reduction.ok_of_bind h
  cases h
  exact ⟨found, hfound, rfl, hexclusions⟩

end SymbolicAlgebra
