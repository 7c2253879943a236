import SymbolicAlgebra.Proofs.Reduction.Fraction
import SymbolicAlgebra.Proofs.Reduction.Outcomes
import SymbolicAlgebra.Proofs.Scalar.Units

/-!
# Operations with numbers

The rules compute with numbers in a few places only: coefficients are multiplied, divided, added and raised,
exponents are subtracted, and sums, powers and logarithms of literals are folded. Here is which operations
taking a factor into a product, finishing it and adding up like terms consist of, and what it means that an
operation keeps a property.
-/

namespace SymbolicAlgebra.Reduction

open SymbolicAlgebra.Expr Fraction

/-- An operation with numbers, on coefficients or on literals, or a rule that may fold literals. -/
inductive Operation (α : Type) where
  | multiply (a b : Coefficient α)
  | divide (a b : Coefficient α)
  | add (a b : Coefficient α)
  | raise (c : Coefficient α) (k : Int)
  | subtract (upper lower : α)
  | difference (upper lower : Expr α)
  | sum (addends : List (Expr α))
  | power (base exponent : Expr α)
  | log (base body : Expr α)

variable {α : Type} [Scalar α]

/-- What the rules divide by: a coefficient that is not zero, or a literal that is not. -/
def Divisor (b : Coefficient α) : Prop :=
  b.isZero = false ∨ ∃ v, Scalar.eq v Scalar.zero = false ∧ b = .ofScalar v

/-- A divisor is not zero. -/
theorem Divisor.isZero [Scalar.Unital α] {b : Coefficient α} (h : Divisor b) : b.isZero = false := by
  obtain h | ⟨v, hv, rfl⟩ := h
  · exact h
  · rw [Coefficient.ofScalar_eq]
    exact (Scalar.Lawful.eq_unsignZero v).trans hv

/-- The operation makes what has a property of what has it. A property that goes deep is also one of
exponents and of the arguments of functions. -/
def Operation.Keeps (deep : Prop) (C : Coefficient α → Prop) (K : Expr α → Prop) : Operation α → Prop
  | .multiply a b => C a → C b → C (a * b)
  | .divide a b => Divisor b → C a → C b → C (a / b)
  | .add a b => C a → C b → C (a + b)
  | .raise c k => ∀ exponent : Expr α, exponent.isNegative = false → wholeExponent? exponent = some k →
    Scalar.isFinite (c.zpow k).value = true → C c → C (c.zpow k)
  | .subtract u l => deep → K (.number (.real u)) → K (.number (.real l)) →
    K (.real (u - l)) ∧ K (.real (-(u - l)))
  | .difference u l => deep → K u → K l → K (sumRule [u, l.neg]).value
  | .sum es => (∀ e ∈ es, K e) → K (sumRule es).value
  | .power base exponent => ∀ found, plainPower? base exponent = some found → K base →
    (deep → K exponent) → K found.value
  | .log base body => deep → K base → K body → K (logRule base body).value

/-- The operation takes no logarithm of literals for a whole number that it is only close to. -/
def Operation.Unrounded : Operation α → Prop
  | .log base body => ∀ x y v, base.real? = some x → body.real? = some y → literalLog? x y = some v →
    v = Scalar.log y / Scalar.log x
  | _ => True

namespace Fraction

/-- The operation by which the coefficient is scaled. -/
def scaling (side : Side) (f : Fraction α) (c : Coefficient α) : Operation α :=
  match side with
  | .above => .multiply f.coefficient c
  | .below => .divide f.coefficient c

mutual

/-- The operations by which the numbers of a factor get into the coefficient. -/
def scalings (side : Side) (f : Fraction α) : Expr α → List (Operation α)
  | .number (.real v) =>
    if side = .below && Scalar.eq v Scalar.zero then [] else [f.scaling side (.ofScalar v)]
  | .product c n d =>
    if side = .below && c.isZero then []
    else f.scaling side c :: (scalingsAll side (f.scale side c) n ++
      scalingsAll side.flip (absorbAll side (f.scale side c) n).value d)
  | _ => []

/-- The operations by which the numbers of a list of factors get into the coefficient. -/
def scalingsAll (side : Side) (f : Fraction α) : List (Expr α) → List (Operation α)
  | [] => []
  | e :: es => scalings side f e ++ scalingsAll side (absorb side f e).value es

end

/-- The operations by which a coefficient is multiplied into a sum that is the only factor. -/
def distributions (f : Fraction α) : List (Operation α) :=
  match sort f.numerator, sort f.divisors with
  | [.sum addends], [] =>
    .sum (distribute f.coefficient addends) ::
      addends.map fun a => .multiply f.coefficient a.scaleParts.1
  | _, _ => []

/-- Scaling rounds no logarithm. -/
theorem unrounded_scaling (side : Side) (f : Fraction α) (c : Coefficient α) :
    (f.scaling side c).Unrounded := by
  cases side <;> trivial

mutual

/-- Taking a factor into a product rounds no logarithm. -/
theorem unrounded_scalings (side : Side) (f : Fraction α) (e : Expr α) :
    ∀ op ∈ scalings side f e, op.Unrounded := by
  cases e with
  | number v =>
    cases v with
    | real v =>
      rw [scalings]
      split
      · exact List.forall_mem_nil _
      · exact List.forall_mem_singleton.mpr (unrounded_scaling ..)
    | constant c => exact List.forall_mem_nil _
  | product c n d =>
    rw [scalings]
    split
    · exact List.forall_mem_nil _
    · rw [List.forall_mem_cons, List.forall_mem_append]
      exact ⟨unrounded_scaling .., unrounded_scalingsAll side _ n, unrounded_scalingsAll side.flip _ d⟩
  | _ => exact List.forall_mem_nil _

/-- Taking factors into a product rounds no logarithm. -/
theorem unrounded_scalingsAll (side : Side) (f : Fraction α) (es : List (Expr α)) :
    ∀ op ∈ scalingsAll side f es, op.Unrounded := by
  cases es with
  | nil => exact List.forall_mem_nil _
  | cons e es =>
    rw [scalingsAll, List.forall_mem_append]
    exact ⟨unrounded_scalings side f e, unrounded_scalingsAll side _ es⟩

end

/-- Multiplying a coefficient into a sum rounds no logarithm. -/
theorem unrounded_distributions (f : Fraction α) : ∀ op ∈ f.distributions, op.Unrounded := by
  rw [distributions]
  split
  · rw [List.forall_mem_cons, List.forall_mem_map]
    exact ⟨trivial, fun _ _ => trivial⟩
  · exact List.forall_mem_nil _

/-- Nothing is multiplied into a single factor that is no sum. -/
theorem distributions_single {c : Coefficient α} {e : Expr α} (hsum : e.isSum = false) :
    distributions { coefficient := c, numerator := [e] } = [] := by
  have hsort : sort [e] = [e] := List.mergeSort_singleton e
  simp only [distributions, hsort]
  cases e with
  | sum as => cases hsum
  | _ => rfl

end Fraction

/-- The additions by which a term gets to those before it. -/
def termAdditions (c : Coefficient α) (key : Expr α) :
    List (Coefficient α × Expr α) → List (Operation α)
  | [] => []
  | (c₀, key₀) :: terms => if key₀ == key then [.add c₀ c] else termAdditions c key terms

/-- The additions by which like terms are combined, after those that are combined already. -/
def additions (terms : List (Coefficient α × Expr α)) : List (Expr α) → List (Operation α)
  | [] => []
  | e :: es =>
    termAdditions e.scaleParts.1 e.scaleParts.2 terms ++
      additions (addTerm e.scaleParts.1 e.scaleParts.2 terms) es

end SymbolicAlgebra.Reduction
