/-!
# Steps

The steps that simplification takes, and results that come with the steps that led to them in the
order in which they were taken.
-/

namespace SymbolicAlgebra

/-- A step, named for the rule that it follows. -/
inductive Step where
  /-- `a+(b+c) = a+b+c` -/
  | flattenSum
  /-- `a+0 = a` -/
  | addZero
  /-- Numbers are computed with. -/
  | foldConstant
  /-- `2*(a+b) = 2*a+2*b` -/
  | distributeCoefficient
  /-- `2*a+3*a = 5*a` -/
  | combineLikeTerms
  /-- `a*(b*c) = a*b*c` -/
  | flattenProduct
  /-- `a/(b/c) = a*c/b` -/
  | invertFraction
  /-- A number among the factors goes into the coefficient. -/
  | foldCoefficient
  /-- `0*a = 0` -/
  | multiplyZero
  /-- `a^3/a = a^2` -/
  | cancelFactors
  /-- `a*a = a^2` -/
  | combineLikeFactors
  /-- `a^0 = 1` -/
  | powerZero
  /-- `a^1 = a` -/
  | powerOne
  /-- `1^a = 1` -/
  | powerOfOne
  /-- `a^(log(a)_b) = b` -/
  | powerOfLogarithm
  /-- `(a^b)^2 = a^(2*b)` -/
  | powerOfPower
  /-- `(a*b)^2 = a^2*b^2` -/
  | powerOfProduct
  /-- `a^(-b) = 1/a^b` -/
  | relocatePower
  /-- `log(a)_a = 1` -/
  | logarithmOfBase
  /-- `log(a)_1 = 0` -/
  | logarithmOfOne
  /-- `log(a)_(a^b) = b` -/
  | logarithmOfPower
  /-- `sin(pi) = 0` -/
  | trigOfConstant
deriving DecidableEq, Repr

/-- A step in words. -/
def Step.text : Step → String
  | flattenSum => "flatten nested sums"
  | addZero => "remove zero terms"
  | foldConstant => "evaluate constant expression"
  | distributeCoefficient => "distribute coefficient over sum"
  | combineLikeTerms => "combine like terms"
  | flattenProduct => "flatten nested products"
  | invertFraction => "multiply by the reciprocal of a fraction"
  | foldCoefficient => "move number into coefficient"
  | multiplyZero => "multiply by zero"
  | cancelFactors => "cancel common factors"
  | combineLikeFactors => "combine like factors"
  | powerZero => "raise to the power of zero"
  | powerOne => "raise to the power of one"
  | powerOfOne => "raise one to a power"
  | powerOfLogarithm => "raise a base to a logarithm in that base"
  | powerOfPower => "multiply exponents of nested powers"
  | powerOfProduct => "distribute power over product"
  | relocatePower => "move negative power across the fraction line"
  | logarithmOfBase => "logarithm of its own base"
  | logarithmOfOne => "logarithm of one"
  | logarithmOfPower => "logarithm of a power of its base"
  | trigOfConstant => "evaluate trigonometric function at a known angle"

/-- A result with the steps that led to it. -/
structure Traced (β : Type) where
  value : β
  steps : List Step

namespace Traced

instance : Monad Traced where
  pure value := ⟨value, []⟩
  bind first next :=
    let second := next first.value
    ⟨second.value, first.steps ++ second.steps⟩

/-- Makes a note of a step. -/
def note (step : Step) : Traced Unit := ⟨(), [step]⟩

/-- Makes a note of a step if a condition holds. -/
def noteIf (condition : Bool) (step : Step) : Traced Unit :=
  ⟨(), if condition then [step] else []⟩

@[simp] theorem pure_value {β : Type} (b : β) : (pure b : Traced β).value = b := rfl
@[simp] theorem pure_steps {β : Type} (b : β) : (pure b : Traced β).steps = [] := rfl

@[simp] theorem bind_value {β γ : Type} (x : Traced β) (f : β → Traced γ) :
    (x >>= f).value = (f x.value).value := rfl

@[simp] theorem bind_steps {β γ : Type} (x : Traced β) (f : β → Traced γ) :
    (x >>= f).steps = x.steps ++ (f x.value).steps := rfl

end Traced

/-- A traced result, or none if the bound on nested steps was too small. -/
def Reducing (β : Type) := Option (Traced β)

namespace Reducing

/-- The bound on nested steps is reached. -/
def exhausted {β : Type} : Reducing β := none

/-- A traced result that no bound can stop. -/
def lift {β : Type} (x : Traced β) : Reducing β := some x

/-- The result, unless the bound was too small. -/
def result? {β : Type} (x : Reducing β) : Option (Traced β) := x

instance : Monad Reducing where
  pure value := lift (pure value)
  bind first next :=
    match first with
    | none => none
    | some first =>
      match next first.value with
      | none => none
      | some second => some ⟨second.value, first.steps ++ second.steps⟩

instance : MonadLift Traced Reducing where
  monadLift := lift

/-- Reduces every element of a list, from left to right. -/
def mapList {β γ : Type} (f : β → Reducing γ) : List β → Reducing (List γ)
  | [] => pure []
  | b :: bs => do
    let c ← f b
    let cs ← mapList f bs
    return c :: cs

end Reducing

end SymbolicAlgebra
