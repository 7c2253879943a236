import SymbolicAlgebra.Proofs.Reduction.Returns

/-!
# Fractions that are made on the way

One function only makes coefficients out of two numbers, and the second of them must not be zero.
Here are the rules again, each with a log of all numbers that this function is called with while the
rule is applied. Without the logs they are the rules themselves.
-/

namespace SymbolicAlgebra

/-- A bounded rewriting with the numerators and the denominators of all fractions that it makes. -/
def Logged (α β : Type) := Reducing (β × List (α × α))

namespace Logged

variable {α β γ : Type}

/-- What follows on a first stage, with the fractions of that noted before its own. -/
def follow (f : β → Logged α γ) (first : β × List (α × α)) : Reducing (γ × List (α × α)) := do
  let second ← f first.1
  return (second.1, first.2 ++ second.2)

instance : Monad (Logged α) where
  pure b := (pure (b, []) : Reducing _)
  bind x f := (x >>= follow f : Reducing _)

/-- A rewriting that makes no fractions. -/
def silent : Reducing β → Logged α β
  | none => none
  | some found => some ⟨(found.value, []), found.steps⟩

instance : MonadLift Reducing (Logged α) where
  monadLift := silent

/-- The rewriting without its log. -/
def erase : Logged α β → Reducing β
  | none => none
  | some found => some ⟨found.value.1, found.steps⟩

/-- The rewriting stays within its bound, gives the value and makes these fractions. -/
def Returns (x : Logged α β) (b : β) (made : List (α × α)) : Prop := Reducing.Returns x (b, made)

/-- Treats every element of a list, from left to right. -/
def mapList (f : β → Logged α γ) : List β → Logged α (List γ)
  | [] => pure []
  | b :: bs => do
    let c ← f b
    let cs ← mapList f bs
    return c :: cs

/-- Treats a value with every element of a list in turn. -/
def foldList (f : γ → β → Logged α γ) (c : γ) : List β → Logged α γ
  | [] => pure c
  | b :: bs => do foldList f (← f c b) bs

section Erasure

/-- Without its log a rewriting without a rule is one. -/
@[simp] theorem erase_pure (b : β) : (pure b : Logged α β).erase = pure b := rfl

/-- Two stages without their logs are two stages. -/
@[simp] theorem erase_bind (x : Logged α β) (f : β → Logged α γ) :
    (x >>= f).erase = x.erase >>= fun b => (f b).erase := by
  cases x with
  | none => rfl
  | some first =>
    cases hf : f first.value.1 with
    | none => simp only [bind, follow, erase, hf]; rfl
    | some second => simp only [bind, follow, erase, hf, pure, Reducing.lift, List.append_nil]; rfl

/-- Without its log a rewriting that makes no fractions is itself. -/
@[simp] theorem erase_silent (x : Reducing β) : (silent x : Logged α β).erase = x := by
  cases x <;> rfl

/-- Without its log a rewriting among logged ones is itself. -/
@[simp] theorem erase_liftM (x : Reducing β) : (liftM x : Logged α β).erase = x := erase_silent x

/-- Without its log a rule among logged rewritings is itself. -/
@[simp] theorem erase_liftM_traced (x : Traced β) : (liftM x : Logged α β).erase = liftM x := rfl

/-- The rewriting without its log returns what that with it returns, beside some log. -/
theorem returns_erase {x : Logged α β} {b : β} : x.erase.Returns b ↔ ∃ made, x.Returns b made := by
  cases x with
  | none => exact ⟨(fun ⟨_, h, _⟩ => nomatch h), (fun ⟨_, _, h, _⟩ => nomatch h)⟩
  | some found =>
    constructor
    · rintro ⟨_, ⟨⟩, rfl⟩
      exact ⟨found.value.2, found, rfl, rfl⟩
    · rintro ⟨made, found', hfound, hb⟩
      cases hfound
      exact ⟨_, rfl, congrArg Prod.fst hb⟩

/-- A rewriting without a rule makes no fraction. -/
theorem returns_pure {b c : β} {made : List (α × α)} :
    (pure b : Logged α β).Returns c made ↔ b = c ∧ made = [] :=
  Reducing.returns_pure.trans (by rw [Prod.mk.injEq, eq_comm (a := made)])

/-- Rewriting in two stages goes through a value that the first of them returns, and the log of the
second comes after that of the first. -/
theorem returns_bind {x : Logged α β} {f : β → Logged α γ} {c : γ} {made : List (α × α)} :
    (x >>= f).Returns c made ↔
      ∃ b first second, x.Returns b first ∧ (f b).Returns c second ∧ made = first ++ second := by
  constructor
  · intro h
    obtain ⟨⟨b, first⟩, hfirst, h⟩ := (Reducing.returns_bind (f := follow f)).mp h
    obtain ⟨⟨d, second⟩, hsecond, h⟩ := Reducing.returns_bind.mp h
    obtain ⟨rfl, rfl⟩ := Prod.mk.inj (Reducing.returns_pure.mp h)
    exact ⟨b, first, second, hfirst, hsecond, rfl⟩
  · rintro ⟨b, first, second, hfirst, hsecond, rfl⟩
    have hfollow : (follow f (b, first)).Returns (c, first ++ second) :=
      Reducing.returns_bind.mpr ⟨(c, second), hsecond, Reducing.returns_pure.mpr rfl⟩
    exact (Reducing.returns_bind (f := follow f)).mpr ⟨(b, first), hfirst, hfollow⟩

/-- What a value without a rule is treated with comes first. -/
theorem bind_of_pure (b : β) (f : β → Logged α γ) : (pure b : Logged α β) >>= f = f b := by
  cases h : f b with
  | none => simp only [bind, follow, pure, Reducing.lift, h]; rfl
  | some second =>
    simp only [bind, follow, pure, Reducing.lift, h, List.nil_append, List.append_nil]
    rfl

/-- Without their logs the elements of a list are rewritten one by one. -/
@[simp] theorem erase_mapList (f : β → Logged α γ) (bs : List β) :
    (mapList f bs).erase = Reducing.mapList (fun b => (f b).erase) bs := by
  induction bs with
  | nil => rfl
  | cons b bs ih => simp only [mapList, Reducing.mapList, erase_bind, erase_pure, ih]

end Erasure

section Ensures

variable {ok ok' : α × α → Prop} {p q : β → Prop} {r : γ → Prop}

/-- Whatever the rewriting returns has one property, and all fractions that it makes have
another. -/
def Ensures (ok : α × α → Prop) (p : β → Prop) (x : Logged α β) : Prop :=
  ∀ b made, x.Returns b made → p b ∧ ∀ parts ∈ made, ok parts

/-- A rewriting without a rule makes no fraction. -/
theorem ensures_pure {b : β} (h : p b) : (pure b : Logged α β).Ensures ok p := by
  intro c made hc
  obtain ⟨rfl, rfl⟩ := returns_pure.mp hc
  exact ⟨h, List.forall_mem_nil _⟩

/-- Rules that make no fraction are ensured to make none but such as have the property. -/
theorem ensures_silent {x : Reducing β} (h : ∀ b, x.Returns b → p b) :
    (silent x : Logged α β).Ensures ok p := by
  rintro b made ⟨found, hfound, hb⟩
  cases x with
  | none => cases hfound
  | some result =>
    cases hfound
    cases hb
    exact ⟨h _ ⟨result, rfl, rfl⟩, List.forall_mem_nil _⟩

/-- A rewriting whose bound is reached ensures everything. -/
theorem ensures_exhausted : (silent .exhausted : Logged α β).Ensures ok p :=
  ensures_silent fun _ h => (Reducing.not_returns_exhausted h).elim

/-- A rule that makes no fraction ensures what holds of its result. -/
theorem ensures_liftM {x : Traced β} (h : p x.value) : (liftM x : Logged α β).Ensures ok p :=
  ensures_silent fun _ hb => Reducing.returns_lift.mp hb ▸ h

/-- What two stages ensure, the second for all that the first returns, both together do. -/
theorem Ensures.bind {x : Logged α γ} {f : γ → Logged α β} (hx : x.Ensures ok r)
    (hf : ∀ c, r c → (f c).Ensures ok p) : (x >>= f).Ensures ok p := by
  intro b made h
  obtain ⟨c, first, second, hfirst, hsecond, rfl⟩ := returns_bind.mp h
  obtain ⟨hc, hmade⟩ := hx _ _ hfirst
  obtain ⟨hb, hmore⟩ := hf _ hc _ _ hsecond
  exact ⟨hb, List.forall_mem_append.mpr ⟨hmade, hmore⟩⟩

/-- A rule that makes no fraction may come first. -/
theorem Ensures.after {x : Traced γ} {f : γ → Logged α β} (h : (f x.value).Ensures ok p) :
    (liftM x >>= f : Logged α β).Ensures ok p :=
  (ensures_liftM (p := (· = x.value)) rfl).bind fun _ hc => hc ▸ h

/-- What the rewriting without its log returns has the property. -/
theorem Ensures.value {x : Logged α β} (h : x.Ensures ok p) {b : β} (hb : x.erase.Returns b) :
    p b := by
  obtain ⟨made, hmade⟩ := returns_erase.mp hb
  exact (h b made hmade).1

/-- What is ensured of the fractions has consequences that are. -/
theorem Ensures.imp {x : Logged α β} (h : x.Ensures ok p) (hok : ∀ parts, ok parts → ok' parts) :
    x.Ensures ok' p :=
  fun b made hmade =>
    ⟨(h b made hmade).1, fun parts hmem => hok parts ((h b made hmade).2 parts hmem)⟩

/-- A property of all that the rewriting without its log returns is one of what it returns with
it. -/
theorem Ensures.of_erase {x : Logged α β} (h : x.Ensures ok p) (hq : ∀ b, x.erase.Returns b → q b) :
    x.Ensures ok q :=
  fun b made hmade => ⟨hq b (returns_erase.mpr ⟨made, hmade⟩), (h b made hmade).2⟩

/-- How every element of a list and what it becomes are related is ensured for the list. -/
theorem ensures_forall₂ {f : γ → Logged α β} {cs : List γ} {r : γ → β → Prop}
    (h : ∀ c ∈ cs, (f c).Ensures ok (r c)) : (mapList f cs).Ensures ok (List.Forall₂ r cs) := by
  induction cs with
  | nil => exact ensures_pure .nil
  | cons c cs ih =>
    rw [List.forall_mem_cons] at h
    exact h.1.bind fun b hb => (ih h.2).bind fun bs hbs => ensures_pure (.cons hb hbs)

/-- What is ensured for every element of a list is ensured for the list. -/
theorem ensures_mapList {f : γ → Logged α β} {cs : List γ} (h : ∀ c ∈ cs, (f c).Ensures ok p) :
    (mapList f cs).Ensures ok fun bs => ∀ b ∈ bs, p b :=
  fun bs made hmade => (ensures_forall₂ h bs made hmade).imp_left fun hbs =>
    Reduction.forall_of_forall₂ hbs fun _ _ _ hb => hb

/-- What every element of a list keeps is ensured after all of them. -/
theorem ensures_foldList {f : β → γ → Logged α β} {cs : List γ} {b : β} (hb : p b)
    (h : ∀ c ∈ cs, ∀ b, p b → (f b c).Ensures ok p) : (foldList f b cs).Ensures ok p := by
  induction cs generalizing b with
  | nil => exact ensures_pure hb
  | cons c cs ih =>
    rw [List.forall_mem_cons] at h
    exact (h.1 b hb).bind fun b hb => ih hb h.2

end Ensures

variable [Scalar α]

/-! ## Arithmetic of coefficients -/

/-- Makes the fraction of two numbers, and a note of them. -/
def fraction (numer denom : α) : Logged α (Coefficient α) :=
  (pure (.ofFraction numer denom, [(numer, denom)]) : Reducing _)

/-- Only the fraction itself is made. -/
theorem ensures_fraction {ok : α × α → Prop} {numer denom : α} (h : ok (numer, denom)) :
    (fraction numer denom).Ensures ok (· = .ofFraction numer denom) := by
  intro c made hc
  cases Reducing.returns_pure.mp hc
  exact ⟨rfl, List.forall_mem_singleton.mpr h⟩

/-- A number as a coefficient. -/
def ofScalar (v : α) : Logged α (Coefficient α) := fraction v Scalar.one

/-- The sum of two coefficients. -/
def add (a b : Coefficient α) : Logged α (Coefficient α) :=
  fraction (a.numer * b.denom + b.numer * a.denom) (a.denom * b.denom)

/-- The product of two coefficients. -/
def mul (a b : Coefficient α) : Logged α (Coefficient α) :=
  fraction (a.numer * b.numer) (a.denom * b.denom)

/-- The quotient of two coefficients. -/
def div (a b : Coefficient α) : Logged α (Coefficient α) :=
  fraction (a.numer * b.denom) (a.denom * b.numer)

/-- The power of a coefficient to an integer. -/
def zpow (c : Coefficient α) : Int → Logged α (Coefficient α)
  | .ofNat n => fraction (Scalar.npow c.numer n) (Scalar.npow c.denom n)
  | .negSucc n => fraction (Scalar.npow c.denom (n + 1)) (Scalar.npow c.numer (n + 1))

/-- The coefficient of an expression and what it scales. -/
def scaleParts : Expr α → Logged α (Coefficient α × Expr α)
  | .number (.real v) => do return (← ofScalar v, .one)
  | e => pure e.scaleParts

/-- Making a coefficient of a number is that of the log without it. -/
@[simp] theorem erase_ofScalar (v : α) : (ofScalar v).erase = pure (.ofScalar v) := rfl

/-- Adding coefficients is that of the log without it. -/
@[simp] theorem erase_add (a b : Coefficient α) : (add a b).erase = pure (a + b) := rfl

/-- Multiplying coefficients is that of the log without it. -/
@[simp] theorem erase_mul (a b : Coefficient α) : (mul a b).erase = pure (a * b) := rfl

/-- Dividing coefficients is that of the log without it. -/
@[simp] theorem erase_div (a b : Coefficient α) : (div a b).erase = pure (a / b) := rfl

/-- Raising a coefficient is that of the log without it. -/
@[simp] theorem erase_zpow (c : Coefficient α) (k : Int) : (zpow c k).erase = pure (c.zpow k) := by
  cases k <;> rfl

/-- Taking an expression apart is that of the log without it. -/
@[simp] theorem erase_scaleParts (e : Expr α) : (scaleParts e).erase = pure e.scaleParts := by
  fun_cases scaleParts e <;> rfl

open Reduction (Side Fraction)

/-! ## Sums -/

/-- Adds a term to the first of the given terms that scales the same, or else to their end. -/
def addTerm (c : Coefficient α) (key : Expr α) :
    List (Coefficient α × Expr α) → Logged α (List (Coefficient α × Expr α))
  | [] => pure [(c, key)]
  | (c₀, key₀) :: terms =>
    if key₀ == key then do return (← add c₀ c, key₀) :: terms
    else do return (c₀, key₀) :: (← addTerm c key terms)

/-- The terms of addends, with those that scale the same combined. -/
def likeTerms (addends : List (Expr α)) : Logged α (List (Coefficient α × Expr α)) :=
  foldList (fun terms e => do
    let (c, key) ← scaleParts e
    addTerm c key terms) [] addends

/-- Combines the addends that scale the same. -/
def mergeAddends (addends : List (Expr α)) : Logged α (List (Expr α)) := do
  let terms ← likeTerms addends
  Traced.noteIf (terms.length < addends.length) .combineLikeTerms
  return terms.map fun (c, key) => .ofScaleParts c key

/-! ## Fractions of factors -/

/-- Multiplies or divides the coefficient. -/
def scale (side : Side) (c : Coefficient α) (f : Fraction α) : Logged α (Fraction α) :=
  match side with
  | .above => do return { f with coefficient := ← mul f.coefficient c }
  | .below => do return { f with coefficient := ← div f.coefficient c }

mutual

/-- Multiplies by a factor, or divides by it. -/
def absorb (side : Side) (f : Fraction α) : Expr α → Logged α (Fraction α)
  | .number (.real v) =>
    if side = .below && Scalar.eq v Scalar.zero then pure { f with zeroDivisor := true }
    else do
      Traced.note .foldCoefficient
      scale side (← ofScalar v) f
  | .product c n d =>
    if side = .below && c.isZero then pure { f with zeroDivisor := true }
    else do
      Traced.note (Fraction.openingStep side d)
      let f ← absorbAll side (← scale side c f) n
      absorbAll side.flip f d
  | e => pure (f.place side e)

/-- Multiplies by every factor of a list, or divides by it. -/
def absorbAll (side : Side) (f : Fraction α) : List (Expr α) → Logged α (Fraction α)
  | [] => pure f
  | e :: es => do
    let f ← absorb side f e
    absorbAll side f es

end

/-- A coefficient times each addend of a sum. -/
def distribute (c : Coefficient α) : List (Expr α) → Logged α (List (Expr α)) :=
  mapList fun e => do
    let (inner, key) ← scaleParts e
    return .ofScaleParts (← mul c inner) key

/-- The product with its factors sorted. -/
def finish (f : Fraction α) : Logged α (Expr α) :=
  if f.coefficient.isZero then do
    Traced.note .multiplyZero
    return .zero
  else
    let numerator := Expr.sort f.numerator
    let denominator := Expr.sort (if f.zeroDivisor then [.zero] else f.denominator)
    match numerator, denominator with
    | [.sum addends], [] =>
      if f.coefficient.isOne then pure (.sum addends)
      else do
        Traced.note .distributeCoefficient
        Reduction.sumRule (← distribute f.coefficient addends)
    | n, d => pure (Fraction.collapse f.coefficient n d)

/-! ## The rules for powers and products and the passes -/

mutual

/-- A power of a base to an exponent to which the rules have been applied already. The coefficient
of a product is raised to see whether its power is finite, and raised again if it is. -/
def powerRule : Nat → Expr α → Expr α → Logged α (Expr α)
  | 0, _, _ => silent .exhausted
  | fuel + 1, base, exponent =>
    match Reduction.plainPower? base exponent with
    | some found => silent (.lift found)
    | none =>
      if exponent.isNegative then do
        Traced.note .relocatePower
        let positive ← simplify fuel exponent.neg
        let relocated ← powerRule fuel base positive
        productRule fuel .one [] [relocated]
      else
        match Reduction.wholeExponent? exponent, base with
        | some _, .power inner innerExponent => do
          Traced.note .powerOfPower
          let product ← productRule fuel .one [innerExponent, exponent] []
          powerRule fuel inner product
        | some n, .product c numerator denominator => do
          let power ← zpow c n
          if Scalar.isFinite power.value then do
            Traced.note .powerOfProduct
            let whole := Expr.real (Scalar.ofInt n)
            let numerator ← mapList (fun e => powerRule fuel e whole) numerator
            let denominator ← mapList (fun e => powerRule fuel e whole) denominator
            productRule fuel (← zpow c n) numerator denominator
          else pure (.power base exponent)
        | _, _ => pure (.power base exponent)

/-- Cancels bases on both sides of a fraction line until there are none. -/
def cancel : Nat → Fraction α → Logged α (Fraction α)
  | 0, _ => silent .exhausted
  | fuel + 1, f =>
    match Fraction.common? f.denominator f.numerator with
    | none => pure f
    | some ⟨base, upper, lower, numerator, denominator⟩ => do
      let rest := { f with numerator, denominator }
      Traced.note .cancelFactors
      match upper.real?, lower.real? with
      | some u, some l =>
        if Scalar.lt Scalar.zero (u - l) then do
          let factor ← powerRule fuel base (.real (u - l))
          cancel fuel (← absorb .above rest factor)
        else if Scalar.lt (u - l) Scalar.zero then do
          let factor ← powerRule fuel base (.real (-(u - l)))
          cancel fuel (← absorb .below rest factor)
        else cancel fuel rest
      | _, _ =>
        let exponent ← Reduction.sumRule [upper, lower.neg]
        let factor ← powerRule fuel base exponent
        cancel fuel (← absorb .above rest factor)

/-- A product of factors to which the rules have been applied already. -/
def productRule : Nat → Coefficient α → List (Expr α) → List (Expr α) → Logged α (Expr α)
  | 0, _, _, _ => silent .exhausted
  | fuel + 1, c, numerator, denominator => do
    let f ← absorbAll .above { coefficient := c } numerator
    let f ← absorbAll .below f denominator
    finish (← cancel fuel f)

/-- Applies the rules to every node, from the leaves up. -/
def simplify : Nat → Expr α → Logged α (Expr α)
  | 0, _ => silent .exhausted
  | fuel + 1, e =>
    match e with
    | .sum addends => do
      Reduction.sumRule (← mapList (simplify fuel) addends)
    | .product c numerator denominator => do
      let numerator ← mapList (simplify fuel) numerator
      let denominator ← mapList (simplify fuel) denominator
      productRule fuel c numerator denominator
    | .power base exponent => do
      let base ← simplify fuel base
      let exponent ← simplify fuel exponent
      powerRule fuel base exponent
    | .log base body => do
      let base ← simplify fuel base
      let body ← simplify fuel body
      Reduction.logRule base body
    | .trig function body => do
      Reduction.trigRule function (← simplify fuel body)
    | .var name => pure (.var name)
    | .number n => pure (.number n)

end

/-- The power of a base to the sum of its exponents. -/
def gatherPower (fuel : Nat) (base : Expr α) : List (Expr α) → Logged α (Expr α)
  | [exponent] => pure (if exponent.isReal Scalar.one then base else .power base exponent)
  | exponents => do powerRule fuel base (← Reduction.sumRule exponents)

/-- Combines the factors that are powers of the same base. -/
def mergeFactors (fuel : Nat) (factors : List (Expr α)) : Logged α (List (Expr α)) := do
  let groups := Reduction.likeFactors factors
  Traced.noteIf (groups.length < factors.length) .combineLikeFactors
  mapList (fun (base, exponents) => gatherPower fuel base exponents) groups

mutual

/-- Combines like terms and like factors at every node, from the leaves up. -/
def merge (fuel : Nat) : Expr α → Logged α (Expr α)
  | .sum addends => do
    let merged ← mergeAddends (← mergeList fuel addends)
    return .sum merged
  | .product c numerator denominator => do
    let numerator ← mergeList fuel numerator
    let denominator ← mergeList fuel denominator
    let numerator ← mergeFactors fuel numerator
    let denominator ← mergeFactors fuel denominator
    return .product c numerator denominator
  | .power base exponent => do
    let base ← merge fuel base
    let exponent ← merge fuel exponent
    return .power base exponent
  | .log base body => do
    let base ← merge fuel base
    let body ← merge fuel body
    return .log base body
  | .trig function body => do
    return .trig function (← merge fuel body)
  | .var name => pure (.var name)
  | .number n => pure (.number n)

/-- Combines like terms and like factors at every node of the expressions of a list. -/
def mergeList (fuel : Nat) : List (Expr α) → Logged α (List (Expr α))
  | [] => pure []
  | e :: es => do
    let e ← merge fuel e
    let es ← mergeList fuel es
    return e :: es

end

section Rules

/-- A value is a value among bounded rewritings. -/
@[simp] theorem liftM_pure (b : β) : (liftM (pure b : Traced β) : Reducing β) = pure b := rfl

/-- Two traced stages are two stages among bounded rewritings. -/
@[simp] theorem liftM_bind (x : Traced β) (f : β → Traced γ) :
    (liftM (x >>= f) : Reducing γ) = liftM x >>= fun b => liftM (f b) := rfl

/-- What a value without a rule is treated with comes first. -/
@[simp] theorem pure_bind (b : β) (f : β → Reducing γ) : (pure b >>= f : Reducing γ) = f b := by
  cases h : f b with
  | none => simp only [bind, pure, Reducing.lift, h]; rfl
  | some second => simp only [bind, pure, Reducing.lift, h, List.nil_append]; rfl

/-- Adding a term to others is that of the log without it. -/
theorem erase_addTerm (c : Coefficient α) (key : Expr α) (terms : List (Coefficient α × Expr α)) :
    (addTerm c key terms).erase = pure (Reduction.addTerm c key terms) := by
  fun_induction Reduction.addTerm c key terms with
  | case1 => rfl
  | case2 c₀ key₀ terms h => simp [addTerm, h]
  | case3 c₀ key₀ terms h ih => simp [addTerm, h, ih]

/-- Combining addends to terms is that of the log without it. -/
theorem erase_likeTerms (addends : List (Expr α)) :
    (likeTerms addends).erase = pure (Reduction.likeTerms addends) := by
  have hfold (terms : List (Coefficient α × Expr α)) :
      (foldList (fun terms e => scaleParts e >>= fun parts => addTerm parts.1 parts.2 terms) terms
        addends).erase = pure (addends.foldl
          (fun terms e => Reduction.addTerm e.scaleParts.1 e.scaleParts.2 terms) terms) := by
    induction addends generalizing terms with
    | nil => rfl
    | cons e addends ih => simp [foldList, erase_addTerm, ih]
  exact hfold []

/-- Combining like terms is that of the log without it. -/
theorem erase_mergeAddends (addends : List (Expr α)) :
    (mergeAddends addends).erase = liftM (Reduction.mergeAddends addends) := by
  simp only [mergeAddends, erase_bind, erase_likeTerms, erase_liftM_traced, erase_pure, pure_bind]
  by_cases h : (Reduction.likeTerms addends).length < addends.length
  · simp only [Traced.noteIf, Reduction.mergeAddends, h, decide_true]
    rfl
  · simp only [Traced.noteIf, Reduction.mergeAddends, h, decide_false]
    rfl

/-- Scaling a product in the making is that of the log without it. -/
theorem erase_scale (side : Side) (c : Coefficient α) (f : Fraction α) :
    (scale side c f).erase = pure (f.scale side c) := by
  cases side <;> simp [scale, Fraction.scale]

mutual

/-- Taking in a factor is that of the log without it. -/
theorem erase_absorb (side : Side) (f : Fraction α) (e : Expr α) :
    (absorb side f e).erase = liftM (Fraction.absorb side f e) := by
  cases e with
  | number v =>
    cases v with
    | real v =>
      rw [absorb, Fraction.absorb]
      split
      · rfl
      · simp only [erase_bind, erase_liftM_traced, erase_ofScalar, pure_bind, erase_scale]
        rfl
    | constant c => rfl
  | product c n d =>
    rw [absorb, Fraction.absorb]
    split
    · rfl
    · simp only [erase_bind, erase_liftM_traced, erase_scale, pure_bind, erase_absorbAll,
        liftM_bind]
  | _ => rfl

/-- Taking in factors is that of the log without it. -/
theorem erase_absorbAll (side : Side) (f : Fraction α) (es : List (Expr α)) :
    (absorbAll side f es).erase = liftM (Fraction.absorbAll side f es) := by
  cases es with
  | nil => rfl
  | cons e es =>
    simp only [absorbAll, Fraction.absorbAll, erase_bind, erase_absorb, erase_absorbAll, liftM_bind]

end

/-- Multiplying a coefficient into addends is that of the log without it. -/
theorem erase_distribute (c : Coefficient α) (addends : List (Expr α)) :
    (distribute c addends).erase = pure (Fraction.distribute c addends) := by
  induction addends with
  | nil => rfl
  | cons e addends ih =>
    rw [distribute] at ih ⊢
    simp only [mapList, erase_bind, ih, erase_scaleParts, erase_mul, erase_pure, pure_bind]
    rfl

/-- Finishing a product is that of the log without it. -/
theorem erase_finish (f : Fraction α) : (finish f).erase = liftM f.finish := by
  rw [finish, Fraction.finish]
  split
  · rfl
  · dsimp only
    generalize Expr.sort f.numerator = n
    generalize Expr.sort (if f.zeroDivisor then [.zero] else f.denominator) = d
    split
    · split
      · rfl
      · simp only [erase_bind, erase_liftM_traced, erase_distribute, pure_bind, liftM_bind]
    · simp only [erase_pure, liftM_pure]

/-- The rules for powers and products and the pass that applies all rules are those of the log
without it. -/
theorem erase_rules (fuel : Nat) :
    (∀ base exponent : Expr α,
      (powerRule fuel base exponent).erase = Reduction.powerRule fuel base exponent) ∧
    (∀ f : Fraction α, (cancel fuel f).erase = Reduction.cancel fuel f) ∧
    (∀ (c : Coefficient α) n d, (productRule fuel c n d).erase = Reduction.productRule fuel c n d) ∧
    ∀ e : Expr α, (simplify fuel e).erase = Reduction.simplify fuel e := by
  induction fuel with
  | zero => exact ⟨fun _ _ => rfl, fun _ => rfl, fun _ _ _ => rfl, fun _ => rfl⟩
  | succ fuel ih =>
    obtain ⟨hpower, hcancel, hproduct, hsimplify⟩ := ih
    refine ⟨fun base exponent => ?_, fun f => ?_, fun c n d => ?_, fun e => ?_⟩
    · unfold powerRule Reduction.powerRule
      cases Reduction.plainPower? base exponent with
      | some found => exact erase_silent _
      | none =>
        dsimp only
        split
        · simp only [erase_bind, erase_liftM_traced, hsimplify, hpower, hproduct]
        · cases Reduction.wholeExponent? exponent with
          | none => rfl
          | some k =>
            cases base with
            | power inner inside => simp only [erase_bind, erase_liftM_traced, hpower, hproduct]
            | product c n d =>
              simp only [erase_bind, erase_zpow, pure_bind]
              split
              · simp only [erase_bind, erase_liftM_traced, erase_mapList, erase_zpow, pure_bind,
                  hpower, hproduct]
              · rfl
            | _ => rfl
    · rw [cancel, Reduction.cancel]
      cases Fraction.common? f.denominator f.numerator with
      | none => rfl
      | some common =>
        dsimp only
        cases common.upper.real? with
        | none => simp only [erase_bind, erase_liftM_traced, erase_absorb, hpower, hcancel]
        | some u =>
          cases common.lower.real? with
          | none => simp only [erase_bind, erase_liftM_traced, erase_absorb, hpower, hcancel]
          | some l =>
            simp only [erase_bind, erase_liftM_traced]
            split
            · simp only [erase_bind, erase_absorb, hpower, hcancel]
            · split
              · simp only [erase_bind, erase_absorb, hpower, hcancel]
              · rw [hcancel]
    · simp only [productRule, Reduction.productRule, erase_bind, erase_absorbAll, erase_finish,
        hcancel]
    · cases e with
      | sum as =>
        simp only [simplify, Reduction.simplify, erase_bind, erase_mapList, erase_liftM_traced,
          hsimplify]
      | product c n d =>
        simp only [simplify, Reduction.simplify, erase_bind, erase_mapList, hsimplify, hproduct]
      | power base exponent =>
        simp only [simplify, Reduction.simplify, erase_bind, hsimplify, hpower]
      | log base body =>
        simp only [simplify, Reduction.simplify, erase_bind, erase_liftM_traced, hsimplify]
      | trig f body =>
        simp only [simplify, Reduction.simplify, erase_bind, erase_liftM_traced, hsimplify]
      | var name => rfl
      | number v => rfl

/-- Combining the powers of a base is that of the log without it. -/
theorem erase_gatherPower (fuel : Nat) (base : Expr α) (exponents : List (Expr α)) :
    (gatherPower fuel base exponents).erase = Reduction.gatherPower fuel base exponents := by
  fun_cases gatherPower fuel base exponents with
  | case1 exponent => rfl
  | case2 exponents hne =>
    rw [Reduction.gatherPower.eq_2 _ _ _ hne]
    simp only [erase_bind, erase_liftM_traced, (erase_rules fuel).1]

/-- Combining like factors is that of the log without it. -/
theorem erase_mergeFactors (fuel : Nat) (factors : List (Expr α)) :
    (mergeFactors fuel factors).erase = Reduction.mergeFactors fuel factors := by
  simp only [mergeFactors, Reduction.mergeFactors, erase_bind, erase_liftM_traced, erase_mapList,
    erase_gatherPower]

mutual

/-- The pass that combines is that of the log without it. -/
theorem erase_merge (fuel : Nat) (e : Expr α) : (merge fuel e).erase = Reduction.merge fuel e := by
  cases e with
  | sum as =>
    simp only [merge, Reduction.merge, erase_bind, erase_mergeList, erase_mergeAddends, erase_pure]
  | product c n d =>
    simp only [merge, Reduction.merge, erase_bind, erase_mergeList, erase_mergeFactors, erase_pure]
  | power base exponent => simp only [merge, Reduction.merge, erase_bind, erase_merge, erase_pure]
  | log base body => simp only [merge, Reduction.merge, erase_bind, erase_merge, erase_pure]
  | trig f body => simp only [merge, Reduction.merge, erase_bind, erase_merge, erase_pure]
  | var name => rfl
  | number v => rfl

/-- The pass that combines is that of the log without it, for all expressions of a list. -/
theorem erase_mergeList (fuel : Nat) (es : List (Expr α)) :
    (mergeList fuel es).erase = Reduction.mergeList fuel es := by
  cases es with
  | nil => rfl
  | cons e es =>
    simp only [mergeList, Reduction.mergeList, erase_bind, erase_merge, erase_mergeList, erase_pure]

end

end Rules

end Logged

end SymbolicAlgebra
