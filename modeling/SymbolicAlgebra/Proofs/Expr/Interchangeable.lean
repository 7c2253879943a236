import SymbolicAlgebra.Expr.Value
import SymbolicAlgebra.Proofs.Expr.Nodes
import SymbolicAlgebra.Proofs.Expr.Order
import SymbolicAlgebra.Proofs.Scalar.Quotient

/-!
# Expressions that count as equal

Rules that cancel, merge or drop what counts as equal take one of two expressions for the other. This
is right where expressions that count as equal are identical. Numbers are, as their order is that of
their bits. Coefficients are compared by their quotients and their numerators, and a quotient is
rounded: it tells two denominators of a fraction in lowest terms apart while they are at most `2 ^ 52`.
Above that it need not, since neighbouring quotients can be rounded to one double.
-/

namespace SymbolicAlgebra

namespace Binary64

open Float.Model

/-- All bits of a missing number are known. -/
theorem toBits_of_isNaN {x : Float} (h : x.isNaN = true) :
    x.toModel.toBits.toBitVec = UnpackedFloat.packedNaN .binary64 := by
  change (UnpackedFloat.unpack .binary64 x.toModel.toBits.toBitVec).isNaN = true at h
  unfold UnpackedFloat.unpack at h
  simp only at h
  split at h
  · rename_i hexponent
    split at h
    · cases h
    · rename_i hmantissa
      exact x.toModel.valid.eq_packedNaN hexponent hmantissa
  · split at h
    · split at h <;> cases h
    · cases h

/-- Doubles with the same bits are the same. -/
theorem eq_of_toBits {x y : Float} (h : x.toBits.toNat = y.toBits.toNat) : x = y := by
  obtain ⟨⟨bits, valid⟩⟩ := x
  obtain ⟨⟨bits', valid'⟩⟩ := y
  obtain rfl : bits = bits' := UInt64.toNat_inj.mp h
  rfl

/-- Different doubles have different keys. -/
theorem orderKey_injective : Function.Injective orderKey := by
  intro x y h
  have hx := x.toBits.toNat_lt
  have hy := y.toBits.toNat_lt
  simp only [orderKey] at h
  cases hnanx : x.isNaN with
  | true =>
    cases hnany : y.isNaN with
    | true =>
      exact eq_of_toBits (congrArg BitVec.toNat
        ((toBits_of_isNaN hnanx).trans (toBits_of_isNaN hnany).symm))
    | false =>
      simp only [hnanx, hnany, if_true, Bool.false_eq_true, if_false] at h
      split at h <;> omega
  | false =>
    cases hnany : y.isNaN with
    | true =>
      simp only [hnanx, hnany, if_true, Bool.false_eq_true, if_false] at h
      split at h <;> omega
    | false =>
      simp only [hnanx, hnany, Bool.false_eq_true, if_false] at h
      refine eq_of_toBits ?_
      split at h <;> split at h <;> omega

/-- Doubles without a difference in their order are the same. -/
theorem eq_of_order_eq {x y : Float} (h : Scalar.order x y = .eq) : x = y :=
  orderKey_injective (Std.LawfulEqOrd.eq_of_compare h)

end Binary64

namespace Coefficient

/-- A fraction in lowest terms with a denominator of at most `2 ^ 52`. -/
def Moderate (c : Coefficient Float) : Prop :=
  c.LowestTerms ∧ Scalar.toInt c.denom ≤ 2 ^ 52

/-- The denominator of a fraction in lowest terms is a positive integer that has no divisor in common
with the numerator. -/
theorem LowestTerms.denom_eq_ofInt {c : Coefficient Float} (h : c.LowestTerms) :
    0 < Scalar.toInt c.denom ∧ Scalar.ofInt (Scalar.toInt c.denom) = c.denom ∧
      Int.gcd (Scalar.toInt c.numer) (Scalar.toInt c.denom) = 1 := by
  obtain ⟨-, hdenom, hpos, hgcd⟩ | hone := h
  · obtain ⟨hint, hback⟩ := Scalar.ofInt_toInt_of_pos hdenom (Scalar.Signed.lt_of_pos _ hpos)
      (Scalar.Signed.eq_zero_of_pos _ hpos)
    exact ⟨hint, hback, hgcd⟩
  · have hint : Scalar.toInt c.denom = 1 := by
      rw [hone]
      exact Scalar.Whole.toInt_ofInt 1 (by decide)
    rw [hint, hone]
    exact ⟨by decide, rfl, Int.gcd_one⟩

/-- Fractions in lowest terms with denominators of at most `2 ^ 52` are told apart by their order. -/
theorem Moderate.eq_of_order_eq {c c' : Coefficient Float} (hc : c.Moderate) (hc' : c'.Moderate)
    (h : c.order c' = .eq) : c = c' := by
  obtain ⟨n, d⟩ := c
  obtain ⟨n', d'⟩ := c'
  obtain ⟨hvalue, hnumer⟩ := Ordering.then_eq_eq.mp h
  have hquotient : n / d = n' / d' := Binary64.eq_of_order_eq hvalue
  obtain rfl : n = n' := Binary64.eq_of_order_eq hnumer
  suffices hdenom : d = d' by rw [hdenom]
  cases hexact : isExact n with
  | false =>
    -- only exact numerators have a denominator other than one
    have hone {k : Float} (hk : LowestTerms (⟨n, k⟩ : Coefficient Float)) : k = Scalar.one :=
      hk.resolve_left fun hparts => by
        rw [show isExact n = true from hparts.1] at hexact
        cases hexact
    rw [hone hc.1, hone hc'.1]
  | true =>
    obtain ⟨hpos, hback, hgcd⟩ := hc.1.denom_eq_ofInt
    obtain ⟨hpos', hback', hgcd'⟩ := hc'.1.denom_eq_ofInt
    have hle := hc.2
    have hle' := hc'.2
    dsimp only at hpos hback hgcd hpos' hback' hgcd' hle hle'
    rw [← hback, ← hback']
    by_cases hzero : Scalar.toInt n = 0
    · rw [hzero, Int.gcd_zero_left] at hgcd hgcd'
      have hsame : Scalar.toInt d = Scalar.toInt d' := by omega
      rw [hsame]
    · have hne : Scalar.eq n Scalar.zero = false :=
        Bool.eq_false_iff.mpr fun hn => hzero (Scalar.Whole.toInt_of_zero n hn)
      by_contra hapart
      have hdistinct : Scalar.toInt d ≠ Scalar.toInt d' := fun hsame => hapart (by rw [hsame])
      refine hdistinct (Binary64.divisors_eq hzero (Scalar.Whole.natAbs_toInt_lt n hexact) hpos hpos'
        (by omega) ?_)
      rwa [Scalar.Whole.ofInt_toInt n hexact hne, hback, hback']

end Coefficient

namespace Expr

/-- A coefficient at this node is in lowest terms with a denominator of at most `2 ^ 52`. -/
def ModerateNode : Expr Float → Prop
  | .product c _ _ => c.Moderate
  | _ => True

/-- Numbers without a difference in their order are the same. -/
theorem eq_of_number_order_eq {v v' : Number Float} (h : v.order v' = .eq) : v = v' := by
  cases v with
  | real x =>
    cases v' with
    | real y => rw [Binary64.eq_of_order_eq h]
    | constant c => cases h
  | constant c =>
    cases v' with
    | real y => cases h
    | constant c' =>
      have hranks : c.rank = c'.rank := Std.LawfulEqOrd.eq_of_compare h
      cases c <;> cases c' <;> first | rfl | cases hranks

/-- Lists of the same expressions are the same. -/
theorem eq_of_forall₂_moderate {es fs : List (Expr Float)}
    (h : List.Forall₂
      (fun a b => a.Everywhere ModerateNode → b.Everywhere ModerateNode → a = b) es fs)
    (hes : ∀ e ∈ es, e.Everywhere ModerateNode) (hfs : ∀ e ∈ fs, e.Everywhere ModerateNode) :
    es = fs := by
  induction h with
  | nil => rfl
  | cons hab _ ih =>
    rw [List.forall_mem_cons] at hes hfs
    rw [hab hes.1 hfs.1, ih hes.2 hfs.2]

/-- Being identical carries over to what is built alike, if the coefficients have moderate
denominators. -/
theorem congruence_identical : Congruence fun a b : Expr Float =>
    a.Everywhere ModerateNode → b.Everywhere ModerateNode → a = b where
  sum h ha hb := by
    rw [eq_of_forall₂_moderate h (everywhere_iff.mp ha).2 (everywhere_iff.mp hb).2]
  product {c c' n n' d d'} hc hn hd ha hb := by
    have hfactors := (everywhere_iff.mp ha).2
    have hfactors' := (everywhere_iff.mp hb).2
    rw [children, List.forall_mem_append] at hfactors hfactors'
    rw [Coefficient.Moderate.eq_of_order_eq ha.root hb.root hc,
      eq_of_forall₂_moderate hn hfactors.1 hfactors'.1,
      eq_of_forall₂_moderate hd hfactors.2 hfactors'.2]
  power hbase hexponent ha hb := by
    rw [hbase (ha.child (by simp [children])) (hb.child (by simp [children])),
      hexponent (ha.child (by simp [children])) (hb.child (by simp [children]))]
  log hbase hbody ha hb := by
    rw [hbase (ha.child (by simp [children])) (hb.child (by simp [children])),
      hbody (ha.child (by simp [children])) (hb.child (by simp [children]))]
  trig hbody ha hb := by
    rw [hbody (ha.child (by simp [children])) (hb.child (by simp [children]))]
  var x _ _ := rfl
  number h _ _ := by rw [eq_of_number_order_eq h]

/-- Expressions with coefficients in lowest terms whose denominators are at most `2 ^ 52` count as equal
exactly if they are identical, and exactly if neither comes before the other. -/
theorem beq_iff_identical {a b : Expr Float} (ha : a.Everywhere ModerateNode)
    (hb : b.Everywhere ModerateNode) :
    ((a == b) = true ↔ a = b) ∧ (a.order b = .eq ↔ a = b) := by
  have hidentical : a.order b = .eq ↔ a = b :=
    ⟨fun h => congruence_identical.of_order_eq a b h ha hb, fun h => h ▸ order_self a⟩
  exact ⟨beq_iff.trans hidentical, hidentical⟩

/-- A variable scaled by a fraction. -/
def fractionOf (n d : Int) (x : String) : Expr Float :=
  scaled (.ofFraction (Scalar.ofInt n) (Scalar.ofInt d)) (var x)

/-- A half and a third of a variable do not count as equal. -/
theorem beq_iff_identical_fractions :
    (fractionOf 1 2 "x").Everywhere ModerateNode ∧ (fractionOf 1 3 "x").Everywhere ModerateNode ∧
      (fractionOf 1 2 "x" == fractionOf 1 3 "x") = false ∧
      fractionOf 1 2 "x" ≠ fractionOf 1 3 "x" := by
  have hmoderate {n d : Int} (hd : Scalar.eq (Scalar.ofInt d : Float) Scalar.zero = false)
      (hle : Scalar.toInt (Coefficient.ofFraction (Scalar.ofInt n) (Scalar.ofInt d : Float)).denom ≤
        2 ^ 52) : (fractionOf n d "x").Everywhere ModerateNode :=
    everywhere_iff.mpr ⟨⟨Coefficient.lowestTerms_ofFraction _ hd, hle⟩, fun e he => by
      obtain rfl := List.mem_singleton.mp he
      exact everywhere_of_leaf rfl trivial⟩
  have hhalf := hmoderate (n := 1) (d := 2) (by decide +kernel) (by decide +kernel)
  have hthird := hmoderate (n := 1) (d := 3) (by decide +kernel) (by decide +kernel)
  have hbeq : (fractionOf 1 2 "x" == fractionOf 1 3 "x") = false := by decide +kernel
  refine ⟨hhalf, hthird, hbeq, fun h => ?_⟩
  rw [(beq_iff_identical hhalf hthird).1.mpr h] at hbeq
  cases hbeq

/-- A variable over two neighbouring integers gives expressions that count as equal, although they are
not identical and have different values. -/
theorem beq_neighbouring_fractions :
    let a := fractionOf 1 9007199254740991 "x"
    let b := fractionOf 1 9007199254740990 "x"
    (a == b) = true ∧ a.order b = .eq ∧ a ≠ b ∧
      ∃ bindings, a.value bindings ≠ b.value bindings := by
  intro a b
  let valueOver (d : Int) : Float :=
    productValue (.ofFraction (Scalar.ofInt 1) (Scalar.ofInt d)) [1.5] []
  have hvalues : Scalar.order (valueOver 9007199254740991) (valueOver 9007199254740990) = .lt := by
    decide +kernel
  have hdiffer : a.value ⟨[("x", 1.5)]⟩ ≠ b.value ⟨[("x", 1.5)]⟩ := by
    intro h
    have hsame : valueOver 9007199254740991 = valueOver 9007199254740990 := Except.ok.inj h
    have hself : Scalar.order (valueOver 9007199254740990) (valueOver 9007199254740990) = .eq :=
      Std.ReflCmp.compare_self
    rw [hsame, hself] at hvalues
    cases hvalues
  exact ⟨by decide +kernel, by decide +kernel, fun h => hdiffer (by rw [h]), _, hdiffer⟩

end Expr

end SymbolicAlgebra
