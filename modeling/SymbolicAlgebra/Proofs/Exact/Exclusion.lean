import SymbolicAlgebra.Proofs.Exact.Clause

/-!
# Excluded points over exact numbers

Where a node of a stage breaks a condition that its clauses record, the exclusions of the stages hold
once they are tidied, as long as tidying keeps the clauses whose operands are defined there.
-/

namespace SymbolicAlgebra

open Exact Projective SymbolicAlgebra.Expr

variable {b : Bindings Exact} {limits : Limits}

namespace Clause

/-- A clause holds if its test is passed by the value of its operand. -/
theorem holds_of_value {c : Clause Exact} {v : Exact} (h : c.operand.value b = .ok v) :
    c.holds b = .ok (c.test v) := by rw [holds, h]; rfl

/-- The remainder of a division by a positive number. -/
theorem emod_number (r : ℝ) {m : ℝ} (hm : 0 < m) :
    Scalar.emod (Exact.number r) (.number m) = .number (r - m * ⌊r / m⌋) := by
  have h : Scalar.emod (Exact.number r) (.number m) = .number (r - |m| * ⌊r / |m|⌋) :=
    if_neg hm.ne'
  rw [h, abs_of_pos hm]

/-- A remainder counts as zero if it is close to zero or to the modulus. -/
theorem meetsThreshold_zero (r m : ℝ) :
    meetsThreshold (.number r) (.number m) (Number.literal (Scalar.zero : Exact)).value =
      decide (|r| < (10 : ℝ) ^ (-9 : ℤ) ∨ |r - m| < (10 : ℝ) ^ (-9 : ℤ)) := by
  have hlt (s : ℝ) : Scalar.lt (Scalar.abs (Exact.number s)) modulusTolerance =
      decide (|s| < (10 : ℝ) ^ (-9 : ℤ)) := by
    change Scalar.lt (Exact.number |s|) (.number (((1 : ℕ) : ℝ) * 10 ^ (-9 : ℤ))) = _
    rw [lt_number, Nat.cast_one, one_mul]
  have hzero : (Number.literal (Scalar.zero : Exact)).value = .number 0 := by
    rw [Number.literal, unsignZero_eq, Exact.zero_eq]
    rfl
  rw [meetsThreshold, hzero, number_sub, number_sub, number_sub, hlt, hlt, Bool.decide_or, sub_zero,
    sub_zero]

end Clause

namespace Exclusions

open Clause

/-- Tidying keeps every clause that holds at a point where its operand is defined. -/
def Kept (limits : Limits) (b : Bindings Exact) (x : Exclusions Exact) : Prop :=
  x.ForallClauses fun c => c.operand.Defined b → c.holds b = .ok true → c.Kept limits b

/-- A zero divisor meets its clause. -/
theorem divisor_holds {e : Expr Exact} (h : e.value b = .ok (.number 0)) :
    (plain e .eq Scalar.zero).holds b = .ok true := by
  rw [holds_of_value h]
  simp [test, plain, Scalar.isNaN, Number.literal, Number.value]

/-- A negative base meets its clause. -/
theorem base_holds {e : Expr Exact} {r : ℝ} (h : e.value b = .ok (.number r)) (hr : r < 0) :
    (plain e .lt Scalar.zero).holds b = .ok true := by
  rw [holds_of_value h]
  simp [test, plain, Scalar.isNaN, Number.literal, Number.value, hr]

/-- An exponent that is not close to an integer meets its clause. -/
theorem exponent_holds {e : Expr Exact} {r : ℝ} (h : e.value b = .ok (.number r))
    (hr : ∀ n : ℤ, (10 : ℝ) ^ (-9 : ℤ) ≤ |r - n|) :
    (modulo e (.literal Scalar.one) .ne Scalar.zero).holds b = .ok true := by
  have hbelow := hr ⌊r⌋
  have habove := hr (⌊r⌋ + 1)
  rw [Int.cast_add, Int.cast_one, ← sub_sub] at habove
  have hone : (Number.literal (Scalar.one : Exact)).value = .number 1 := by
    rw [Number.literal, unsignZero_eq, Exact.one_eq]
    rfl
  rw [holds_of_value h]
  change Except.ok (!meetsThreshold (Scalar.emod _ (Number.literal Scalar.one).value)
    (Number.literal Scalar.one).value (Number.literal Scalar.zero).value) = _
  rw [hone, emod_number r one_pos, meetsThreshold_zero, div_one, one_mul,
    decide_eq_false (not_or.mpr ⟨hbelow.not_gt, habove.not_gt⟩)]
  rfl

/-- A body of a logarithm that is not positive meets its clause. -/
theorem logBody_holds {e : Expr Exact} {r : ℝ} (h : e.value b = .ok (.number r)) (hr : r ≤ 0) :
    (plain e .le Scalar.zero).holds b = .ok true := by
  rw [holds_of_value h]
  simp [test, plain, Scalar.isNaN, Number.literal, Number.value, hr]

/-- A base of a logarithm that is not positive or is one meets one of its clauses. -/
theorem logBase_holds {e : Expr Exact} {r : ℝ} (h : e.value b = .ok (.number r))
    (hr : r ≤ 0 ∨ r = 1) :
    (plain e .le Scalar.zero).holds b = .ok true ∨ (plain e .eq Scalar.one).holds b = .ok true := by
  obtain hr | hr := hr
  · exact .inl (logBody_holds h hr)
  · right
    rw [holds_of_value h]
    simp [test, plain, Scalar.isNaN, Number.literal, Number.value, hr]

/-- An angle whose sine is next to zero is close to a multiple of half a turn. -/
theorem close_of_sin {r : ℝ} (h0 : 0 ≤ r) (hpi : r < Real.pi)
    (h : Real.sin r < (10 : ℝ) ^ (-12 : ℤ)) :
    r < (10 : ℝ) ^ (-9 : ℤ) ∨ Real.pi - r < (10 : ℝ) ^ (-9 : ℤ) := by
  have hlt {s : ℝ} (hs0 : 0 ≤ s) (hs : s ≤ Real.pi / 2) (hsin : Real.sin s < (10 : ℝ) ^ (-12 : ℤ)) :
      s < (10 : ℝ) ^ (-9 : ℤ) := by
    have hjordan := (Real.mul_le_sin hs0 hs).trans_lt hsin
    rw [div_mul_eq_mul_div, div_lt_iff₀ Real.pi_pos] at hjordan
    have hfour := Real.pi_le_four
    norm_num at hjordan ⊢
    linarith
  obtain hr | hr := le_total r (Real.pi / 2)
  · exact .inl (hlt h0 hr h)
  · refine .inr (hlt (by linarith) (by linarith) ?_)
    rwa [Real.sin_pi_sub]

/-- Half of pi off the argument of a tangent. -/
theorem halfPi_defined :
    (product (.ofFraction (Scalar.ofInt (-1)) (Scalar.ofInt 2)) [.constant .pi] [] :
      Expr Exact).Defined b ∧
    (product (.ofFraction (Scalar.ofInt (-1)) (Scalar.ofInt 2)) [.constant .pi] [] :
      Expr Exact).meaning b = finite (-(Real.pi / 2)) := by
  have hconstant : (constant .pi : Expr Exact).value b = .ok (.number Real.pi) := rfl
  have hvalue : (product (.ofFraction (Scalar.ofInt (-1)) (Scalar.ofInt 2)) [.constant .pi] [] :
      Expr Exact).value b = .ok (.number (-(Real.pi / 2))) := by
    rw [value, values, values, values, hconstant]
    refine congrArg Except.ok (ofExact_injective ?_)
    rw [ofExact_productValue, Coefficient.meaning, Coefficient.value_ofFraction, ofInt_eq, ofInt_eq,
      number_div (by norm_num)]
    simp
    ring
  have hdefined : (product (.ofFraction (Scalar.ofInt (-1)) (Scalar.ofInt 2)) [.constant .pi] [] :
      Expr Exact).Defined b := by
    refine everywhere_iff.mpr ⟨⟨_, hvalue⟩, ?_⟩
    rw [children, List.append_nil, List.forall_mem_singleton]
    exact everywhere_iff.mpr ⟨⟨_, hconstant⟩, List.forall_mem_nil _⟩
  exact ⟨hdefined, meaning_of_defined _ hdefined hvalue⟩

/-- An argument of a tangent that is at a pole meets its clause. -/
theorem tangent_holds {body : Expr Exact} {r : ℝ} (hbody : body.Defined b)
    (hr : body.value b = .ok (.number r)) (hcos : |Real.cos r| < (10 : ℝ) ^ (-12 : ℤ)) :
    (tangentPoles body).operand.Defined b ∧ (tangentPoles body).holds b = .ok true := by
  obtain ⟨hhalf, hhalfMeaning⟩ := halfPi_defined (b := b)
  have hdefined : (tangentPoles body).operand.Defined b :=
    defined_sum (List.forall_mem_append.mpr ⟨hbody.addends, hhalf.addends⟩)
  refine ⟨hdefined, ?_⟩
  obtain ⟨s, hs, hmeaning⟩ := hdefined.exists_value
  obtain rfl : r - Real.pi / 2 = s := by
    change (sum _).meaning b = _ at hmeaning
    rw [meaning_sum, List.map_append, List.sum_append, sum_addends, sum_addends, hhalfMeaning,
      meaning_of_defined body hbody hr, ofExact_number, finite_add_finite, finite.injEq] at hmeaning
    exact hmeaning
  rw [holds_of_value hs]
  have hpi := Real.pi_pos
  have hfloor := Int.floor_le ((r - Real.pi / 2) / Real.pi)
  have hceil := Int.lt_floor_add_one ((r - Real.pi / 2) / Real.pi)
  rw [le_div_iff₀ hpi] at hfloor
  rw [div_lt_iff₀ hpi] at hceil
  have hsin : Real.sin (r - Real.pi / 2 - Real.pi * ⌊(r - Real.pi / 2) / Real.pi⌋) <
      (10 : ℝ) ^ (-12 : ℤ) := by
    refine lt_of_le_of_lt (le_abs_self _) ?_
    rw [mul_comm, Real.sin_sub_int_mul_pi, abs_mul, abs_zpow, abs_neg, abs_one, one_zpow, one_mul,
      Real.sin_sub_pi_div_two, abs_neg]
    exact hcos
  have hclose := close_of_sin (by linarith) (by linarith) hsin
  change Except.ok (meetsThreshold (Scalar.emod _ (Exact.number Real.pi)) (.number Real.pi)
    (Number.literal Scalar.zero).value) = _
  rw [emod_number _ hpi, meetsThreshold_zero]
  refine congrArg Except.ok (decide_eq_true (hclose.imp (fun h => ?_) fun h => ?_))
  · rwa [abs_of_nonneg (by linarith)]
  · rwa [abs_sub_comm, abs_of_nonneg (by linarith)]

/-- A node that breaks a recorded condition contributes a group whose clauses all hold. -/
theorem exists_group_of_recorded {x : Expr Exact} (h : Recorded b x) :
    ∃ group ∈ groupsOf x, ∀ c ∈ group, c.operand.Defined b ∧ c.holds b = .ok true := by
  cases h with
  | @divisor c n d e he hdefined hzero =>
    refine ⟨[plain e .eq Scalar.zero], List.mem_map.mpr ⟨e, he, rfl⟩, ?_⟩
    rw [List.forall_mem_singleton]
    exact ⟨hdefined, divisor_holds hzero⟩
  | @power base exponent a r hbase hexponent ha hr hneg hfar =>
    refine ⟨_, List.mem_singleton.mpr rfl, ?_⟩
    rw [List.forall_mem_cons, List.forall_mem_singleton]
    exact ⟨⟨hbase, base_holds ha hneg⟩, hexponent, exponent_holds hr hfar⟩
  | @logBase base body a hbase ha hout =>
    obtain hholds | hholds := logBase_holds ha hout
    · refine ⟨[plain base .le Scalar.zero], by simp [groupsOf], ?_⟩
      rw [List.forall_mem_singleton]
      exact ⟨hbase, hholds⟩
    · refine ⟨[plain base .eq Scalar.one], by simp [groupsOf], ?_⟩
      rw [List.forall_mem_singleton]
      exact ⟨hbase, hholds⟩
  | @logBody base body r hbody hr hout =>
    refine ⟨[plain body .le Scalar.zero], by simp [groupsOf], ?_⟩
    rw [List.forall_mem_singleton]
    exact ⟨hbody, (logBody_holds hr hout)⟩
  | @tangent body r hbody hr hcos =>
    refine ⟨_, List.mem_singleton.mpr rfl, ?_⟩
    rw [List.forall_mem_singleton]
    exact tangent_holds hbody hr hcos

/-- Where the clauses of a group hold that exclusions cover, the point is excluded by the tidied
exclusions. -/
theorem excludes_of_covers {x y : Exclusions Exact} (htidy : x.tidy limits = .ok y)
    (hbound : x.ForallClauses fun c => c.operand.VariablesIn fun name => (b.get? name).isSome)
    (hkept : x.Kept limits b) {group : List (Clause Exact)} (hcovers : x.Covers group)
    (hholds : ∀ c ∈ group, c.operand.Defined b ∧ c.holds b = .ok true) :
    y.excludes b = .ok true := by
  obtain ⟨old, hold, holdCovers⟩ := hcovers
  have htidied : ∀ c ∈ old, ∀ c', c.tidy limits = .ok c' → c'.holds b = .ok true := by
    intro c hc c' hc'
    obtain ⟨d, hd, hsame⟩ := holdCovers c hc
    obtain ⟨hvalue, hdefined⟩ := holds_congr (b := b) hsame
    have hcdefined := hdefined.mpr (hholds d hd).1
    have hcholds := hvalue.trans (hholds d hd).2
    exact (hkept old hold c hc hcdefined hcholds).holds_tidy hcdefined hcholds hc'
  obtain ⟨kept, hkeptOld, new, hnew, hnewCovers⟩ := covers_tidy htidy hold htidied
  have hall := forall_tidyGroup htidied hkeptOld
  refine excludes_of_groupHolds ?_ hnew (groupHolds_of_forall fun c hc => ?_)
  · refine ForallClauses.tidy (fun g hg c hc c' hc' => ?_) htidy
    obtain ⟨v, hv⟩ := exists_value c'.operand (variablesIn_tidy hc' (hbound g hg c hc))
    exact ⟨c'.test v, holds_of_value hv⟩
  · obtain ⟨d, hd, hsame⟩ := hnewCovers c hc
    exact (holds_congr hsame).1.trans (hall d hd)

end Exclusions

end SymbolicAlgebra
