import SymbolicAlgebra.Proofs.Exclusion.Preserved

/-!
# Groups without repetition

Exclusions are a disjunction of conjunctions in which nothing occurs twice: whatever is added to them
and however they are extended or tidied, the clauses of each group strictly increase and no two groups
are equal. So the order and the repetition of the clauses of a group that is added do not matter, and
what is excluded afterwards was excluded before or is excluded by what was added.
-/

namespace SymbolicAlgebra

variable {α : Type} [Scalar α]

/-- Clauses count as equal to themselves, and those that count as equal do so the other way round and
along a chain. -/
instance Clause.equivBEq [Scalar.Lawful α] : EquivBEq (Clause α) where
  rfl := beq_iff.mpr Std.ReflCmp.compare_self
  symm h := beq_iff.mpr (Std.OrientedCmp.eq_symm (beq_iff.mp h))
  trans h h' := beq_iff.mpr (Std.TransCmp.eq_trans (beq_iff.mp h) (beq_iff.mp h'))

namespace Exclusions

open Clause

variable {b : Bindings α} {limits : Limits}

/-- The clauses of the group strictly increase. -/
def Increasing (group : List (Clause α)) : Prop := group.Pairwise fun c d => c.order d = .lt

/-- The clauses of each group strictly increase, and no two groups are equal. -/
structure Distinct (x : Exclusions α) : Prop where
  increasing : ∀ group ∈ x.groups, Increasing group
  apart : x.groups.Pairwise fun g h => (g == h) = false

/-- Exclusions made from the empty ones by adding groups, by extending them with others, as with what
an expression contributes, and by tidying them. -/
inductive Built : Exclusions α → Prop
  | empty : Built empty
  | insert {x : Exclusions α} (group : List (Clause α)) : Built x → Built (x.insert group)
  | extend {x : Exclusions α} (y : Exclusions α) : Built x → Built (x.extend y)
  | tidy {limits : Limits} {x y : Exclusions α} : Built x → x.tidy limits = .ok y → Built y

/-- The clause is in a group of the exclusions. -/
def Contains (x : Exclusions α) (c : Clause α) : Prop := ∃ group ∈ x.groups, c ∈ group

/-- All clauses of the exclusions can be tested at the point: their operands have values there. -/
def Tested (b : Bindings α) (x : Exclusions α) : Prop :=
  x.ForallClauses fun c => ∃ v, c.operand.value b = .ok v

variable [Scalar.Lawful α]

section Groups

/-- Groups that count as equal do so the other way round, and along a chain. -/
instance partialEquivBEq_group : PartialEquivBEq (List (Clause α)) where
  symm {g h} hsame := by
    induction g generalizing h with
    | nil => cases h <;> first | rfl | cases hsame
    | cons c g ih =>
      cases h with
      | nil => cases hsame
      | cons d h =>
        rw [List.cons_beq_cons, Bool.and_eq_true] at hsame ⊢
        exact ⟨BEq.symm hsame.1, ih hsame.2⟩
  trans {g h k} hsame hsame' := by
    induction g generalizing h k with
    | nil => cases h <;> first | exact hsame' | cases hsame
    | cons c g ih =>
      cases h with
      | nil => cases hsame
      | cons d h =>
        cases k with
        | nil => cases hsame'
        | cons e k =>
          rw [List.cons_beq_cons, Bool.and_eq_true] at hsame hsame' ⊢
          exact ⟨PartialEquivBEq.trans hsame.1 hsame'.1, ih hsame.2 hsame'.2⟩

/-- In normal form the clauses of a group strictly increase. -/
theorem increasing_normalGroup (group : List (Clause α)) : Increasing (normalGroup group) := by
  have hsorted : (normalGroup group).Pairwise fun c d => (c.order d != .gt) = true :=
    (pairwise_mergeSort_cmp Clause.order group).sublist (dropRepeats_sublist _)
  have hchain : (normalGroup group).IsChain fun c d => (c == d) = false := isChain_dropRepeats _
  have : Trans (fun c d : Clause α => c.order d = .lt) (fun c d => c.order d = .lt)
      (fun c d => c.order d = .lt) := ⟨Std.TransCmp.lt_trans⟩
  refine List.IsChain.pairwise (List.isChain_iff_getElem.mpr fun i hi => ?_)
  have hle := List.isChain_iff_getElem.mp hsorted.isChain i hi
  have hne := List.isChain_iff_getElem.mp hchain i hi
  rw [← Bool.not_eq_true, beq_iff] at hne
  cases hcd : Clause.order (normalGroup group)[i] (normalGroup group)[i + 1] with
  | lt => rfl
  | eq => exact absurd hcd hne
  | gt => rw [hcd] at hle; cases hle

omit [Scalar.Lawful α] in
/-- A group whose clauses strictly increase is in normal form. -/
theorem normalGroup_of_increasing {group : List (Clause α)} (h : Increasing group) :
    normalGroup group = group := by
  have hsorted : group.Pairwise fun c d => (c.order d != .gt) = true := h.imp fun hcd => by rw [hcd]; rfl
  have hchain : group.IsChain fun c d => (c == d) = false := (h.imp fun {c d} hcd => by
    rw [← Bool.not_eq_true, beq_iff, hcd]
    exact Ordering.noConfusion).isChain
  rw [normalGroup, List.mergeSort_of_pairwise hsorted, dropRepeats_of_isChain hchain]

/-- The first clause of a group whose clauses strictly increase is equal to none that comes after a
clause that is equal to it. -/
theorem groupCovers_tail {c d : Clause α} {g h : List (Clause α)} (hg : Increasing (c :: g))
    (hcd : (c == d) = true) (hcovers : GroupCovers (c :: g) (d :: h)) : GroupCovers g h := by
  intro x hx
  obtain ⟨y, hy, hxy⟩ := hcovers x (List.mem_cons_of_mem c hx)
  obtain rfl | hy := List.mem_cons.mp hy
  · have hlt : c.order x = .lt := List.rel_of_pairwise_cons hg hx
    have hcx : c.order x = .eq := beq_iff.mp (PartialEquivBEq.trans hcd (BEq.symm hxy))
    rw [hcx] at hlt
    cases hlt
  · exact ⟨y, hy, hxy⟩

/-- Groups whose clauses strictly increase and are equal to clauses of the other group are equal. -/
theorem beq_of_covers {g h : List (Clause α)} (hg : Increasing g) (hh : Increasing h)
    (hgh : GroupCovers g h) (hhg : GroupCovers h g) : (g == h) = true := by
  induction g generalizing h with
  | nil =>
    cases h with
    | nil => rfl
    | cons d h =>
      obtain ⟨c, hc, -⟩ := hhg d List.mem_cons_self
      cases hc
  | cons c g ih =>
    cases h with
    | nil =>
      obtain ⟨d, hd, -⟩ := hgh c List.mem_cons_self
      cases hd
    | cons d h =>
      have hcd : (c == d) = true := by
        obtain ⟨y, hy, hcy⟩ := hgh c List.mem_cons_self
        obtain ⟨x, hx, hdx⟩ := hhg d List.mem_cons_self
        obtain rfl | hy := List.mem_cons.mp hy
        · exact hcy
        obtain rfl | hx := List.mem_cons.mp hx
        · exact BEq.symm hdx
        -- each head would come before the other one
        have hlt : d.order c = .lt := by
          rw [Std.TransCmp.congr_right (beq_iff.mp hcy)]
          exact List.rel_of_pairwise_cons hh hy
        have hlt' : c.order d = .lt := by
          rw [Std.TransCmp.congr_right (beq_iff.mp hdx)]
          exact List.rel_of_pairwise_cons hg hx
        have hswap : c.order d = (d.order c).swap := Std.OrientedCmp.eq_swap
        rw [hswap, hlt] at hlt'
        cases hlt'
      rw [List.cons_beq_cons, hcd, Bool.true_and]
      exact ih hg.of_cons hh.of_cons (groupCovers_tail hg hcd hgh)
        (groupCovers_tail hh (BEq.symm hcd) hhg)

/-- The order and the repetition of clauses make no difference to the normal form of a group. -/
theorem normalGroup_beq {g h : List (Clause α)} (hmem : ∀ c, c ∈ h ↔ c ∈ g) :
    (normalGroup h == normalGroup g) = true := by
  have hcovers {g h : List (Clause α)} (hsubset : h ⊆ g) :
      GroupCovers (normalGroup h) (normalGroup g) :=
    (groupCovers_of_subset (List.Subset.trans (normalGroup_subset h) hsubset)).trans
      (groupCovers_normalGroup g)
  exact beq_of_covers (increasing_normalGroup h) (increasing_normalGroup g)
    (hcovers fun c hc => (hmem c).mp hc) (hcovers fun c hc => (hmem c).mpr hc)

end Groups

section Distinct

/-- A group that is added is in normal form, and is not added if there is an equal one. -/
theorem Distinct.insert {x : Exclusions α} (h : x.Distinct) (group : List (Clause α)) :
    (x.insert group).Distinct := by
  rw [Exclusions.insert]
  split
  · exact h
  · rename_i hnew
    constructor
    · exact List.forall_mem_append.mpr
        ⟨h.increasing, List.forall_mem_singleton.mpr (increasing_normalGroup group)⟩
    · refine List.pairwise_append.mpr ⟨h.apart, List.pairwise_singleton _ _, fun g hg kept hkept => ?_⟩
      obtain rfl := List.mem_singleton.mp hkept
      rw [Bool.eq_false_iff, BEq.comm]
      exact fun hsame => hnew (List.contains_iff_exists_mem_beq.mpr ⟨g, hg, hsame⟩)

/-- Adding groups keeps exclusions free of repetition. -/
theorem Distinct.insertAll {x : Exclusions α} (h : x.Distinct) (groups : List (List (Clause α))) :
    (x.insertAll groups).Distinct := by
  induction groups generalizing x with
  | nil => exact h
  | cons group groups ih => exact ih (h.insert group)

omit [Scalar.Lawful α] in
/-- There is no repetition without groups. -/
theorem distinct_empty : (empty : Exclusions α).Distinct where
  increasing _ h := nomatch h
  apart := .nil

/-- Tidying makes exclusions anew, so that nothing is repeated. -/
theorem distinct_tidy {x y : Exclusions α} (h : x.tidy limits = .ok y) : y.Distinct := by
  rw [tidy] at h
  obtain ⟨tidied, -, h⟩ := Reduction.ok_of_bind h
  cases h
  exact distinct_empty.insertAll tidied

/-- Exclusions that were built are free of repetition. -/
theorem Built.distinct {x : Exclusions α} (h : Built x) : x.Distinct := by
  induction h with
  | empty => exact distinct_empty
  | insert group _ ih => exact ih.insert group
  | extend y _ ih => exact ih.insertAll y.groups
  | tidy _ htidy _ => exact distinct_tidy htidy

/-- Adding the groups of exclusions without repetition one by one gives these exclusions again. -/
theorem Distinct.insertAll_groups {x : Exclusions α} (h : x.Distinct) :
    empty.insertAll x.groups = x := by
  suffices hall : ∀ before after : List (List (Clause α)), Distinct ⟨before ++ after⟩ →
      (⟨before⟩ : Exclusions α).insertAll after = ⟨before ++ after⟩ from hall [] x.groups h
  intro before after h
  induction after generalizing before with
  | nil => rw [List.append_nil]; rfl
  | cons group after ih =>
    have hnormal : normalGroup group = group :=
      normalGroup_of_increasing (h.increasing group (by simp))
    have hnew : before.contains group = false := by
      rw [Bool.eq_false_iff, ne_eq, List.contains_iff_exists_mem_beq]
      rintro ⟨g, hg, hsame⟩
      have hapart := (List.pairwise_append.mp h.apart).2.2 g hg group List.mem_cons_self
      rw [BEq.comm, hsame] at hapart
      cases hapart
    have hinsert : (⟨before⟩ : Exclusions α).insert group = ⟨before ++ [group]⟩ := by
      simp only [Exclusions.insert, hnormal, hnew, Bool.false_eq_true, if_false]
    change ((⟨before⟩ : Exclusions α).insert group).insertAll after = _
    rw [List.append_cons] at h ⊢
    rw [hinsert, ih _ h]

/-- A group with the same clauses as one that was added is not added. -/
theorem insert_insert {g h : List (Clause α)} (hmem : ∀ c, c ∈ h ↔ c ∈ g) (x : Exclusions α) :
    (x.insert g).insert h = x.insert g := by
  have hcontains : (x.insert g).groups.contains (normalGroup h) = true := by
    have hsame := normalGroup_beq hmem
    rw [Exclusions.insert, List.contains_iff_exists_mem_beq]
    split
    · rename_i hold
      obtain ⟨kept, hkept, hsame'⟩ := List.contains_iff_exists_mem_beq.mp hold
      exact ⟨kept, hkept, PartialEquivBEq.trans hsame hsame'⟩
    · exact ⟨normalGroup g, List.mem_append_right _ List.mem_cons_self, hsame⟩
  rw [Exclusions.insert]
  exact if_pos hcontains

/-- Groups with the same clauses make the same exclusions when they are added. -/
theorem insert_groups_beq {g h : List (Clause α)} (hmem : ∀ c, c ∈ h ↔ c ∈ g) (x : Exclusions α) :
    ((x.insert h).groups == (x.insert g).groups) = true := by
  have hsame : (normalGroup h == normalGroup g) = true := normalGroup_beq hmem
  have hcontains : x.groups.contains (normalGroup h) = x.groups.contains (normalGroup g) := by
    rw [Bool.eq_iff_iff, List.contains_iff_exists_mem_beq, List.contains_iff_exists_mem_beq]
    simp only [BEq.congr_left hsame]
  simp only [Exclusions.insert, hcontains]
  split
  · exact BEq.rfl
  · generalize x.groups = groups
    induction groups with
    | nil => simp [hsame]
    | cons group groups ih => simpa using ih

/-- Groups with the same clauses are added alike if no two of these count as equal. -/
theorem insert_eq_of_identified {g h : List (Clause α)} (hmem : ∀ c, c ∈ h ↔ c ∈ g)
    (hg : Identified (· ∈ g)) (x : Exclusions α) : x.insert h = x.insert g := by
  have hsame : normalGroup h = normalGroup g :=
    eq_of_beq_of_identified hg (fun c hc => (hmem c).mp (normalGroup_subset h hc))
      (fun c hc => normalGroup_subset g hc) (normalGroup_beq hmem)
  rw [Exclusions.insert, Exclusions.insert, hsame]

end Distinct

section Excluded

omit [Scalar.Lawful α] in
/-- A clause whose operand has a value can be tested. -/
theorem exists_holds_of_value {c : Clause α} (h : ∃ v, c.operand.value b = .ok v) :
    ∃ r, c.holds b = .ok r := by
  obtain ⟨v, hv⟩ := h
  exact ⟨c.test v, by rw [holds, hv]; rfl⟩

/-- Whether a point is excluded can be told where all clauses can be tested, and after groups were
added it is exactly if it was before or one of the groups holds, if clauses that count as equal hold
alike there. -/
theorem excludes_insertAll {x : Exclusions α} {added : List (List (Clause α))}
    (hsame : HoldAlike b fun c => x.Contains c ∨ ∃ g ∈ added, c ∈ g) (hx : x.Tested b)
    (hadded : ∀ g ∈ added, ∀ c ∈ g, ∃ v, c.operand.value b = .ok v) :
    ∃ r s, x.excludes b = .ok r ∧ (x.insertAll added).excludes b = .ok s ∧
      (s = true ↔ r = true ∨ ∃ g ∈ added, ∀ c ∈ g, c.holds b = .ok true) := by
  have htested : x.ForallClauses fun c => ∃ r, c.holds b = .ok r :=
    fun g hg c hc => exists_holds_of_value (hx g hg c hc)
  have htested' : (x.insertAll added).ForallClauses fun c => ∃ r, c.holds b = .ok r :=
    htested.insertAll fun g hg c hc => exists_holds_of_value (hadded g hg c hc)
  obtain ⟨r, hr⟩ := exists_excludes htested
  obtain ⟨s, hs⟩ := exists_excludes htested'
  have hiff := exists_insertAll_or_iff hsame (fun g hg c hc => .inl ⟨g, hg, hc⟩)
    fun g hg c hc => .inr ⟨g, hg, hc⟩
  rw [← excludes_iff htested, ← excludes_iff htested', hr, hs] at hiff
  exact ⟨r, s, hr, hs, by simpa using hiff⟩

/-- Exclusions that were built from the empty ones are a disjunction of conjunctions without repetition:
the clauses of each group strictly increase and no two groups are equal. A group with the same clauses
as another one, in any order and number, makes the same exclusions and changes nothing after that one.
An extension excludes what one or the other excludes, and adding a group excludes in addition the points
at which all its clauses hold, provided that clauses which count as equal hold alike. -/
theorem built_distinct_and_disjunctive {x : Exclusions α} (h : Built x) :
    x.Distinct ∧
      (∀ g g', (∀ c, c ∈ g' ↔ c ∈ g) → (x.insert g).insert g' = x.insert g ∧
        ((x.insert g').groups == (x.insert g).groups) = true ∧
        (Identified (· ∈ g) → x.insert g' = x.insert g)) ∧
      (∀ y b, HoldAlike b (fun c => x.Contains c ∨ y.Contains c) → x.Tested b → y.Tested b →
        ∃ r s, x.excludes b = .ok r ∧ y.excludes b = .ok s ∧ (x.extend y).excludes b = .ok (r || s)) ∧
      ∀ g b, HoldAlike b (fun c => x.Contains c ∨ c ∈ g) → x.Tested b →
        (∀ c ∈ g, ∃ v, c.operand.value b = .ok v) →
        ∃ r s, x.excludes b = .ok r ∧ (x.insert g).excludes b = .ok s ∧
          (s = true ↔ r = true ∨ ∀ c ∈ g, c.holds b = .ok true) := by
  refine ⟨h.distinct, fun g g' hmem => ?_, fun y b hsame hx hy => ?_, fun g b hsame hx hg => ?_⟩
  · exact ⟨insert_insert hmem x, insert_groups_beq hmem x,
      fun hg => insert_eq_of_identified hmem hg x⟩
  · obtain ⟨r, t, hr, ht, hiff⟩ := excludes_insertAll hsame hx hy
    have htested : y.ForallClauses fun c => ∃ r, c.holds b = .ok r :=
      fun g hg c hc => exists_holds_of_value (hy g hg c hc)
    obtain ⟨s, hs⟩ := exists_excludes htested
    rw [← excludes_iff htested, hs, Except.ok.injEq] at hiff
    exact ⟨r, s, hr, hs, ht.trans (congrArg _ (by rw [Bool.eq_iff_iff, hiff, Bool.or_eq_true]))⟩
  · have hsame' : HoldAlike b fun c => x.Contains c ∨ ∃ g' ∈ [g], c ∈ g' := by simpa using hsame
    obtain ⟨r, s, hr, hs, hiff⟩ := excludes_insertAll hsame' hx (List.forall_mem_singleton.mpr hg)
    exact ⟨r, s, hr, hs, by simpa using hiff⟩

/-- Two clauses on one variable make the same group in either order, and the point where that variable
is zero stays excluded when clauses on another one are added. -/
theorem built_distinct_and_disjunctive_pair :
    let low : Clause Float := .plain (.var "x") .le Scalar.zero
    let zero : Clause Float := .plain (.var "x") .eq Scalar.zero
    let other : Clause Float := .plain (.var "y") .eq Scalar.zero
    let x : Exclusions Float := empty.insert [low, zero]
    let y : Exclusions Float := empty.insert [other]
    let b : Bindings Float := ⟨[("x", Scalar.zero), ("y", Scalar.one)]⟩
    Built x ∧ (∀ c, c ∈ [zero, low, zero] ↔ c ∈ [low, zero]) ∧ Identified (· ∈ [low, zero]) ∧
      HoldAlike b (fun c => x.Contains c ∨ y.Contains c) ∧
      HoldAlike b (fun c => x.Contains c ∨ c ∈ [other]) ∧ x.Tested b ∧ y.Tested b ∧
      x.Distinct ∧ x.insert [zero, low, zero] = x.insert [low, zero] ∧
      (∃ r s, x.excludes b = .ok r ∧ y.excludes b = .ok s ∧ (x.extend y).excludes b = .ok (r || s)) ∧
      ∃ r s, x.excludes b = .ok r ∧ (x.insert [other]).excludes b = .ok s ∧
        (s = true ↔ r = true ∨ ∀ c ∈ [other], c.holds b = .ok true) := by
  intro low zero other x y b
  have hx : Built x := .insert _ .empty
  have hmem : ∀ c, c ∈ [zero, low, zero] ↔ c ∈ [low, zero] := by
    intro c
    simp only [List.mem_cons, List.not_mem_nil, or_false]
    tauto
  have hxAll : x.ForallClauses (· ∈ [low, zero, other]) :=
    ForallClauses.insert (fun _ h => nomatch h) (by simp)
  have hyAll : y.ForallClauses (· ∈ [low, zero, other]) :=
    ForallClauses.insert (fun _ h => nomatch h) (by simp)
  have hidentified : Identified (· ∈ [low, zero, other]) := by
    intro c c' hc hc' hsame
    simp only [List.mem_cons, List.not_mem_nil, or_false] at hc hc'
    obtain rfl | rfl | rfl := hc <;> obtain rfl | rfl | rfl := hc' <;>
      first | rfl | exact absurd hsame Bool.false_ne_true
  have halike {p : Clause Float → Prop} (hp : ∀ c, p c → c ∈ [low, zero, other]) : HoldAlike b p := by
    intro c c' hc hc' hsame
    rw [hidentified c c' (hp c hc) (hp c' hc') hsame]
  have hvalue : ∀ c ∈ [low, zero, other], ∃ v, c.operand.value b = .ok v := by
    simp only [List.forall_mem_cons]
    exact ⟨⟨_, rfl⟩, ⟨_, rfl⟩, ⟨_, rfl⟩, by simp⟩
  have hboth : HoldAlike b fun c => x.Contains c ∨ y.Contains c := halike fun c hc => by
    obtain ⟨g, hg, hc⟩ | ⟨g, hg, hc⟩ := hc
    · exact hxAll g hg c hc
    · exact hyAll g hg c hc
  have hone : HoldAlike b fun c => x.Contains c ∨ c ∈ [other] := halike fun c hc => by
    obtain ⟨g, hg, hc⟩ | hc := hc
    · exact hxAll g hg c hc
    · exact List.mem_cons_of_mem _ (List.mem_cons_of_mem _ hc)
  have hxTested : x.Tested b := fun g hg c hc => hvalue c (hxAll g hg c hc)
  have hyTested : y.Tested b := fun g hg c hc => hvalue c (hyAll g hg c hc)
  have hpair : Identified (· ∈ [low, zero]) := fun c c' hc hc' =>
    hidentified c c' (List.mem_append_left [other] hc) (List.mem_append_left [other] hc')
  obtain ⟨hdistinct, hgroups, hextend, hinsert⟩ := built_distinct_and_disjunctive hx
  refine ⟨hx, hmem, hpair, hboth, hone, hxTested, hyTested, hdistinct, ?_, ?_, ?_⟩
  · exact (hgroups _ _ hmem).2.2 hpair
  · exact hextend y b hboth hxTested hyTested
  · exact hinsert [other] b hone hxTested fun c hc =>
      hvalue c (List.mem_cons_of_mem _ (List.mem_cons_of_mem _ hc))

end Excluded

end Exclusions

end SymbolicAlgebra
