import Mathlib
import SymbolicAlgebra.Grammar.Symbol

/-!
# Sets of symbols

A set of symbols is a list in strict order. Adding symbols keeps the order, and it either changes
nothing or makes the list longer; a set within an alphabet is no longer than the alphabet.
-/

namespace SymbolicAlgebra.Symbol

/-- The order of symbols is total. -/
instance : Std.TransCmp order :=
  inferInstanceAs (Std.TransCmp (compareLex (compareOn rank) (compareOn text)))

/-- The list is in strict order, as sets are kept. -/
def Sorted (set : List Symbol) : Prop := set.Pairwise fun s t => s.order t = .lt

/-- A set with a symbol added is in order. -/
theorem Sorted.insert {set : List Symbol} (h : Sorted set) (s : Symbol) :
    Sorted (insert s set) := by
  induction set with
  | nil => exact List.pairwise_singleton _ _
  | cons t set ih =>
    obtain ⟨below, rest⟩ := List.pairwise_cons.mp h
    rw [Symbol.insert]
    cases hst : s.order t with
    | lt =>
      refine List.pairwise_cons.mpr ⟨?_, h⟩
      rw [List.forall_mem_cons]
      exact ⟨hst, fun u hu => Std.TransCmp.lt_trans hst (below u hu)⟩
    | eq => exact h
    | gt =>
      refine List.pairwise_cons.mpr ⟨fun u hu => ?_, ih rest⟩
      obtain rfl | hu := mem_insert.mp hu
      · exact Std.OrientedCmp.lt_of_gt hst
      · exact below u hu

/-- Adding a symbol changes nothing or makes the set longer. -/
theorem insert_grows (s : Symbol) (set : List Symbol) :
    insert s set = set ∨ set.length < (insert s set).length := by
  induction set with
  | nil => exact .inr Nat.one_pos
  | cons t set ih =>
    rw [Symbol.insert]
    cases s.order t with
    | lt => exact .inr (Nat.lt_succ_self _)
    | eq => exact .inl rfl
    | gt =>
      obtain same | longer := ih
      · left
        change t :: insert s set = t :: set
        rw [same]
      · exact .inr (Nat.succ_lt_succ longer)

/-- A set with symbols added is in order. -/
theorem Sorted.insertAll {set : List Symbol} (h : Sorted set) (symbols : List Symbol) :
    Sorted (insertAll symbols set) := by
  induction symbols generalizing set with
  | nil => exact h
  | cons s symbols ih => exact ih (h.insert s)

/-- Adding symbols changes nothing or makes the set longer. -/
theorem insertAll_grows (symbols set : List Symbol) :
    insertAll symbols set = set ∨ set.length < (insertAll symbols set).length := by
  induction symbols generalizing set with
  | nil => exact .inl rfl
  | cons s symbols ih =>
    change insertAll symbols (insert s set) = set ∨ _ < (insertAll symbols (insert s set)).length
    obtain same | longer := insert_grows s set
    · rw [same]
      exact ih set
    · right
      obtain same' | longer' := ih (insert s set)
      · rw [same']
        exact longer
      · omega

/-- A list in strict order repeats nothing. -/
theorem Sorted.nodup {set : List Symbol} (h : Sorted set) : set.Nodup :=
  h.imp fun hlt heq => by
    rw [heq, order_eq_iff.mpr rfl] at hlt
    cases hlt

/-- A set is no longer than a list of all its symbols. -/
theorem Sorted.length_le {set symbols : List Symbol} (h : Sorted set) (hsub : set ⊆ symbols) :
    set.length ≤ symbols.length :=
  (h.nodup.subperm hsub).length_le

/-- Sets with the same symbols are the same. -/
theorem Sorted.ext {set set' : List Symbol} (h : Sorted set) (h' : Sorted set')
    (hmem : ∀ s, s ∈ set ↔ s ∈ set') : set = set' := by
  refine ((List.perm_ext_iff_of_nodup h.nodup h'.nodup).mpr hmem).eq_of_pairwise
    (fun s t _ _ hst hts => ?_) h h'
  rw [Std.OrientedCmp.gt_of_lt hst] at hts
  cases hts

end SymbolicAlgebra.Symbol
