import SymbolicAlgebra.Proofs.Grammar.Language

/-!
# Rules of a grammar

No two rules of a grammar define the same nonterminal, so a nonterminal's rule and whatever is
listed by nonterminals can be looked up.
-/

namespace SymbolicAlgebra

/-- In a list of pairs with distinct keys every pair is found by its key. -/
theorem lookup_of_mem {β γ : Type} [BEq β] [LawfulBEq β] {pairs : List (β × γ)}
    (nodup : (pairs.map Prod.fst).Nodup) {key : β} {value : γ} (h : (key, value) ∈ pairs) :
    pairs.lookup key = some value := by
  induction pairs with
  | nil => cases h
  | cons pair pairs ih =>
    rw [List.map_cons, List.nodup_cons] at nodup
    obtain ⟨fresh, nodup⟩ := nodup
    obtain rfl | h := List.mem_cons.mp h
    · simp [List.lookup]
    · have hne : (key == pair.1) = false := by
        rw [beq_eq_false_iff_ne]
        rintro rfl
        exact fresh (List.mem_map.mpr ⟨_, h, rfl⟩)
      rw [List.lookup, hne]
      exact ih nodup h

/-- What is found by a key is listed with it. -/
theorem mem_of_lookup {β γ : Type} [BEq β] [LawfulBEq β] {pairs : List (β × γ)} {key : β}
    {value : γ} (h : pairs.lookup key = some value) : (key, value) ∈ pairs := by
  induction pairs with
  | nil => cases h
  | cons pair pairs ih =>
    rw [List.lookup] at h
    split at h
    · rename_i heq
      cases h
      rw [beq_iff_eq] at heq
      subst heq
      exact List.mem_cons_self
    · exact List.mem_cons_of_mem _ (ih h)

/-- Rules among which no duplicate is found define different nonterminals. -/
theorem Rule.nodup_of_duplicate? (earlier : List Rule) {rules : List Rule}
    (h : duplicate? earlier rules = none) (nodup : (earlier.map Rule.lhs).Nodup) :
    ((earlier ++ rules).map Rule.lhs).Nodup := by
  induction rules generalizing earlier with
  | nil => simpa using nodup
  | cons rule rules ih =>
    rw [duplicate?] at h
    split at h
    · cases h
    · rename_i hfind
      have fresh : rule.lhs ∉ earlier.map Rule.lhs := by
        intro hmem
        obtain ⟨previous, hprevious, hname⟩ := List.mem_map.mp hmem
        have := List.find?_eq_none.mp hfind previous hprevious
        simp [hname] at this
      have more := ih _ h (by
        rw [List.map_append, List.nodup_append]
        refine ⟨nodup, List.nodup_singleton _, ?_⟩
        rintro a ha b hb rfl
        obtain rfl := List.mem_singleton.mp hb
        exact fresh ha)
      simpa using more

/-- Among rules that define different nonterminals no duplicate is found. -/
theorem Rule.duplicate?_eq_none (earlier : List Rule) {rules : List Rule}
    (h : ((earlier ++ rules).map Rule.lhs).Nodup) : duplicate? earlier rules = none := by
  induction rules generalizing earlier with
  | nil => rfl
  | cons rule rules ih =>
    have hfresh : earlier.find? (·.lhs == rule.lhs) = none := by
      rw [List.map_append, List.map_cons, List.nodup_append] at h
      rw [List.find?_eq_none]
      intro previous hprevious heq
      exact h.2.2 _ (List.mem_map_of_mem hprevious) _ List.mem_cons_self (beq_iff_eq.mp heq)
    rw [duplicate?, hfresh]
    exact ih (earlier ++ [rule]) (by rwa [List.append_assoc])

namespace Grammar

variable {g : Grammar}

/-- The nonterminals of a grammar in the order of its rules. -/
def names (g : Grammar) : List String := g.rules.map Rule.lhs

/-- Every nonterminal has only one rule. -/
theorem nodup_names (g : Grammar) : g.names.Nodup := by
  have sound := g.sound
  rw [fault?] at sound
  split at sound
  · cases sound
  · rename_i hduplicate
    exact Rule.nodup_of_duplicate? [] hduplicate List.nodup_nil

/-- A rule is found by its nonterminal. -/
theorem rule?_of_mem {rule : Rule} (h : rule ∈ g.rules) : g.rule? rule.lhs = some rule := by
  have nodup := nodup_names g
  rw [names] at nodup
  rw [rule?]
  generalize g.rules = rules at *
  induction rules with
  | nil => cases h
  | cons first rules ih =>
    rw [List.map_cons, List.nodup_cons] at nodup
    obtain ⟨fresh, nodup⟩ := nodup
    obtain rfl | h := List.mem_cons.mp h
    · simp
    · have hne : (first.lhs == rule.lhs) = false := by
        rw [beq_eq_false_iff_ne]
        intro heq
        exact fresh (heq ▸ List.mem_map.mpr ⟨rule, h, rfl⟩)
      rw [List.find?_cons, hne]
      exact ih h nodup

/-- What is found by a nonterminal is its rule. -/
theorem mem_of_rule? {name : String} {rule : Rule} (h : g.rule? name = some rule) :
    rule ∈ g.rules ∧ rule.lhs = name := by
  rw [rule?] at h
  exact ⟨List.mem_of_find?_eq_some h, by simpa using List.find?_some h⟩

/-- Nothing is wrong with rules that define different nonterminals, among these all that are used, and
have no alternative without symbols. -/
theorem fault?_eq_none {rules : List Rule} (hnodup : (rules.map Rule.lhs).Nodup)
    (hne : ∀ rule ∈ rules, ∀ alternative ∈ rule.alternatives, alternative ≠ [])
    (hdefined : ∀ rule ∈ rules, ∀ alternative ∈ rule.alternatives, ∀ name,
      Symbol.nonterminal name ∈ alternative → name ∈ rules.map Rule.lhs) : fault? rules = none := by
  rw [fault?, Rule.duplicate?_eq_none [] hnodup]
  simp only [List.findSome?_eq_none_iff]
  intro rule hrule alternative halternative
  rw [Rule.alternativeFault?, if_neg (by simpa using hne rule hrule alternative halternative),
    List.findSome?_eq_none_iff]
  intro symbol hsymbol
  cases symbol with
  | nonterminal name =>
    have hname := hdefined rule hrule alternative halternative name hsymbol
    exact if_pos (by simpa using hname)
  | terminal _ => rfl
  | epsilon => rfl
  | endMarker => rfl

/-- One or more rules that nothing is wrong with make up a grammar. -/
theorem ofRules?_eq_ok {rules : List Rule} (hne : rules ≠ []) (h : fault? rules = none) :
    ∃ g, ofRules? rules = .ok g ∧ g.rules = rules := by
  obtain ⟨first, others, rfl⟩ := List.exists_cons_of_ne_nil hne
  refine ⟨⟨first, others, h⟩, ?_, rfl⟩
  simp only [ofRules?]
  split
  · rename_i hfault
    rw [h] at hfault
    cases hfault
  · rfl

end Grammar

end SymbolicAlgebra
