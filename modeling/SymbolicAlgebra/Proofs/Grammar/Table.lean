import SymbolicAlgebra.Grammar.Table
import SymbolicAlgebra.Proofs.Grammar.Lookahead

/-!
# What a table gives

Where a table could be built, it gives for a nonterminal and the symbol that comes next nothing but
alternatives of that nonterminal, and every alternative that the symbol shows is to be taken. The
latter holds since no symbol is claimed twice in a row.
-/

namespace SymbolicAlgebra

namespace Table

/-- Claiming symbols keeps what is claimed already and gives all of them to the alternative. -/
theorem claim_ok {rule : Rule} {index : Nat} {row row' : List (Symbol × Nat)}
    {symbols : List Symbol} (h : claim rule index row symbols = .ok row') :
    (∀ s n, row.lookup s = some n → row'.lookup s = some n) ∧
      ∀ s ∈ symbols, row'.lookup s = some index := by
  induction symbols generalizing row with
  | nil =>
    cases h
    exact ⟨fun _ _ h => h, by simp⟩
  | cons symbol symbols ih =>
    rw [claim] at h
    split at h
    · cases h
    · rename_i hfree
      obtain ⟨kept, claimed⟩ := ih h
      have hnew : (row ++ [(symbol, index)]).lookup symbol = some index := by
        rw [List.lookup_append, hfree, Option.none_or]
        simp [List.lookup]
      refine ⟨fun s n hs => kept s n ?_, ?_⟩
      · rw [List.lookup_append, hs, Option.some_or]
      · rw [List.forall_mem_cons]
        exact ⟨kept _ _ hnew, claimed⟩

/-- A filled row gives every symbol that shows an alternative to be taken to that alternative. -/
theorem fillRow_ok {rule : Rule} {index : Nat} {row row' : List (Symbol × Nat)}
    {claims : List (List Symbol)} (h : fillRow rule index row claims = .ok row') :
    (∀ s n, row.lookup s = some n → row'.lookup s = some n) ∧
      ∀ i symbols, claims[i]? = some symbols → ∀ s ∈ symbols,
        row'.lookup s = some (index + i) := by
  induction claims generalizing index row with
  | nil =>
    cases h
    exact ⟨fun _ _ h => h, by simp⟩
  | cons symbols claims ih =>
    rw [fillRow] at h
    cases hclaim : claim rule index row symbols with
    | error failure => rw [hclaim] at h; cases h
    | ok next =>
      rw [hclaim] at h
      obtain ⟨kept, claimed⟩ := claim_ok hclaim
      obtain ⟨kept', claimed'⟩ := ih h
      refine ⟨fun s n hs => kept' s n (kept s n hs), fun i given hgiven s hs => ?_⟩
      cases i with
      | zero =>
        cases hgiven
        exact kept' s index (claimed s hs)
      | succ i =>
        rw [List.getElem?_cons_succ] at hgiven
        rw [claimed' i given hgiven s hs]
        congr 1
        omega

/-- A list of results without a failure is made of the results of its elements. -/
theorem forall₂_of_mapM {β γ ε : Type} {f : β → Except ε γ} {bs : List β} {cs : List γ}
    (h : bs.mapM f = .ok cs) : List.Forall₂ (fun b c => f b = .ok c) bs cs := by
  induction bs generalizing cs with
  | nil =>
    cases h
    exact .nil
  | cons b bs ih =>
    rw [List.mapM_cons] at h
    cases hb : f b with
    | error failure => rw [hb] at h; cases h
    | ok c =>
      cases hbs : bs.mapM f with
      | error failure => rw [hb, hbs] at h; cases h
      | ok rest =>
        rw [hb, hbs] at h
        cases h
        exact .cons hb (ih hbs)

/-- What is known of a table that could be built. -/
structure Built (g : Grammar) (table : Table) : Prop where
  grammar : table.grammar = g
  first : table.first = g.firstSets table.alphabet
  follow : table.follow = g.followSets table.alphabet table.first
  covered : g.Covered table.alphabet
  rows : List.Forall₂ (fun rule row => row.1 = rule.lhs ∧
    fillRow rule 0 [] (rule.alternatives.map
      (lookaheads table.alphabet table.first table.follow rule.lhs)) = .ok row.2)
    g.rules table.rows

/-- Where no terminal is found to be unknown the alphabet covers the grammar. -/
theorem covered_of_unknownTerminal? {g : Grammar} {alphabet : List String}
    (h : unknownTerminal? g alphabet = none) : g.Covered alphabet := by
  rintro lhs alternative ⟨rule, hrule, rfl, halternative⟩ name hname
  rw [unknownTerminal?, List.findSome?_eq_none_iff] at h
  have hmem : (rule, Symbol.terminal name) ∈ g.symbols := by
    refine List.mem_flatMap.mpr ⟨rule, hrule, List.mem_map.mpr ⟨_, ?_, rfl⟩⟩
    exact List.mem_flatten.mpr ⟨alternative, halternative, hname⟩
  have := h _ hmem
  simpa using this

/-- Building a table succeeds only with these properties. -/
theorem built_of_build {g : Grammar} {names : List String} {table : Table}
    (h : build g names = .ok table) : Built g table := by
  rw [build] at h
  dsimp only at h
  split at h
  · cases h
  · rename_i hunknown
    generalize sortNames names = alphabet at *
    cases hrows : g.rules.mapM fun rule => do
        let row ← fillRow rule 0 [] (rule.alternatives.map (lookaheads alphabet
          (g.firstSets alphabet) (g.followSets alphabet (g.firstSets alphabet)) rule.lhs))
        return (rule.lhs, row) with
    | error failure => rw [hrows] at h; cases h
    | ok rows =>
      rw [hrows] at h
      cases h
      refine ⟨rfl, rfl, rfl, covered_of_unknownTerminal? hunknown, ?_⟩
      refine (forall₂_of_mapM hrows).imp fun rule row hrow => ?_
      cases hfill : fillRow rule 0 [] (rule.alternatives.map (lookaheads alphabet
          (g.firstSets alphabet) (g.followSets alphabet (g.firstSets alphabet)) rule.lhs)) with
      | error failure => rw [hfill] at hrow; cases hrow
      | ok filled =>
        rw [hfill] at hrow
        cases hrow
        exact ⟨rfl, rfl⟩

variable {g : Grammar} {table : Table}

/-- The rows are those of the nonterminals in the order of the rules. -/
theorem Built.names (h : Built g table) : table.rows.map Prod.fst = g.names := by
  rw [Grammar.names]
  have rows := h.rows
  generalize g.rules = rules, table.rows = all at rows
  induction rows with
  | nil => rfl
  | cons hrow _ ih => rw [List.map_cons, List.map_cons, hrow.1, ih]

/-- The row of a rule is found by its nonterminal. -/
theorem Built.row (h : Built g table) {rule : Rule} (hrule : rule ∈ g.rules) :
    ∃ row, table.rows.lookup rule.lhs = some row ∧
      fillRow rule 0 [] (rule.alternatives.map
        (lookaheads table.alphabet table.first table.follow rule.lhs)) = .ok row := by
  have nodup : (table.rows.map Prod.fst).Nodup := h.names ▸ Grammar.nodup_names g
  have listed : ∃ row ∈ table.rows, row.1 = rule.lhs ∧
      fillRow rule 0 [] (rule.alternatives.map
        (lookaheads table.alphabet table.first table.follow rule.lhs)) = .ok row.2 := by
    have rows := h.rows
    generalize g.rules = rules, table.rows = all at rows hrule
    induction rows with
    | nil => cases hrule
    | cons hrow _ ih =>
      obtain rfl | hrule := List.mem_cons.mp hrule
      · exact ⟨_, List.mem_cons_self, hrow⟩
      · obtain ⟨row, hmem, hrow⟩ := ih hrule
        exact ⟨row, List.mem_cons_of_mem _ hmem, hrow⟩
  obtain ⟨⟨name, row⟩, hmem, rfl, hfill⟩ := listed
  exact ⟨row, lookup_of_mem nodup hmem, hfill⟩

/-- A table gives alternatives of the nonterminal only. -/
theorem Built.produces_of_lookup? (h : Built g table) {name : String} {next : Symbol}
    {alternative : List Symbol} (hlookup : table.lookup? name next = some alternative) :
    g.Produces name alternative := by
  simp only [lookup?, Option.bind_eq_bind, Option.bind_eq_some_iff] at hlookup
  obtain ⟨row, -, index, -, rule, hrule, halternative⟩ := hlookup
  rw [h.grammar] at hrule
  obtain ⟨hmem, rfl⟩ := Grammar.mem_of_rule? hrule
  exact ⟨rule, hmem, rfl, List.mem_of_getElem? halternative⟩

/-- A table gives an alternative for every symbol that shows it to be taken. -/
theorem Built.lookup?_of_produces (h : Built g table) {name : String} {next : Symbol}
    {alternative : List Symbol} (hproduces : g.Produces name alternative)
    (hnext : next ∈ lookaheads table.alphabet table.first table.follow name alternative) :
    table.lookup? name next = some alternative := by
  obtain ⟨rule, hrule, rfl, halternative⟩ := hproduces
  obtain ⟨row, hrow, hfill⟩ := h.row hrule
  obtain ⟨index, hindex⟩ := List.getElem?_of_mem halternative
  have hclaim := (fillRow_ok hfill).2 index _ (by rw [List.getElem?_map, hindex]; rfl) next hnext
  rw [Nat.zero_add] at hclaim
  have hrule? : table.grammar.rule? rule.lhs = some rule := by
    rw [h.grammar]
    exact Grammar.rule?_of_mem hrule
  simp only [lookup?, hrow, hclaim, hrule?, hindex, Option.bind_eq_bind, Option.bind_some]

/-- The lookahead sets of a table contain what is gathered from them. -/
theorem Built.closed (h : Built g table) :
    g.Closed table.alphabet table.first table.follow := by
  rw [h.follow, h.first]
  exact Grammar.closed g table.alphabet

/-- An alternative is shown to be taken by the first symbol of a word that it yields, and where it
yields the empty word by what follows the nonterminal. -/
theorem Built.lookup?_of_yields (h : Built g table) {name : String} {alternative : List Symbol}
    (hproduces : g.Produces name alternative) {word next : List String}
    (hyields : g.Yields alternative word) {t : String} (hnext : (word ++ next).head? = some t)
    (hfollow : word = [] → .terminal t ∈ Grammar.setOf table.follow name) :
    table.lookup? name (.terminal t) = some alternative := by
  have hbegins := h.closed.begins_of_yields h.covered hyields (h.covered name _ hproduces)
  refine h.lookup?_of_produces hproduces ?_
  rw [lookaheads]
  cases word with
  | nil =>
    have hvanish : (Grammar.firstOfSequence table.alphabet table.first alternative).contains
        .epsilon = true := by simpa using hbegins
    rw [if_pos hvanish, Symbol.mem_insertAll]
    exact .inl (hfollow rfl)
  | cons s word =>
    cases hnext
    have hfilter : .terminal t ∈
        (Grammar.firstOfSequence table.alphabet table.first alternative).filter (· ≠ .epsilon) :=
      List.mem_filter.mpr ⟨hbegins, by simp⟩
    split
    · exact Symbol.mem_insertAll.mpr (.inr hfilter)
    · exact hfilter

/-- A nonterminal can vanish according to the table exactly if it yields the empty word. -/
theorem Built.isNullable_iff (h : Built g table) {name : String} :
    table.isNullable (.nonterminal name) = true ↔ g.Yields [.nonterminal name] [] := by
  have hset : table.isNullable (.nonterminal name) = true ↔
      .epsilon ∈ Grammar.setOf table.first name := by
    simp only [isNullable, first?, Grammar.firstOf?, Grammar.setOf, List.contains_iff_mem]
  rw [hset]
  constructor
  · intro hvanish
    rw [h.first] at hvanish
    exact Grammar.vanishing_firstSets g table.alphabet name hvanish
  · intro hyields
    obtain ⟨alternative, hproduces, hyields⟩ := Grammar.yields_nonterminal.mp hyields
    exact h.closed.begins hproduces
      (h.closed.begins_of_yields h.covered hyields (h.covered name _ hproduces))

end Table

end SymbolicAlgebra
