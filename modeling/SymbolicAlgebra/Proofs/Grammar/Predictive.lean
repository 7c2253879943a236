import SymbolicAlgebra.Proofs.Grammar.Follow
import SymbolicAlgebra.Proofs.Grammar.Table
import SymbolicAlgebra.Proofs.Names

/-!
# Grammars that have a table

A grammar has a table exactly if its terminals are known and no symbol shows two alternatives of one
nonterminal to be taken; the table then gives for every symbol the alternative that it shows. Otherwise
the first clash is reported: rows are filled alternative by alternative, each with its symbols in order,
and a row that could be filled so far tells exactly which of the alternatives before claim which symbol.
-/

namespace SymbolicAlgebra

/-- Two alternatives, given by their numbers, claim the same symbol. -/
structure Clash (claims : Nat → Symbol → Prop) (first second : Nat) (s : Symbol) : Prop where
  earlier : first < second
  claimed : claims first s
  claimedAgain : claims second s

/-- The clash that comes first: no smaller alternative clashes with an earlier one, and this one with
no smaller symbol. -/
structure FirstClash (claims : Nat → Symbol → Prop) (first second : Nat) (s : Symbol) : Prop
    extends Clash claims first second s where
  least_alternative : ∀ i j t, Clash claims i j t → second ≤ j
  least_symbol : ∀ i t, Clash claims i second t → s.order t ≠ .gt

/-- The symbol shows that the alternative of the rule with this number is to be taken. -/
def Grammar.Claims (g : Grammar) (rule : Rule) (index : Nat) (s : Symbol) : Prop :=
  ∃ alternative, rule.alternatives[index]? = some alternative ∧ g.Predicts rule.lhs alternative s

namespace Table

/-- The symbol is in the set with this number. -/
def Listed (sets : List (List Symbol)) (index : Nat) (s : Symbol) : Prop :=
  ∃ set, sets[index]? = some set ∧ s ∈ set

/-- The row gives every symbol to the only alternative that claims it. -/
def Gives (row : List (Symbol × Nat)) (claims : Nat → Symbol → Prop) : Prop :=
  ∀ s index, row.lookup s = some index ↔ claims index s

/-- Where a row gives every symbol to an alternative no two alternatives clash. -/
theorem Gives.not_clash {row : List (Symbol × Nat)} {claims : Nat → Symbol → Prop}
    (h : Gives row claims) {i j : Nat} {s : Symbol} : ¬ Clash claims i j s := by
  rintro ⟨hij, hi, hj⟩
  rw [← h] at hi hj
  rw [hi, Option.some.injEq] at hj
  omega

/-- The sets before the last ones are listed as they were. -/
theorem listed_append_of_lt {done rest : List (List Symbol)} {index : Nat}
    (h : index < done.length) {s : Symbol} :
    Listed (done ++ rest) index s ↔ Listed done index s := by
  rw [Listed, List.getElem?_append_left h, Listed]

/-- The set after some sets is listed with their number. -/
theorem listed_append_length {done rest : List (List Symbol)} {set : List Symbol} {s : Symbol} :
    Listed (done ++ set :: rest) done.length s ↔ s ∈ set := by
  simp [Listed]

/-- Only numbers of sets list symbols. -/
theorem Listed.lt_length {sets : List (List Symbol)} {index : Nat} {s : Symbol}
    (h : Listed sets index s) : index < sets.length := by
  obtain ⟨set, hset, -⟩ := h
  exact (List.getElem?_eq_some_iff.mp hset).1

/-- With one more set its symbols are listed besides those of the others. -/
theorem listed_concat_iff {done : List (List Symbol)} {set : List Symbol} {index : Nat}
    {s : Symbol} :
    Listed (done ++ [set]) index s ↔ Listed done index s ∨ (index = done.length ∧ s ∈ set) := by
  constructor
  · intro h
    have hlt := h.lt_length
    rw [List.length_append, List.length_singleton] at hlt
    obtain hlt | rfl := Nat.lt_succ_iff_lt_or_eq.mp hlt
    · exact .inl ((listed_append_of_lt hlt).mp h)
    · exact .inr ⟨rfl, listed_append_length.mp h⟩
  · rintro (h | ⟨rfl, hs⟩)
    · exact (listed_append_of_lt h.lt_length).mpr h
    · exact listed_append_length.mpr hs

/-- Claiming symbols one by one succeeds and gives them to the alternative, or it stops at the first of
them that is taken. -/
theorem claim_outcome (rule : Rule) (index : Nat) (row : List (Symbol × Nat))
    {symbols : List Symbol} (hnodup : symbols.Nodup) :
    (∃ row', claim rule index row symbols = .ok row' ∧ (∀ s ∈ symbols, row.lookup s = none) ∧
      (∀ s ∈ symbols, row'.lookup s = some index) ∧
      ∀ s ∉ symbols, row'.lookup s = row.lookup s) ∨
    ∃ before s after earlier, symbols = before ++ s :: after ∧
      (∀ t ∈ before, row.lookup t = none) ∧ row.lookup s = some earlier ∧
      claim rule index row symbols =
        .error (.located rule.span (.grammarConflict rule.lhs s.text earlier index)) := by
  induction symbols generalizing row with
  | nil => exact .inl ⟨row, rfl, by simp, by simp, fun _ _ => rfl⟩
  | cons symbol symbols ih =>
    obtain ⟨hfresh, hnodup⟩ := List.nodup_cons.mp hnodup
    rw [claim]
    cases hsymbol : row.lookup symbol with
    | some earlier => exact .inr ⟨[], symbol, symbols, earlier, rfl, by simp, hsymbol, rfl⟩
    | none =>
      have hadded {s : Symbol} (hs : s ≠ symbol) :
          (row ++ [(symbol, index)]).lookup s = row.lookup s := by
        have hne : (s == symbol) = false := beq_eq_false_iff_ne.mpr hs
        rw [List.lookup_append, List.lookup_cons, hne]
        simp
      have hne {s : Symbol} (hs : s ∈ symbols) : s ≠ symbol := fun heq => hfresh (heq ▸ hs)
      obtain ⟨row', hrow', hfree, hclaimed, hkept⟩ | ⟨before, s, after, earlier, rfl, hfree, hs,
        herror⟩ := ih (row ++ [(symbol, index)]) hnodup
      · refine .inl ⟨row', hrow', ?_, ?_, ?_⟩
        · rw [List.forall_mem_cons]
          exact ⟨hsymbol, fun s hs => hadded (hne hs) ▸ hfree s hs⟩
        · rw [List.forall_mem_cons]
          refine ⟨?_, hclaimed⟩
          rw [hkept symbol hfresh, List.lookup_append, hsymbol]
          simp
        · intro s hs
          rw [List.mem_cons, not_or] at hs
          rw [hkept s hs.2, hadded hs.1]
      · refine .inr ⟨symbol :: before, s, after, earlier, rfl, ?_, ?_, herror⟩
        · rw [List.forall_mem_cons]
          exact ⟨hsymbol, fun t ht => hadded (hne (List.mem_append_left _ ht)) ▸ hfree t ht⟩
        · rw [← hadded (hne (List.mem_append_right _ List.mem_cons_self))]
          exact hs

/-- A row is filled so that it gives every symbol to the alternative that claims it, or it is not
filled for the first clash of all alternatives. -/
theorem fillRow_outcome (rule : Rule) {done rest : List (List Symbol)}
    (hsorted : ∀ set ∈ rest, Symbol.Sorted set) {row : List (Symbol × Nat)}
    (hrow : Gives row (Listed done)) :
    (∃ row', fillRow rule done.length row rest = .ok row' ∧ Gives row' (Listed (done ++ rest))) ∨
    ∃ i j s, FirstClash (Listed (done ++ rest)) i j s ∧
      fillRow rule done.length row rest =
        .error (.located rule.span (.grammarConflict rule.lhs s.text i j)) := by
  induction rest generalizing done row with
  | nil => exact .inl ⟨row, rfl, by simpa using hrow⟩
  | cons set rest ih =>
    rw [List.forall_mem_cons] at hsorted
    rw [fillRow]
    obtain ⟨row', hrow', hfree, hclaimed, hkept⟩ | ⟨before, s, after, earlier, rfl, hfree, hs,
      herror⟩ := claim_outcome rule done.length row hsorted.1.nodup
    · have hgives : Gives row' (Listed (done ++ [set])) := by
        intro s index
        rw [listed_concat_iff]
        by_cases hs : s ∈ set
        · have hnone : ¬ Listed done index s := by
            rw [← hrow, hfree s hs]
            simp
          rw [hclaimed s hs, Option.some.injEq, eq_comm]
          tauto
        · rw [hkept s hs, hrow]
          tauto
      have hfilled := ih hsorted.2 hgives
      rw [List.length_append, List.length_singleton, List.append_assoc] at hfilled
      rw [hrow']
      exact hfilled
    · have hlisted := (hrow s earlier).mp hs
      have hset {t : Symbol} : Listed (done ++ (before ++ s :: after) :: rest) done.length t ↔
          t ∈ before ++ s :: after := listed_append_length
      refine .inr ⟨earlier, done.length, s, ⟨⟨hlisted.lt_length,
        (listed_append_of_lt hlisted.lt_length).mpr hlisted,
        hset.mpr (List.mem_append_right _ List.mem_cons_self)⟩,
        fun i j t hclash => ?_, fun i t hclash => ?_⟩, by rw [herror]; rfl⟩
      · -- alternatives whose symbols are all in the row do not clash
        by_contra! hlt
        refine hrow.not_clash (i := i) (j := j) (s := t) ⟨hclash.earlier, ?_, ?_⟩
        · exact (listed_append_of_lt (hclash.earlier.trans hlt)).mp hclash.claimed
        · exact (listed_append_of_lt hlt).mp hclash.claimedAgain
      · have htaken := (listed_append_of_lt hclash.earlier).mp hclash.claimed
        rw [← hrow] at htaken
        obtain hbefore | htail := List.mem_append.mp (hset.mp hclash.claimedAgain)
        · rw [hfree t hbefore] at htaken
          cases htaken
        · obtain rfl | hafter := List.mem_cons.mp htail
          · simp [Symbol.order_eq_iff.mpr]
          · have hsorted' := (List.pairwise_append.mp hsorted.1).2.1
            rw [(List.pairwise_cons.mp hsorted').1 t hafter]
            decide

/-- What shows an alternative to be taken is in order. -/
theorem sorted_lookaheads {g : Grammar} {alphabet : List String} {first follow : Grammar.Sets}
    (h : g.Fits alphabet first) (lhs : String) (alternative : List Symbol) :
    Symbol.Sorted (lookaheads alphabet first follow lhs alternative) := by
  have hsorted := (Grammar.sorted_firstOfSequence h alternative).filter (· ≠ .epsilon)
  rw [lookaheads]
  split
  · exact Symbol.Sorted.insertAll hsorted _
  · exact hsorted

/-- The computed lookaheads of an alternative are the symbols that show it to be taken. -/
theorem mem_lookaheads_iff_predicts {g : Grammar} {alphabet : List String}
    (hcovered : g.Covered alphabet) {lhs : String} {alternative : List Symbol}
    (hproduces : g.Produces lhs alternative) {s : Symbol} :
    s ∈ lookaheads alphabet (g.firstSets alphabet) (g.followSets alphabet (g.firstSets alphabet))
        lhs alternative ↔ g.Predicts lhs alternative s := by
  have hlhs : lhs ∈ g.names := by
    obtain ⟨rule, hrule, rfl, -⟩ := hproduces
    exact List.mem_map.mpr ⟨rule, hrule, rfl⟩
  have hfits := (Grammar.firstSets_settled g alphabet).1
  refine Grammar.mem_followAt.trans ?_
  rw [Grammar.mem_followSets_iff_follows hcovered hlhs, Grammar.epsilon_mem_firstSets_iff,
    Grammar.Predicts]
  constructor
  · rintro (⟨hs, hne⟩ | ⟨hvanish, hnext, hfollows⟩)
    · have hnext := (Grammar.isNext_of_mem_firstOfSequence hfits hs).resolve_right hne
      exact ⟨hnext, .inl ((Grammar.mem_firstSets_iff_begins hcovered
        (hcovered lhs alternative hproduces) hnext).mp hs)⟩
    · exact ⟨hnext, .inr ⟨hvanish, hfollows⟩⟩
  · rintro ⟨hnext, hbegins | ⟨hvanish, hfollows⟩⟩
    · refine .inl ⟨(Grammar.mem_firstSets_iff_begins hcovered
        (hcovered lhs alternative hproduces) hnext).mpr hbegins, ?_⟩
      rintro rfl
      cases hnext
    · exact .inr ⟨hvanish, hnext, hfollows⟩

/-- The lookaheads of a rule's alternatives list what its alternatives claim. -/
theorem listed_lookaheads {g : Grammar} {alphabet : List String} (hcovered : g.Covered alphabet)
    {rule : Rule} (hrule : rule ∈ g.rules) :
    Listed (rule.alternatives.map (lookaheads alphabet (g.firstSets alphabet)
      (g.followSets alphabet (g.firstSets alphabet)) rule.lhs)) = g.Claims rule := by
  funext index s
  rw [Listed, Grammar.Claims]
  simp only [List.getElem?_map, Option.map_eq_some_iff, eq_iff_iff]
  constructor
  · rintro ⟨_, ⟨alternative, halternative, rfl⟩, hs⟩
    have hproduces : g.Produces rule.lhs alternative :=
      ⟨rule, hrule, rfl, List.mem_of_getElem? halternative⟩
    exact ⟨alternative, halternative, (mem_lookaheads_iff_predicts hcovered hproduces).mp hs⟩
  · rintro ⟨alternative, halternative, hs⟩
    have hproduces : g.Produces rule.lhs alternative :=
      ⟨rule, hrule, rfl, List.mem_of_getElem? halternative⟩
    exact ⟨_, ⟨alternative, halternative, rfl⟩,
      (mem_lookaheads_iff_predicts hcovered hproduces).mpr hs⟩

/-- The names in a sorted list of names are those of the list. -/
theorem mem_sortNames {name : String} {names : List String} :
    name ∈ sortNames names ↔ name ∈ names :=
  mem_eraseReps_mergeSort

/-- A list of results is complete, or it has the first failure among them. -/
theorem mapM_outcome {β γ ε : Type} (f : β → Except ε γ) (bs : List β) :
    (∃ cs, bs.mapM f = .ok cs) ∨
    ∃ before b after failure, bs = before ++ b :: after ∧ (∀ x ∈ before, ∃ c, f x = .ok c) ∧
      f b = .error failure ∧ bs.mapM f = .error failure := by
  induction bs with
  | nil => exact .inl ⟨[], rfl⟩
  | cons b bs ih =>
    rw [List.mapM_cons]
    cases hb : f b with
    | error failure => exact .inr ⟨[], b, bs, failure, rfl, by simp, hb, rfl⟩
    | ok c =>
      obtain ⟨cs, hcs⟩ | ⟨before, b', after, failure, rfl, hbefore, hb', hbs⟩ := ih
      · exact .inl ⟨c :: cs, by rw [hcs]; rfl⟩
      · refine .inr ⟨b :: before, b', after, failure, rfl, ?_, hb', by rw [hbs]; rfl⟩
        rw [List.forall_mem_cons]
        exact ⟨⟨c, hb⟩, hbefore⟩

/-- No terminal is found to be unknown where the alphabet covers the grammar. -/
theorem unknownTerminal?_eq_none_iff {g : Grammar} {alphabet : List String} :
    unknownTerminal? g alphabet = none ↔ g.Covered alphabet := by
  refine ⟨covered_of_unknownTerminal?, fun hcovered => List.findSome?_eq_none_iff.mpr ?_⟩
  rintro ⟨rule, symbol⟩ hmem
  obtain ⟨rule', hrule, hsymbol⟩ := List.mem_flatMap.mp hmem
  obtain ⟨symbol', hsymbol, heq⟩ := List.mem_map.mp hsymbol
  cases heq
  obtain ⟨alternative, halternative, hsymbol⟩ := List.mem_flatten.mp hsymbol
  cases symbol with
  | terminal name =>
    have hname := hcovered rule.lhs alternative ⟨rule, hrule, rfl, halternative⟩ name hsymbol
    exact if_pos (List.contains_iff_mem.mpr hname)
  | nonterminal name => rfl
  | epsilon => rfl
  | endMarker => rfl

/-- Sorting the names of an alphabet does not change what it covers. -/
theorem covered_sortNames_iff {g : Grammar} {names : List String} :
    g.Covered (sortNames names) ↔ g.Covered names := by
  simp only [Grammar.Covered, Grammar.Covers, mem_sortNames]

/-- The row of a rule can be filled, or the first clash of its alternatives is found. -/
theorem fillRow_outcome_of_covered {g : Grammar} {alphabet : List String}
    (hcovered : g.Covered alphabet) {rule : Rule} (hrule : rule ∈ g.rules) :
    (∃ row, fillRow rule 0 [] (rule.alternatives.map (lookaheads alphabet (g.firstSets alphabet)
        (g.followSets alphabet (g.firstSets alphabet)) rule.lhs)) = .ok row ∧
      Gives row (g.Claims rule)) ∨
    ∃ i j s, FirstClash (g.Claims rule) i j s ∧
      fillRow rule 0 [] (rule.alternatives.map (lookaheads alphabet (g.firstSets alphabet)
        (g.followSets alphabet (g.firstSets alphabet)) rule.lhs)) =
        .error (.located rule.span (.grammarConflict rule.lhs s.text i j)) := by
  have hsorted : ∀ set ∈ rule.alternatives.map (lookaheads alphabet (g.firstSets alphabet)
      (g.followSets alphabet (g.firstSets alphabet)) rule.lhs), Symbol.Sorted set := by
    intro set hset
    obtain ⟨alternative, -, rfl⟩ := List.mem_map.mp hset
    exact sorted_lookaheads (Grammar.firstSets_settled g alphabet).1 _ _
  have hempty : Gives [] (Listed []) := by
    intro s index
    simp [Listed]
  have := fillRow_outcome rule hsorted hempty
  rwa [List.nil_append, listed_lookaheads hcovered hrule] at this

/-- A grammar whose terminals are known has a table, or it is refused for the first clash in the first
rule that has any. -/
theorem build_outcome {g : Grammar} {names : List String} (hcovered : g.Covered names) :
    (∃ table, build g names = .ok table) ∨
    ∃ before rule after i j s, g.rules = before ++ rule :: after ∧
      (∀ other ∈ before, ∀ i j s, ¬ Clash (g.Claims other) i j s) ∧
      FirstClash (g.Claims rule) i j s ∧
      build g names = .error (.located rule.span (.grammarConflict rule.lhs s.text i j)) := by
  rw [← covered_sortNames_iff] at hcovered
  rw [build]
  simp only [unknownTerminal?_eq_none_iff.mpr hcovered]
  generalize sortNames names = alphabet at *
  obtain ⟨rows, hrows⟩ | ⟨before, rule, after, failure, hrules, hbefore, hrule, hfailure⟩ :=
    mapM_outcome (fun rule => do
      let row ← fillRow rule 0 [] (rule.alternatives.map (lookaheads alphabet
        (g.firstSets alphabet) (g.followSets alphabet (g.firstSets alphabet)) rule.lhs))
      return (rule.lhs, row)) g.rules
  · left
    rw [hrows]
    exact ⟨_, rfl⟩
  · right
    have hmem : rule ∈ g.rules := hrules ▸ List.mem_append_right _ List.mem_cons_self
    obtain ⟨row, hrow, -⟩ | ⟨i, j, s, hclash, hrow⟩ := fillRow_outcome_of_covered hcovered hmem
    · rw [hrow] at hrule
      cases hrule
    · rw [hrow] at hrule
      cases hrule
      refine ⟨before, rule, after, i, j, s, hrules, fun other hother => ?_, hclash, ?_⟩
      · obtain ⟨c, hc⟩ := hbefore other hother
        obtain ⟨row, -, hgives⟩ | ⟨i, j, s, -, hrow⟩ := fillRow_outcome_of_covered hcovered
          (hrules ▸ List.mem_append_left _ hother : other ∈ g.rules)
        · exact fun i j s => hgives.not_clash
        · rw [hrow] at hc
          cases hc
      · rw [hfailure]
        rfl

/-- A table that could be built gives every symbol to the alternative that claims it. -/
theorem Built.gives {g : Grammar} {table : Table} (h : Built g table) {rule : Rule}
    (hrule : rule ∈ g.rules) :
    ∃ row, table.rows.lookup rule.lhs = some row ∧ Gives row (g.Claims rule) := by
  obtain ⟨row, hrow, hfill⟩ := h.row hrule
  rw [h.follow, h.first] at hfill
  obtain ⟨row', hfill', hgives⟩ | ⟨i, j, s, -, hfill'⟩ :=
    fillRow_outcome_of_covered h.covered hrule
  · rw [hfill] at hfill'
    cases hfill'
    exact ⟨row, hrow, hgives⟩
  · rw [hfill] at hfill'
    cases hfill'

/-- A table gives a symbol to an alternative of a rule exactly if that claims it. -/
theorem Built.lookup?_eq_some_iff {g : Grammar} {table : Table} (h : Built g table) {rule : Rule}
    (hrule : rule ∈ g.rules) {s : Symbol} {alternative : List Symbol} :
    table.lookup? rule.lhs s = some alternative ↔
      ∃ index, g.Claims rule index s ∧ rule.alternatives[index]? = some alternative := by
  obtain ⟨row, hrow, hgives⟩ := h.gives hrule
  have hrule? : table.grammar.rule? rule.lhs = some rule := by
    rw [h.grammar]
    exact Grammar.rule?_of_mem hrule
  simp only [lookup?, hrow, hrule?, Option.bind_eq_bind, Option.bind_some, Option.bind_eq_some_iff,
    hgives s]

/-- A table is built only of a grammar whose terminals are known. -/
theorem covered_of_build {g : Grammar} {names : List String} {table : Table}
    (h : build g names = .ok table) : g.Covered names := by
  rw [build] at h
  dsimp only at h
  split at h
  · cases h
  · rename_i hknown
    exact covered_sortNames_iff.mp (covered_of_unknownTerminal? hknown)

/-- A grammar has a table over an alphabet exactly if the alphabet covers it and no two alternatives of
a rule claim the same symbol. The table then gives a symbol to an alternative exactly if that claims it,
and nothing for symbols that none claims. If only a clash stands against a table, the first one in the
first rule that has any is reported. -/
theorem build_iff_predictive (g : Grammar) (names : List String) :
    ((∃ table, build g names = .ok table) ↔
      g.Covered names ∧ ∀ rule ∈ g.rules, ∀ i j s, ¬ Clash (g.Claims rule) i j s) ∧
    (∀ table, build g names = .ok table →
      (∀ rule ∈ g.rules, ∀ index alternative, rule.alternatives[index]? = some alternative →
        ∀ s, ((table.rows.lookup rule.lhs).bind (·.lookup s) = some index ↔
            g.Predicts rule.lhs alternative s) ∧
          (table.lookup? rule.lhs s = some alternative ↔ g.Predicts rule.lhs alternative s)) ∧
      ∀ name s, (∀ alternative, g.Produces name alternative → ¬ g.Predicts name alternative s) →
        table.lookup? name s = none) ∧
    (g.Covered names → (∃ rule ∈ g.rules, ∃ i j s, Clash (g.Claims rule) i j s) →
      ∃ before rule after i j s, g.rules = before ++ rule :: after ∧
        (∀ other ∈ before, ∀ i j s, ¬ Clash (g.Claims other) i j s) ∧
        FirstClash (g.Claims rule) i j s ∧
        build g names = .error (.located rule.span (.grammarConflict rule.lhs s.text i j))) := by
  have apart (table : Table) (h : build g names = .ok table) :
      ∀ rule ∈ g.rules, ∀ i j s, ¬ Clash (g.Claims rule) i j s := by
    intro rule hrule i j s
    obtain ⟨row, -, hgives⟩ := (built_of_build h).gives hrule
    exact hgives.not_clash
  refine ⟨⟨?_, ?_⟩, fun table hbuild => ⟨?_, ?_⟩, ?_⟩
  · rintro ⟨table, hbuild⟩
    exact ⟨covered_of_build hbuild, apart table hbuild⟩
  · rintro ⟨hcovered, hapart⟩
    refine (build_outcome hcovered).resolve_right ?_
    rintro ⟨before, rule, after, i, j, s, hrules, -, hclash, -⟩
    exact hapart rule (hrules ▸ List.mem_append_right _ List.mem_cons_self) i j s hclash.toClash
  · have built := built_of_build hbuild
    intro rule hrule index alternative halternative s
    have hclaims : g.Claims rule index s ↔ g.Predicts rule.lhs alternative s := by
      simp [Grammar.Claims, halternative]
    obtain ⟨row, hrow, hgives⟩ := built.gives hrule
    refine ⟨by rw [hrow, Option.bind_some, hgives, hclaims], ?_⟩
    rw [built.lookup?_eq_some_iff hrule]
    constructor
    · rintro ⟨other, ⟨alternative', hother, hpredicts⟩, hsame⟩
      cases hother.symm.trans hsame
      exact hpredicts
    · exact fun hpredicts => ⟨index, hclaims.mpr hpredicts, halternative⟩
  · have built := built_of_build hbuild
    intro name s hnone
    rw [Option.eq_none_iff_forall_not_mem]
    intro alternative hlookup
    obtain ⟨rule, hrule, rfl, -⟩ := built.produces_of_lookup? hlookup
    obtain ⟨index, ⟨alternative', halternative, hpredicts⟩, -⟩ :=
      (built.lookup?_eq_some_iff hrule).mp hlookup
    exact hnone alternative' ⟨rule, hrule, rfl, List.mem_of_getElem? halternative⟩ hpredicts
  · rintro hcovered ⟨rule, hrule, i, j, s, hclash⟩
    refine (build_outcome hcovered).resolve_left ?_
    rintro ⟨table, hbuild⟩
    exact apart table hbuild rule hrule i j s hclash

/-- One or more variables in a row, written so that both alternatives begin in the same way. -/
def pairGrammar : Grammar :=
  ⟨⟨"s", [[.terminal "VAR"], [.terminal "VAR", .nonterminal "s"]], .point 0⟩, [], rfl⟩

/-- Two alternatives that begin with the same terminal clash, so there is no table. -/
theorem build_iff_predictive_pair :
    Clash (pairGrammar.Claims pairGrammar.first) 0 1 (.terminal "VAR") ∧
      (¬ ∃ table, build pairGrammar ["VAR"] = .ok table) ∧
      build pairGrammar ["VAR"] =
        .error (.located (.point 0) (.grammarConflict "s" "VAR" 0 1)) := by
  have hclash : Clash (pairGrammar.Claims pairGrammar.first) 0 1 (.terminal "VAR") :=
    ⟨Nat.one_pos, ⟨_, rfl, rfl, .inl ⟨[], .refl⟩⟩, ⟨_, rfl, rfl, .inl ⟨[.nonterminal "s"], .refl⟩⟩⟩
  have hnames : sortNames ["VAR"] = ["VAR"] := by
    rw [sortNames, List.mergeSort_singleton]
    rfl
  refine ⟨hclash, fun htable => ?_, ?_⟩
  · exact ((build_iff_predictive pairGrammar ["VAR"]).1.mp htable).2 _ List.mem_cons_self _ _ _
      hclash
  · rw [build, hnames]
    rfl

end Table

end SymbolicAlgebra
