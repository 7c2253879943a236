import SymbolicAlgebra.Proofs.Grammar.Predictive

/-!
# Ranks of nonterminals before a symbol

Every symbol of a set of first symbols enters it in some round, through an alternative that begins
with it by what was known in the rounds before. Where a grammar has a table this is the alternative
that the table gives for the symbol, since another one would clash with it. So the nonterminals that
are replaced one after the other before one and the same symbol have entered ever earlier: those
that begin with the symbol go by the round in which it entered their set, and below them those that
vanish, by the round in which the empty string did. Their rank is the number of nonterminals below
them.
-/

namespace SymbolicAlgebra

namespace Grammar

variable {g : Grammar} {alphabet : List String} {sets : Sets} {s x : Symbol} {name : String}

/-- A nonterminal begins with the symbols in its set. -/
theorem Fits.mem_first_nonterminal (h : Fits g alphabet sets) :
    s ∈ firstOfSequence alphabet sets [.nonterminal name] ↔ s ∈ setOf sets name := by
  constructor
  · intro hs
    obtain ⟨set, hset, -⟩ := mem_firstOfSequence_cons.mp hs
    have hname : name ∈ g.names := by
      rw [← h.names]
      exact List.mem_map.mpr ⟨_, mem_of_lookup hset, rfl⟩
    exact (mem_firstOfSequence_nonterminal h hname).mp hs
  · exact fun hs => (mem_firstOfSequence_nonterminal h (h.mem_names hs)).mpr hs

/-- A symbol that vanishes is a nonterminal with the empty string in its set, or the empty
string. -/
theorem Fits.nonterminal_of_vanishes (h : Fits g alphabet sets)
    (hx : .epsilon ∈ firstOfSequence alphabet sets [x]) :
    x = .epsilon ∨ ∃ name, x = .nonterminal name ∧ .epsilon ∈ setOf sets name := by
  cases x with
  | nonterminal name => exact .inr ⟨name, rfl, h.mem_first_nonterminal.mp hx⟩
  | epsilon => exact .inl rfl
  | terminal name =>
    obtain ⟨set, hset, ⟨-, hne⟩ | ⟨hempty, -⟩⟩ := mem_firstOfSequence_cons.mp hx
    · exact (hne rfl).elim
    · rw [firstOf?] at hset
      split at hset
      · cases hset
        cases List.mem_singleton.mp hempty
      · cases hset
  | endMarker =>
    obtain ⟨set, hset, ⟨-, hne⟩ | ⟨hempty, -⟩⟩ := mem_firstOfSequence_cons.mp hx
    · exact (hne rfl).elim
    · cases hset
      cases List.mem_singleton.mp hempty

/-- A symbol begins a sequence if it begins the first symbol, or the rest where the first one
vanishes. -/
theorem mem_first_cons {rest : List Symbol} :
    s ∈ firstOfSequence alphabet sets (x :: rest) ↔
      (s ∈ firstOfSequence alphabet sets [x] ∧ s ≠ .epsilon) ∨
        (.epsilon ∈ firstOfSequence alphabet sets [x] ∧ s ∈ firstOfSequence alphabet sets rest) :=
  mem_firstOfSequence_append (a := [x])

/-- A sequence begins with all that one of its symbols begins with, if those before it vanish. -/
theorem mem_first_of_place {before after : List Symbol} (hs : s ∈ firstOfSequence alphabet sets [x])
    (hne : s ≠ .epsilon) (hbefore : .epsilon ∈ firstOfSequence alphabet sets before) :
    s ∈ firstOfSequence alphabet sets (before ++ x :: after) :=
  mem_firstOfSequence_append.mpr (.inr ⟨hbefore, mem_first_cons.mpr (.inl ⟨hs, hne⟩)⟩)

/-- Where sets grow, sequences begin with more. -/
theorem firstOfSequence_mono {sets' : Sets} (h : Fits g alphabet sets) (h' : Fits g alphabet sets')
    (hsub : ∀ name, setOf sets name ⊆ setOf sets' name) (symbols : List Symbol) :
    firstOfSequence alphabet sets symbols ⊆ firstOfSequence alphabet sets' symbols := by
  have single (x : Symbol) :
      firstOfSequence alphabet sets [x] ⊆ firstOfSequence alphabet sets' [x] := by
    intro s hs
    cases x with
    | nonterminal name =>
      exact h'.mem_first_nonterminal.mpr (hsub name (h.mem_first_nonterminal.mp hs))
    | terminal name => exact hs
    | epsilon => exact hs
    | endMarker => exact hs
  induction symbols with
  | nil => exact fun s hs => hs
  | cons x rest ih =>
    intro s hs
    rw [mem_first_cons] at hs ⊢
    exact hs.imp (fun hs => ⟨single x hs.1, hs.2⟩) fun hs => ⟨single x hs.1, ih hs.2⟩

/-! ## The round in which a symbol enters a set -/

/-- The sets of first symbols after a number of rounds. A round adds to all sets at once what the
alternatives begin with by the sets before it, so it adds less than a pass. -/
def firstAfter (g : Grammar) (alphabet : List String) : Nat → Sets
  | 0 => g.emptySets
  | count + 1 =>
    let sets := g.firstAfter alphabet count
    g.rules.map fun rule => (rule.lhs, Symbol.insertAll
      (rule.alternatives.flatMap (firstOfSequence alphabet sets)) (setOf sets rule.lhs))

/-- The sets fit after any number of rounds. -/
theorem fits_firstAfter (g : Grammar) (alphabet : List String) (count : Nat) :
    Fits g alphabet (g.firstAfter alphabet count) := by
  induction count with
  | zero => exact fits_emptySets g alphabet
  | succ count ih =>
    rw [firstAfter]
    refine ⟨?_, ?_, ?_⟩
    · rw [List.map_map]
      rfl
    · intro entry hentry
      obtain ⟨rule, -, rfl⟩ := List.mem_map.mp hentry
      exact (ih.sorted_setOf rule.lhs).insertAll _
    · intro entry hentry s hs
      obtain ⟨rule, -, rfl⟩ := List.mem_map.mp hentry
      obtain hs | hs := Symbol.mem_insertAll.mp hs
      · obtain ⟨alternative, -, hs⟩ := List.mem_flatMap.mp hs
        exact firstOfSequence_known ih alternative hs
      · exact ih.known_setOf rule.lhs hs

/-- A symbol is in a set after one more round if it is there already or begins an alternative. -/
theorem mem_firstAfter_succ {count : Nat} :
    s ∈ setOf (g.firstAfter alphabet (count + 1)) name ↔
      (∃ alternative, g.Produces name alternative ∧
        s ∈ firstOfSequence alphabet (g.firstAfter alphabet count) alternative) ∨
      s ∈ setOf (g.firstAfter alphabet count) name := by
  have hset {rule : Rule} (hrule : rule ∈ g.rules) :
      s ∈ setOf (g.firstAfter alphabet (count + 1)) rule.lhs ↔
        s ∈ rule.alternatives.flatMap (firstOfSequence alphabet (g.firstAfter alphabet count)) ∨
          s ∈ setOf (g.firstAfter alphabet count) rule.lhs := by
    rw [firstAfter, setOf_map _ hrule, Symbol.mem_insertAll]
  constructor
  · intro hs
    obtain ⟨rule, hrule, rfl⟩ :=
      List.mem_map.mp ((fits_firstAfter g alphabet (count + 1)).mem_names hs)
    refine ((hset hrule).mp hs).imp_left fun hs => ?_
    obtain ⟨alternative, halternative, hs⟩ := List.mem_flatMap.mp hs
    exact ⟨alternative, ⟨rule, hrule, rfl, halternative⟩, hs⟩
  · rintro (⟨alternative, ⟨rule, hrule, rfl, halternative⟩, hs⟩ | hs)
    · exact (hset hrule).mpr (.inl (List.mem_flatMap.mpr ⟨alternative, halternative, hs⟩))
    · obtain ⟨rule, hrule, rfl⟩ := List.mem_map.mp ((fits_firstAfter g alphabet count).mem_names hs)
      exact (hset hrule).mpr (.inr hs)

/-- Every round stays within the computed sets. -/
theorem setOf_firstAfter_subset (g : Grammar) (alphabet : List String) (count : Nat)
    (name : String) :
    setOf (g.firstAfter alphabet count) name ⊆ setOf (g.firstSets alphabet) name := by
  induction count generalizing name with
  | zero => exact fun s hs => (not_mem_setOf_emptySets hs).elim
  | succ count ih =>
    intro s hs
    obtain ⟨alternative, hproduces, hs⟩ | hs := mem_firstAfter_succ.mp hs
    · have hmono := firstOfSequence_mono (fits_firstAfter g alphabet count)
        (firstSets_settled g alphabet).1 ih alternative
      exact (closed g alphabet).begins hproduces (hmono hs)
    · exact ih name hs

/-- All symbols of the computed sets are in the sets after some number of rounds. -/
theorem exists_setOf_firstSets_subset (g : Grammar) (alphabet : List String) :
    ∃ count, ∀ name,
      setOf (g.firstSets alphabet) name ⊆ setOf (g.firstAfter alphabet count) name := by
  refine firstSets_induction (p := fun sets => ∃ count, ∀ name,
    setOf sets name ⊆ setOf (g.firstAfter alphabet count) name) ⟨0, fun _ _ hs => hs⟩ ?_
  -- An addition adds no more than a round does to sets that are no smaller
  rintro rule hrule alternative halternative sets hfits ⟨count, hsub⟩
  refine ⟨count + 1, fun name s hs => mem_firstAfter_succ.mpr ?_⟩
  obtain ⟨rfl, -, hs⟩ | hs := (mem_setOf_addTo hfits).mp hs
  · exact .inl ⟨alternative, ⟨rule, hrule, rfl, halternative⟩,
      firstOfSequence_mono hfits (fits_firstAfter g alphabet count) hsub alternative hs⟩
  · exact .inr (hsub name hs)

/-- What begins a sequence after some rounds is computed to begin it. -/
theorem firstOfSequence_firstAfter_subset (g : Grammar) (alphabet : List String) (count : Nat)
    (symbols : List Symbol) :
    firstOfSequence alphabet (g.firstAfter alphabet count) symbols ⊆
      firstOfSequence alphabet (g.firstSets alphabet) symbols :=
  firstOfSequence_mono (fits_firstAfter g alphabet count) (firstSets_settled g alphabet).1
    (setOf_firstAfter_subset g alphabet count) symbols

/-- The number of rounds after which a symbol is in the set of a nonterminal. -/
noncomputable def entry (g : Grammar) (alphabet : List String) (s : Symbol) (name : String) : Nat :=
  sInf {count | s ∈ setOf (g.firstAfter alphabet count) name}

/-- A symbol has entered a set in which it is. -/
theorem entry_le {count : Nat} (hs : s ∈ setOf (g.firstAfter alphabet count) name) :
    g.entry alphabet s name ≤ count :=
  Nat.sInf_le hs

/-- A symbol enters a set through an alternative that begins with it by what is known in the rounds
before. -/
theorem exists_produces_of_mem_firstSets (hs : s ∈ setOf (g.firstSets alphabet) name) :
    ∃ count < g.entry alphabet s name, ∃ alternative, g.Produces name alternative ∧
      s ∈ firstOfSequence alphabet (g.firstAfter alphabet count) alternative := by
  have hentered : s ∈ setOf (g.firstAfter alphabet (g.entry alphabet s name)) name := by
    obtain ⟨settled, hsettled⟩ := exists_setOf_firstSets_subset g alphabet
    exact Nat.sInf_mem (s := {count | s ∈ setOf (g.firstAfter alphabet count) name})
      ⟨settled, hsettled name hs⟩
  cases hentry : g.entry alphabet s name with
  | zero =>
    rw [hentry] at hentered
    exact (not_mem_setOf_emptySets hentered).elim
  | succ count =>
    rw [hentry] at hentered
    refine ⟨count, Nat.lt_succ_self count,
      (mem_firstAfter_succ.mp hentered).resolve_right fun hs => ?_⟩
    have := entry_le hs
    omega

end Grammar

namespace Table

open Grammar

variable {g : Grammar} {table : Table} {s : Symbol} {name : String} {alternative : List Symbol}

/-- The lookaheads of an alternative are what it begins with and, where it vanishes, what follows
its nonterminal. -/
theorem mem_lookaheads {alphabet : List String} {first follow : Sets} {lhs : String} :
    s ∈ lookaheads alphabet first follow lhs alternative ↔
      (s ∈ firstOfSequence alphabet first alternative ∧ s ≠ .epsilon) ∨
        (.epsilon ∈ firstOfSequence alphabet first alternative ∧ s ∈ setOf follow lhs) :=
  mem_followAt

/-- What begins a sequence after some rounds begins it by the sets of the table. -/
theorem Built.mem_first_of_firstAfter (h : Built g table) {count : Nat} {symbols : List Symbol}
    (hs : s ∈ firstOfSequence table.alphabet (g.firstAfter table.alphabet count) symbols) :
    s ∈ firstOfSequence table.alphabet table.first symbols := by
  rw [h.first]
  exact firstOfSequence_firstAfter_subset g table.alphabet count symbols hs

/-- A table gives an alternative only for the symbols that show it to be taken. -/
theorem Built.mem_lookaheads_of_lookup? (h : Built g table)
    (hlookup : table.lookup? name s = some alternative) :
    s ∈ lookaheads table.alphabet table.first table.follow name alternative := by
  obtain ⟨rule, hrule, rfl, halternative⟩ := h.produces_of_lookup? hlookup
  obtain ⟨index, ⟨other, hother, hpredicts⟩, hsame⟩ := (h.lookup?_eq_some_iff hrule).mp hlookup
  cases hother.symm.trans hsame
  rw [h.follow, h.first]
  exact (mem_lookaheads_iff_predicts h.covered ⟨rule, hrule, rfl, halternative⟩).mpr hpredicts

/-- The alternative that a table gives for a symbol that its nonterminal begins with is the one
through which the symbol entered. -/
theorem Built.first_of_lookup? (h : Built g table) (hne : s ≠ .epsilon)
    (hs : s ∈ setOf table.first name) (hlookup : table.lookup? name s = some alternative) :
    ∃ count < g.entry table.alphabet s name,
      s ∈ firstOfSequence table.alphabet (g.firstAfter table.alphabet count) alternative := by
  rw [h.first] at hs
  obtain ⟨count, hcount, other, hproduces, hs⟩ := exists_produces_of_mem_firstSets hs
  have hother := h.lookup?_of_produces hproduces
    (mem_lookaheads.mpr (.inl ⟨h.mem_first_of_firstAfter hs, hne⟩))
  cases hother.symm.trans hlookup
  exact ⟨count, hcount, hs⟩

/-- The alternative that a table gives for any other symbol is the one through which the empty
string entered. -/
theorem Built.vanishes_of_lookup? (h : Built g table) (hs : s ∉ setOf table.first name)
    (hlookup : table.lookup? name s = some alternative) :
    ∃ count < g.entry table.alphabet .epsilon name,
      .epsilon ∈
        firstOfSequence table.alphabet (g.firstAfter table.alphabet count) alternative := by
  have hproduces := h.produces_of_lookup? hlookup
  obtain ⟨hbegins, -⟩ | ⟨hvanishes, hfollow⟩ :=
    mem_lookaheads.mp (h.mem_lookaheads_of_lookup? hlookup)
  · exact (hs (h.closed.begins hproduces hbegins)).elim
  · have hempty := h.closed.begins hproduces hvanishes
    rw [h.first] at hempty
    obtain ⟨count, hcount, other, hproduces', hvanishes'⟩ := exists_produces_of_mem_firstSets hempty
    have hother := h.lookup?_of_produces hproduces'
      (mem_lookaheads.mpr (.inr ⟨h.mem_first_of_firstAfter hvanishes', hfollow⟩))
    cases hother.symm.trans hlookup
    exact ⟨count, hcount, hvanishes'⟩

/-- What begins the rest of an alternative follows the nonterminal before it. -/
theorem Built.mem_follow_of_first (h : Built g table) {lhs : String} {before after : List Symbol}
    (hproduces : g.Produces lhs (before ++ .nonterminal name :: after)) (hname : name ∈ g.names)
    (hne : s ≠ .epsilon) (hs : s ∈ firstOfSequence table.alphabet table.first after) :
    s ∈ setOf table.follow name :=
  h.closed.follows hproduces hname (mem_followAt.mpr (.inl ⟨hs, hne⟩))

/-- A symbol that a sequence begins with is begun by one of the symbols in it. -/
theorem exists_place_of_mem_first {alphabet : List String} {sets : Sets} {symbols : List Symbol}
    (hne : s ≠ .epsilon) (hs : s ∈ firstOfSequence alphabet sets symbols) :
    ∃ before x after, symbols = before ++ x :: after ∧ s ∈ firstOfSequence alphabet sets [x] := by
  induction symbols with
  | nil => exact (hne (List.mem_singleton.mp hs)).elim
  | cons x rest ih =>
    obtain ⟨hs, -⟩ | ⟨-, hs⟩ := mem_first_cons.mp hs
    · exact ⟨[], x, rest, rfl, hs⟩
    · obtain ⟨before, y, after, rfl, hy⟩ := ih hs
      exact ⟨x :: before, y, after, rfl, hy⟩

/-- Nothing that a nonterminal begins with follows it, where it vanishes. -/
theorem Built.not_mem_follow (h : Built g table) (hne : s ≠ .epsilon)
    (hs : s ∈ setOf table.first name) (hempty : .epsilon ∈ setOf table.first name) :
    s ∉ setOf table.follow name := by
  induction hentry : g.entry table.alphabet s name
    using Nat.strong_induction_on generalizing name with
  | _ n ih =>
    subst hentry
    intro hfollow
    have hfits := h.closed.fits
    rw [h.first] at hs hempty
    obtain ⟨count, hcount, alternative, hproduces, hs⟩ := exists_produces_of_mem_firstSets hs
    obtain ⟨count', -, other, hproduces', hvanishes⟩ := exists_produces_of_mem_firstSets hempty
    -- the alternative that begins with the symbol also vanishes, as another one would clash with it
    have hlookup := h.lookup?_of_produces hproduces
      (mem_lookaheads.mpr (.inl ⟨h.mem_first_of_firstAfter hs, hne⟩))
    have hlookup' := h.lookup?_of_produces hproduces'
      (mem_lookaheads.mpr (.inr ⟨h.mem_first_of_firstAfter hvanishes, hfollow⟩))
    cases hlookup.symm.trans hlookup'
    obtain ⟨before, x, after, rfl, hx⟩ := exists_place_of_mem_first hne hs
    have hvanishes := h.mem_first_of_firstAfter hvanishes
    rw [mem_firstOfSequence_append] at hvanishes
    obtain ⟨-, hvanishes⟩ := hvanishes.resolve_left fun h => h.2 rfl
    obtain ⟨hxempty, hafter⟩ := (mem_first_cons.mp hvanishes).resolve_left fun h => h.2 rfl
    obtain rfl | ⟨inner, rfl, hinner⟩ := hfits.nonterminal_of_vanishes hxempty
    · exact hne (List.mem_singleton.mp hx)
    · have hx := (fits_firstAfter g table.alphabet count).mem_first_nonterminal.mp hx
      have hfirst : s ∈ setOf table.first inner := by
        rw [h.first]
        exact setOf_firstAfter_subset g table.alphabet count inner hx
      refine ih _ ((entry_le hx).trans_lt hcount) hfirst hinner rfl ?_
      exact h.closed.follows hproduces (hfits.mem_names hfirst)
        (mem_followAt.mpr (.inr ⟨hafter, hfollow⟩))

/-! ## Ranks -/

open Classical in
/-- Where a nonterminal stands among those that are replaced before a symbol: above are those that
begin with it. -/
noncomputable def place (g : Grammar) (table : Table) (s : Symbol) (name : String) : Nat ×ₗ Nat :=
  if s ∈ setOf table.first name then toLex (1, g.entry table.alphabet s name)
  else toLex (0, g.entry table.alphabet .epsilon name)

open Classical in
/-- The number of nonterminals that stand below one before a symbol. -/
noncomputable def rank (g : Grammar) (table : Table) (s : Symbol) (name : String) : Nat :=
  (g.names.toFinset.filter fun other => place g table s other < place g table s name).card

/-- The rank is at most the number of rules. -/
theorem rank_le (g : Grammar) (table : Table) (s : Symbol) (name : String) :
    rank g table s name ≤ g.rules.length := by
  classical
  exact (Finset.card_filter_le _ _).trans
    ((List.toFinset_card_le _).trans_eq (List.length_map _))

/-- A nonterminal of the grammar that stands below another one has a smaller rank. -/
theorem rank_lt {inner : String} (hinner : inner ∈ g.names)
    (hplace : place g table s inner < place g table s name) :
    rank g table s inner < rank g table s name := by
  classical
  refine Finset.card_lt_card
    ((Finset.ssubset_iff_of_subset fun other hother => ?_).mpr ⟨inner, ?_, ?_⟩)
  · rw [Finset.mem_filter] at hother ⊢
    exact ⟨hother.1, hother.2.trans hplace⟩
  · exact Finset.mem_filter.mpr ⟨List.mem_toFinset.mpr hinner, hplace⟩
  · intro hmem
    exact lt_irrefl _ (Finset.mem_filter.mp hmem).2

/-- The nonterminals of a sequence up to the first symbol that begins with `s` rank below
`bound`. -/
def RanksBelow (g : Grammar) (table : Table) (s : Symbol) (bound : Nat) : List Symbol → Prop
  | [] => True
  | x :: rest => (∀ name, x = .nonterminal name → rank g table s name < bound) ∧
    (s ∉ firstOfSequence table.alphabet table.first [x] → RanksBelow g table s bound rest)

/-- Where the symbol begins the nonterminal, the alternative begins with it by earlier rounds, and
what vanishes in front does not begin with it. -/
theorem Built.ranksBelow_of_first (h : Built g table) (hne : s ≠ .epsilon)
    (hs : s ∈ setOf table.first name) (before : List Symbol) {after : List Symbol}
    (hproduces : g.Produces name (before ++ after)) {count : Nat}
    (hcount : count < g.entry table.alphabet s name)
    (hafter : s ∈ firstOfSequence table.alphabet (g.firstAfter table.alphabet count) after) :
    RanksBelow g table s (rank g table s name) after := by
  have hfits := fits_firstAfter g table.alphabet count
  induction after generalizing before with
  | nil => trivial
  | cons x rest ih =>
    rw [mem_first_cons] at hafter
    refine ⟨?_, fun hx => ?_⟩
    · rintro inner rfl
      obtain ⟨hx, -⟩ | ⟨hempty, hrest⟩ := hafter
      · rw [hfits.mem_first_nonterminal] at hx
        have hfirst : s ∈ setOf table.first inner := by
          rw [h.first]
          exact setOf_firstAfter_subset g table.alphabet count inner hx
        refine rank_lt (h.closed.fits.mem_names hfirst) ?_
        rw [place, place, if_pos hfirst, if_pos hs]
        exact Prod.Lex.toLex_lt_toLex.mpr (.inr ⟨rfl, (entry_le hx).trans_lt hcount⟩)
      · rw [hfits.mem_first_nonterminal] at hempty
        have hfirst : .epsilon ∈ setOf table.first inner := by
          rw [h.first]
          exact setOf_firstAfter_subset g table.alphabet count inner hempty
        have hinner := h.closed.fits.mem_names hfirst
        have hnot : s ∉ setOf table.first inner := fun hmem =>
          h.not_mem_follow hne hmem hfirst
            (h.mem_follow_of_first hproduces hinner hne (h.mem_first_of_firstAfter hrest))
        refine rank_lt hinner ?_
        rw [place, place, if_neg hnot, if_pos hs]
        exact Prod.Lex.toLex_lt_toLex.mpr (.inl Nat.zero_lt_one)
    · obtain ⟨hmem, -⟩ | ⟨-, hrest⟩ := hafter
      · exact (hx (h.mem_first_of_firstAfter hmem)).elim
      · exact ih (before ++ [x]) (by simpa using hproduces) hrest

/-- Where the symbol does not begin the nonterminal, the alternative vanishes by earlier rounds. -/
theorem Built.ranksBelow_of_vanishes (h : Built g table) (hne : s ≠ .epsilon)
    (hs : s ∉ setOf table.first name) (before : List Symbol) {after : List Symbol}
    (hproduces : g.Produces name (before ++ after))
    (hbefore : .epsilon ∈ firstOfSequence table.alphabet table.first before) {count : Nat}
    (hcount : count < g.entry table.alphabet .epsilon name)
    (hafter : .epsilon ∈ firstOfSequence table.alphabet (g.firstAfter table.alphabet count) after) :
    RanksBelow g table s (rank g table s name) after := by
  have hfits := fits_firstAfter g table.alphabet count
  induction after generalizing before with
  | nil => trivial
  | cons x rest ih =>
    obtain ⟨hempty, hrest⟩ := (mem_first_cons.mp hafter).resolve_left fun h => h.2 rfl
    refine ⟨?_, fun _ => ih (before ++ [x]) (by simpa using hproduces) ?_ hrest⟩
    · rintro inner rfl
      have hnot : s ∉ setOf table.first inner := fun hmem =>
        hs (h.closed.begins hproduces
          (mem_first_of_place (h.closed.fits.mem_first_nonterminal.mpr hmem) hne hbefore))
      rw [hfits.mem_first_nonterminal] at hempty
      refine rank_lt (hfits.mem_names hempty) ?_
      rw [place, place, if_neg hnot, if_neg hs]
      exact Prod.Lex.toLex_lt_toLex.mpr (.inr ⟨rfl, (entry_le hempty).trans_lt hcount⟩)
    · exact mem_firstOfSequence_append.mpr (.inr ⟨hbefore, h.mem_first_of_firstAfter hempty⟩)

/-- The nonterminals that come up before a symbol in the alternative for it rank below the
nonterminal that is replaced. -/
theorem Built.ranksBelow_of_lookup? (h : Built g table) (hne : s ≠ .epsilon)
    (hlookup : table.lookup? name s = some alternative) :
    RanksBelow g table s (rank g table s name) alternative := by
  have hproduces := h.produces_of_lookup? hlookup
  by_cases hs : s ∈ setOf table.first name
  · obtain ⟨count, hcount, hbegins⟩ := h.first_of_lookup? hne hs hlookup
    exact h.ranksBelow_of_first hne hs [] hproduces hcount hbegins
  · obtain ⟨count, hcount, hvanishes⟩ := h.vanishes_of_lookup? hs hlookup
    exact h.ranksBelow_of_vanishes hne hs [] hproduces (List.mem_singleton.mpr rfl) hcount
      hvanishes

end Table

end SymbolicAlgebra
