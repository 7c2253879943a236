import SymbolicAlgebra.Proofs.Grammar.Lookahead
import SymbolicAlgebra.Proofs.Grammar.Sentential

/-!
# Sets of first symbols

What a sequence is computed to begin with is what its sentential forms begin with. The sets are
sound since every addition is of symbols that begin some form. They are complete since undoing a
rewriting step never loses a symbol from what a sequence is computed to begin with: an alternative
begins with nothing that its nonterminal does not begin with, and the empty string has no part in
it.
-/

namespace SymbolicAlgebra.Grammar

variable {g : Grammar} {alphabet : List String}

/-- Every symbol in the sets, apart from the empty string, begins a form of its nonterminal. -/
def Beginning (g : Grammar) (sets : Sets) : Prop :=
  ∀ name, ∀ s ∈ setOf sets name, s ≠ .epsilon → g.Begins [.nonterminal name] s

/-- A sequence begins with what sound sets tell. -/
theorem Beginning.begins {sets : Sets} (h : Beginning g sets) (hvanish : Vanishing g sets)
    {symbols : List Symbol} {s : Symbol} (hs : s ∈ firstOfSequence alphabet sets symbols)
    (hne : s ≠ .epsilon) : g.Begins symbols s := by
  induction symbols with
  | nil => exact (hne (List.mem_singleton.mp hs)).elim
  | cons x rest ih =>
    obtain ⟨set, hset, ⟨hmem, -⟩ | ⟨hempty, hrest⟩⟩ := mem_firstOfSequence_cons.mp hs
    · refine Begins.cons ?_ rest
      cases x with
      | terminal name =>
        rw [firstOf?] at hset
        split at hset
        · cases hset
          obtain rfl := List.mem_singleton.mp hmem
          exact ⟨[], .refl⟩
        · cases hset
      | nonterminal name => exact h name s (mem_setOf_of_lookup hset hmem) hne
      | epsilon =>
        cases hset
        exact (hne (List.mem_singleton.mp hmem)).elim
      | endMarker =>
        cases hset
        obtain rfl := List.mem_singleton.mp hmem
        exact ⟨[], .refl⟩
    · have hx : .epsilon ∈ firstOfSequence alphabet sets [x] :=
        mem_firstOfSequence_cons.mpr ⟨set, hset, .inr ⟨hempty, List.mem_singleton.mpr rfl⟩⟩
      exact (ih hrest).skip (derives_of_yields (hvanish.yields hx))

/-- The computed sets contain only what begins forms of their nonterminals. -/
theorem beginning_firstSets (g : Grammar) (alphabet : List String) :
    Beginning g (g.firstSets alphabet) := by
  refine (firstSets_induction (p := fun sets => Beginning g sets ∧ Vanishing g sets)
    ⟨fun _ _ hs => (not_mem_setOf_emptySets hs).elim, fun _ hs => (not_mem_setOf_emptySets hs).elim⟩
    fun rule hrule alternative halternative sets hfits h => ⟨fun name s hs hne => ?_,
      h.2.addTo hfits hrule halternative⟩).1
  obtain ⟨rfl, -, hs⟩ | hs := (mem_setOf_addTo hfits).mp hs
  · obtain ⟨rest, hbegins⟩ := h.1.begins h.2 hs hne
    exact ⟨rest, .of_produces ⟨rule, hrule, rfl, halternative⟩ hbegins⟩
  · exact h.1 name s hs hne

/-- A symbol begins a sequence of two parts if it begins the first, or the second where the first
can vanish. -/
theorem mem_firstOfSequence_append {sets : Sets} {s : Symbol} {a b : List Symbol} :
    s ∈ firstOfSequence alphabet sets (a ++ b) ↔
      (s ∈ firstOfSequence alphabet sets a ∧ s ≠ .epsilon) ∨
        (.epsilon ∈ firstOfSequence alphabet sets a ∧ s ∈ firstOfSequence alphabet sets b) := by
  induction a with
  | nil => simp [firstOfSequence]
  | cons x a ih =>
    rw [List.cons_append, mem_firstOfSequence_cons, mem_firstOfSequence_cons,
      mem_firstOfSequence_cons]
    cases firstOf? alphabet sets x with
    | none => simp
    | some set =>
      simp only [ih, Option.some.injEq, exists_eq_left']
      tauto

/-- Where a part of a sequence is replaced by one that begins with less, the sequence begins with
less. -/
theorem firstOfSequence_replace {sets : Sets} {a b : List Symbol}
    (h : firstOfSequence alphabet sets a ⊆ firstOfSequence alphabet sets b)
    (before after : List Symbol) :
    firstOfSequence alphabet sets (before ++ (a ++ after)) ⊆
      firstOfSequence alphabet sets (before ++ (b ++ after)) := by
  intro s hs
  rw [mem_firstOfSequence_append, mem_firstOfSequence_append] at hs ⊢
  obtain hs | ⟨hbefore, ⟨hs, hne⟩ | ⟨hempty, hs⟩⟩ := hs
  · exact .inl hs
  · exact .inr ⟨hbefore, .inl ⟨h hs, hne⟩⟩
  · exact .inr ⟨hbefore, .inr ⟨h hempty, hs⟩⟩

/-- A single nonterminal begins with the symbols in its set. -/
theorem mem_firstOfSequence_nonterminal {sets : Sets} (h : Fits g alphabet sets) {name : String}
    (hname : name ∈ g.names) {s : Symbol} :
    s ∈ firstOfSequence alphabet sets [.nonterminal name] ↔ s ∈ setOf sets name := by
  have hset : firstOf? alphabet sets (.nonterminal name) = some (setOf sets name) :=
    h.lookup_eq hname
  rw [mem_firstOfSequence_cons]
  simp only [hset, Option.some.injEq, exists_eq_left', firstOfSequence, List.mem_singleton]
  constructor
  · rintro (⟨hs, -⟩ | ⟨hempty, rfl⟩) <;> assumption
  · intro hs
    by_cases hne : s = .epsilon
    · exact .inr ⟨hne ▸ hs, hne⟩
    · exact .inl ⟨hs, hne⟩

/-- Undoing a rewriting step loses nothing that a sequence begins with. -/
theorem Closed.firstOfSequence_step {first follow : Sets} (h : Closed g alphabet first follow)
    {a b : List Symbol} (hstep : g.Step a b) :
    firstOfSequence alphabet first b ⊆ firstOfSequence alphabet first a := by
  cases hstep with
  | @replace before after name alternative hproduces =>
    refine firstOfSequence_replace (b := [.nonterminal name]) (fun s hs => ?_) before after
    have hname : name ∈ g.names := by
      obtain ⟨rule, hrule, rfl, -⟩ := hproduces
      exact List.mem_map.mpr ⟨rule, hrule, rfl⟩
    exact (mem_firstOfSequence_nonterminal h.fits hname).mpr (h.begins hproduces hs)
  | vanish before after =>
    refine firstOfSequence_replace (a := []) (b := [.epsilon]) (fun s hs => ?_) before after
    exact mem_firstOfSequence_cons.mpr ⟨_, rfl, .inr ⟨List.mem_singleton.mpr rfl, hs⟩⟩

/-- Undoing rewriting loses nothing that a sequence begins with. -/
theorem Closed.firstOfSequence_derives {first follow : Sets} (h : Closed g alphabet first follow)
    {a b : List Symbol} (hderives : g.Derives a b) :
    firstOfSequence alphabet first b ⊆ firstOfSequence alphabet first a := by
  unfold Derives at hderives
  induction hderives with
  | refl => exact fun _ hs => hs
  | tail _ hstep ih => exact fun s hs => ih (h.firstOfSequence_step hstep hs)

/-- Where the alphabet covers a sequence and the grammar, it covers the forms of the sequence. -/
theorem Covers.derives (hcovered : g.Covered alphabet) {a b : List Symbol} (h : Covers alphabet a)
    (hderives : g.Derives a b) : Covers alphabet b := by
  unfold Derives at hderives
  induction hderives with
  | refl => exact h
  | tail _ hstep ih =>
    cases hstep with
    | replace before after hproduces =>
      intro t ht
      rw [List.mem_append, List.mem_append] at ht
      obtain ht | ht | ht := ht
      · exact ih t (List.mem_append_left _ ht)
      · exact hcovered _ _ hproduces t ht
      · exact ih t (List.mem_append_right _ (List.mem_cons_of_mem _ ht))
    | vanish before after =>
      intro t ht
      obtain ht | ht := List.mem_append.mp ht
      · exact ih t (List.mem_append_left _ ht)
      · exact ih t (List.mem_append_right _ (List.mem_cons_of_mem _ ht))

/-- A form begins with its first symbol, where that can be the next of an input and is known. -/
theorem mem_firstOfSequence_head {sets : Sets} {s : Symbol} {rest : List Symbol}
    (hnext : s.isNext = true) (h : Covers alphabet (s :: rest)) :
    s ∈ firstOfSequence alphabet sets (s :: rest) := by
  refine mem_firstOfSequence_cons.mpr ⟨[s], ?_, .inl ⟨List.mem_singleton.mpr rfl, ?_⟩⟩
  · cases s with
    | terminal name => exact if_pos (List.contains_iff_mem.mpr (h name List.mem_cons_self))
    | nonterminal name => cases hnext
    | epsilon => cases hnext
    | endMarker => rfl
  · rintro rfl
    cases hnext

/-- What can come next in an input is computed to begin a sequence exactly if it begins some
form. -/
theorem mem_firstSets_iff_begins (hcovered : g.Covered alphabet) {symbols : List Symbol}
    (h : Covers alphabet symbols) {s : Symbol} (hnext : s.isNext = true) :
    s ∈ firstOfSequence alphabet (g.firstSets alphabet) symbols ↔ g.Begins symbols s := by
  constructor
  · intro hs
    refine (beginning_firstSets g alphabet).begins (vanishing_firstSets g alphabet) hs ?_
    rintro rfl
    cases hnext
  · rintro ⟨rest, hderives⟩
    exact (closed g alphabet).firstOfSequence_derives hderives
      (mem_firstOfSequence_head hnext (h.derives hcovered hderives))

/-- A sequence is computed to vanish exactly if it derives the empty string. -/
theorem epsilon_mem_firstSets_iff {symbols : List Symbol} :
    .epsilon ∈ firstOfSequence alphabet (g.firstSets alphabet) symbols ↔
      g.Derives symbols [] :=
  ⟨fun hs => derives_of_yields ((vanishing_firstSets g alphabet).yields hs),
    fun hderives => (closed g alphabet).firstOfSequence_derives hderives
      (List.mem_singleton.mpr rfl)⟩

/-- Besides the empty string a sequence begins only with what can come next in an input. -/
theorem isNext_of_mem_firstOfSequence {sets : Sets} (h : Fits g alphabet sets)
    {symbols : List Symbol} {s : Symbol} (hs : s ∈ firstOfSequence alphabet sets symbols) :
    s.isNext = true ∨ s = .epsilon := by
  have hknown := firstOfSequence_known h symbols hs
  simp only [known, List.mem_append, List.mem_map, List.mem_cons, List.not_mem_nil,
    or_false] at hknown
  obtain ⟨t, -, rfl⟩ | rfl | rfl := hknown
  · exact .inl rfl
  · exact .inr rfl
  · exact .inl rfl

/-- What a sequence is computed to begin with is in order. -/
theorem sorted_firstOfSequence {sets : Sets} (h : Fits g alphabet sets) (symbols : List Symbol) :
    Symbol.Sorted (firstOfSequence alphabet sets symbols) := by
  induction symbols with
  | nil => exact List.pairwise_singleton _ _
  | cons x rest ih =>
    rw [firstOfSequence]
    cases hset : firstOf? alphabet sets x with
    | none => exact List.Pairwise.nil
    | some set =>
      have hsorted : Symbol.Sorted set := by
        cases x with
        | terminal name =>
          rw [firstOf?] at hset
          split at hset
          · cases hset
            exact List.pairwise_singleton _ _
          · cases hset
        | nonterminal name => exact h.sorted (name, set) (mem_of_lookup hset)
        | epsilon =>
          cases hset
          exact List.pairwise_singleton _ _
        | endMarker =>
          cases hset
          exact List.pairwise_singleton _ _
      dsimp only
      split
      · exact ih.insertAll _
      · exact hsorted.filter _

/-- Sets of first symbols are exact: a sequence whose terminals are known is computed to begin with
a symbol exactly if some form of it does, and to vanish exactly if it derives the empty string, and
nothing else is computed; the set of a nonterminal is that of the sequence of it alone; and the
passes over the rules end where one more of them changes nothing. -/
theorem firstSets_exact (g : Grammar) (alphabet : List String) (hcovered : g.Covered alphabet) :
    (∀ symbols, Covers alphabet symbols →
      (∀ s, s.isNext = true →
        (s ∈ firstOfSequence alphabet (g.firstSets alphabet) symbols ↔ g.Begins symbols s)) ∧
      (.epsilon ∈ firstOfSequence alphabet (g.firstSets alphabet) symbols ↔
        g.Derives symbols []) ∧
      ∀ s ∈ firstOfSequence alphabet (g.firstSets alphabet) symbols,
        s.isNext = true ∨ s = .epsilon) ∧
    (∀ name ∈ g.names, (g.firstSets alphabet).lookup name =
      some (firstOfSequence alphabet (g.firstSets alphabet) [.nonterminal name])) ∧
    ∃ count ≤ g.passBound alphabet,
      (g.firstPass alphabet)^[count] g.emptySets = g.firstSets alphabet ∧
        g.firstPass alphabet (g.firstSets alphabet) = g.firstSets alphabet := by
  obtain ⟨fits, fixed⟩ := firstSets_settled g alphabet
  refine ⟨fun symbols hcovers => ⟨fun s hnext => mem_firstSets_iff_begins hcovered hcovers hnext,
    epsilon_mem_firstSets_iff, fun s hs => isNext_of_mem_firstOfSequence fits hs⟩,
    fun name hname => ?_, ?_⟩
  · rw [fits.lookup_eq hname, Option.some.injEq]
    exact (fits.sorted_setOf name).ext (sorted_firstOfSequence fits _)
      fun s => (mem_firstOfSequence_nonterminal fits hname).symm
  · obtain ⟨count, hcount, hsettle⟩ := exists_iterate_eq_settle (g.firstPass alphabet)
      (g.passBound alphabet) g.emptySets
    exact ⟨count, hcount, hsettle, fixed⟩

/-- A chain of nonterminals that vanish: the first one vanishes only through the others. -/
def chainGrammar : Grammar :=
  ⟨⟨"s", [[.nonterminal "a", .terminal "VAR"]], .point 0⟩,
    [⟨"a", [[.nonterminal "b", .nonterminal "c"]], .point 0⟩,
      ⟨"b", [[.terminal "PLUS"], [.epsilon]], .point 0⟩,
      ⟨"c", [[.terminal "MINUS"], [.epsilon]], .point 0⟩], rfl⟩

/-- The alphabet covers the chain. -/
theorem covered_chainGrammar : chainGrammar.Covered ["MINUS", "PLUS", "VAR"] := by
  rintro lhs alternative ⟨rule, hrule, -, halternative⟩ name hname
  have hall : ∀ rule ∈ chainGrammar.rules, ∀ alternative ∈ rule.alternatives,
      ∀ s ∈ alternative, s ∈ [.terminal "MINUS", .terminal "PLUS", .terminal "VAR"] ∨
        s.isTerminal = false := by decide
  simpa [Symbol.isTerminal] using hall rule hrule alternative halternative _ hname

/-- In the chain the first symbols of the sequence at the start come from all of its nonterminals
and from what comes after them, since all vanish. -/
theorem firstSets_exact_chain :
    chainGrammar.Covered ["MINUS", "PLUS", "VAR"] ∧
      Covers ["MINUS", "PLUS", "VAR"] [.nonterminal "a", .terminal "VAR"] ∧
      firstOfSequence ["MINUS", "PLUS", "VAR"] (chainGrammar.firstSets ["MINUS", "PLUS", "VAR"])
        [.nonterminal "a", .terminal "VAR"] =
          [.terminal "MINUS", .terminal "PLUS", .terminal "VAR"] ∧
      chainGrammar.Begins [.nonterminal "a", .terminal "VAR"] (.terminal "VAR") ∧
      ¬ chainGrammar.Derives [.nonterminal "a", .terminal "VAR"] [] ∧
      (chainGrammar.firstSets ["MINUS", "PLUS", "VAR"]).lookup "a" =
        some [.terminal "MINUS", .terminal "PLUS", .epsilon] := by
  have hcovers : Covers ["MINUS", "PLUS", "VAR"] [.nonterminal "a", .terminal "VAR"] := by
    intro name hname
    simp at hname
    simp [hname]
  have hfirst : firstOfSequence ["MINUS", "PLUS", "VAR"]
      (chainGrammar.firstSets ["MINUS", "PLUS", "VAR"]) [.nonterminal "a", .terminal "VAR"] =
        [.terminal "MINUS", .terminal "PLUS", .terminal "VAR"] := by decide +kernel
  obtain ⟨exact, single, -⟩ :=
    firstSets_exact chainGrammar ["MINUS", "PLUS", "VAR"] covered_chainGrammar
  obtain ⟨begins, vanishes, -⟩ := exact _ hcovers
  refine ⟨covered_chainGrammar, hcovers, hfirst, (begins _ rfl).mp (by rw [hfirst]; decide),
    fun h => ?_, ?_⟩
  · have := vanishes.mpr h
    rw [hfirst] at this
    revert this
    decide
  · rw [single "a" (by decide)]
    decide +kernel

end SymbolicAlgebra.Grammar
