import SymbolicAlgebra.Grammar.Table
import SymbolicAlgebra.Proofs.Grammar.First

/-!
# Sets of following symbols

What is computed to follow a nonterminal is what stands right after it in sentential forms of the
grammar's nonterminals, and the end of the input where a form of the start symbol ends with it. The
sets are sound since every addition is of what can come after a place in a rule. They are complete
by induction on the derivation of a form: at each of its places the rest of the form begins with
nothing that is not computed to follow the nonterminal there.
-/

namespace SymbolicAlgebra.Grammar

variable {g : Grammar} {alphabet : List String}

/-- A symbol can follow at a place if it begins what comes after the place, or follows the
nonterminal of the rule where that can vanish. -/
theorem mem_followAt {first follow : Sets} {lhs : String} {rest : List Symbol} {s : Symbol} :
    s ∈ followAt alphabet first follow lhs rest ↔
      (s ∈ firstOfSequence alphabet first rest ∧ s ≠ .epsilon) ∨
        (.epsilon ∈ firstOfSequence alphabet first rest ∧ s ∈ setOf follow lhs) := by
  rw [followAt]
  by_cases hvanish : Symbol.epsilon ∈ firstOfSequence alphabet first rest
  · simp only [hvanish, List.contains_iff_mem, if_true, Symbol.mem_insertAll, setOf, true_and,
      List.mem_filter, decide_eq_true_eq]
    exact or_comm
  · simp [hvanish]

/-- At its places in a sequence a nonterminal has something before it. -/
theorem exists_of_mem_nonterminalPlaces {symbols after : List Symbol} {name : String}
    (h : (name, after) ∈ nonterminalPlaces symbols) :
    ∃ before, symbols = before ++ .nonterminal name :: after := by
  induction symbols with
  | nil => cases h
  | cons x rest ih =>
    have skip (h : (name, after) ∈ nonterminalPlaces rest) :
        ∃ before, x :: rest = before ++ .nonterminal name :: after := by
      obtain ⟨before, rfl⟩ := ih h
      exact ⟨x :: before, rfl⟩
    cases x with
    | nonterminal other =>
      obtain heq | h := List.mem_cons.mp h
      · cases heq
        exact ⟨[], rfl⟩
      · exact skip h
    | terminal other => exact skip h
    | epsilon => exact skip h
    | endMarker => exact skip h

/-- The sets contain only what can come after their nonterminals. -/
def Following (g : Grammar) (follow : Sets) : Prop :=
  ∀ name, ∀ s ∈ setOf follow name, s.isNext = true ∧ g.Follows name s

/-- What sound sets tell to follow at a place in a rule can come after the nonterminal there. -/
theorem Following.follows {follow : Sets} (h : Following g follow) {rule : Rule}
    (hrule : rule ∈ g.rules) {name : String} {before after : List Symbol}
    (hproduces : g.Produces rule.lhs (before ++ .nonterminal name :: after)) {s : Symbol}
    (hs : s ∈ followAt alphabet (g.firstSets alphabet) follow rule.lhs after) :
    s.isNext = true ∧ g.Follows name s := by
  obtain ⟨hs, hne⟩ | ⟨hvanish, hs⟩ := mem_followAt.mp hs
  · have hbegins := (beginning_firstSets g alphabet).begins (vanishing_firstSets g alphabet) hs hne
    have hnext := isNext_of_mem_firstOfSequence (firstSets_settled g alphabet).1 hs
    exact ⟨hnext.resolve_right hne, .inl (.of_begins hrule hproduces hbegins)⟩
  · obtain ⟨hnext, hfollows⟩ := h rule.lhs s hs
    exact ⟨hnext, .of_produces hproduces (epsilon_mem_firstSets_iff.mp hvanish) hfollows⟩

/-- The computed sets contain only what can come after their nonterminals. -/
theorem following_followSets (g : Grammar) (alphabet : List String) :
    Following g (g.followSets alphabet (g.firstSets alphabet)) := by
  refine followSets_induction (firstSets_settled g alphabet).1 (fun name s hs => ?_)
    fun rule hrule alternative halternative ⟨inner, after⟩ hplace follow hfits h name s hs => ?_
  · obtain ⟨rule, hrule, rfl⟩ := List.mem_map.mp ((fits_startSets g alphabet).mem_names hs)
    rw [show setOf g.startSets rule.lhs = _ from setOf_map _ hrule] at hs
    split at hs
    · rename_i hstart
      obtain rfl := List.mem_singleton.mp hs
      exact ⟨rfl, .inr ⟨rfl, [], hstart ▸ .refl⟩⟩
    · cases hs
  · obtain ⟨rfl, -, hs⟩ | hs := (mem_setOf_addTo hfits).mp hs
    · obtain ⟨before, rfl⟩ := exists_of_mem_nonterminalPlaces hplace
      exact h.follows hrule ⟨rule, hrule, rfl, halternative⟩ hs
    · exact h name s hs

/-- The end of the input is computed to follow the start symbol. -/
theorem endMarker_mem_followSets (g : Grammar) (alphabet : List String) (first : Sets)
    (hfirst : Fits g alphabet first) :
    .endMarker ∈ setOf (g.followSets alphabet first) g.start := by
  refine followSets_induction hfirst ?_ fun _ _ _ _ _ _ follow hfits h =>
    (mem_setOf_addTo hfits).mpr (.inr h)
  have hset : setOf g.startSets g.start = [.endMarker] :=
    (setOf_map _ (List.mem_cons_self : g.first ∈ g.rules)).trans (if_pos rfl)
  rw [hset]
  exact List.mem_singleton.mpr rfl

/-- What begins less is followed by less. -/
theorem followAt_subset {first follow : Sets} {lhs : String} {a b : List Symbol}
    (h : firstOfSequence alphabet first a ⊆ firstOfSequence alphabet first b) :
    followAt alphabet first follow lhs a ⊆ followAt alphabet first follow lhs b := by
  intro s hs
  rw [mem_followAt] at hs ⊢
  exact hs.imp (fun hs => ⟨h hs.1, hs.2⟩) fun hs => ⟨h hs.1, hs.2⟩

/-- What follows at a place in an alternative that stands in a form is what follows there in the
alternative, given what follows the alternative's nonterminal. -/
theorem followAt_append {first follow : Sets} {lhs name : String} {a b : List Symbol}
    (h : followAt alphabet first follow lhs b ⊆ setOf follow name) :
    followAt alphabet first follow lhs (a ++ b) ⊆ followAt alphabet first follow name a := by
  intro s hs
  rw [mem_followAt, mem_firstOfSequence_append, mem_firstOfSequence_append] at hs
  rw [mem_followAt]
  obtain ⟨⟨hs, -⟩ | ⟨hempty, hs⟩, hne⟩ | ⟨⟨-, hne⟩ | ⟨hempty, hempty'⟩, hs⟩ := hs
  · exact .inl ⟨hs, hne⟩
  · exact .inr ⟨hempty, h (mem_followAt.mpr (.inl ⟨hs, hne⟩))⟩
  · exact (hne rfl).elim
  · exact .inr ⟨hempty, h (mem_followAt.mpr (.inr ⟨hempty', hs⟩))⟩

/-- What is computed to follow the nonterminal that a form is derived from, or to begin the rest of
the form, is computed to follow the nonterminals in the form. -/
theorem Closed.follows_of_derives {first follow : Sets} (h : Closed g alphabet first follow)
    {lhs : String} {form : List Symbol} (hderives : g.Derives [.nonterminal lhs] form)
    {name : String} (hname : name ∈ g.names) {before after : List Symbol}
    (hform : form = before ++ .nonterminal name :: after) :
    followAt alphabet first follow lhs after ⊆ setOf follow name := by
  unfold Derives at hderives
  induction hderives generalizing name before after with
  | refl =>
    obtain ⟨rfl, hone⟩ | ⟨start, -, hnil⟩ := List.append_eq_cons_iff.mp hform.symm
    · cases hone
      intro s hs
      obtain ⟨hs, hne⟩ | ⟨-, hs⟩ := mem_followAt.mp hs
      · exact (hne (List.mem_singleton.mp hs)).elim
      · exact hs
    · simp at hnil
  | tail _ hstep ih =>
    cases hstep with
    | @replace left right other alternative hproduces =>
      obtain ⟨rest, rfl, rfl⟩ | ⟨start, rfl, hright⟩ := append_eq_append_cons_iff.mp hform
      · -- the place stands before the nonterminal that is replaced
        have hstep := h.firstOfSequence_step (Step.replace rest right hproduces)
        exact fun s hs => ih hname (List.append_assoc _ _ _) (followAt_subset hstep hs)
      · obtain ⟨rest, rfl, rfl⟩ | ⟨start, rfl, rfl⟩ := append_eq_append_cons_iff.mp hright
        · -- the place stands in the alternative
          have hother : other ∈ g.names := by
            obtain ⟨rule, hrule, rfl, -⟩ := hproduces
            exact List.mem_map.mpr ⟨rule, hrule, rfl⟩
          have hinner := followAt_append (a := rest) (ih hother rfl)
          exact fun s hs => h.follows hproduces hname (hinner hs)
        · -- the place stands after the nonterminal that is replaced
          have hplace : left ++ .nonterminal other :: (start ++ .nonterminal name :: after) =
              (left ++ .nonterminal other :: start) ++ .nonterminal name :: after := by simp
          exact ih hname hplace
    | vanish left right =>
      obtain ⟨rest, rfl, rfl⟩ | ⟨start, rfl, rfl⟩ := append_eq_append_cons_iff.mp hform
      · have hstep := h.firstOfSequence_step (Step.vanish rest right)
        exact fun s hs => ih hname (List.append_assoc _ _ _) (followAt_subset hstep hs)
      · have hplace : left ++ .epsilon :: (start ++ .nonterminal name :: after) =
            (left ++ .epsilon :: start) ++ .nonterminal name :: after := by simp
        exact ih hname hplace

/-- A nonterminal's form covers nothing but what the grammar does. -/
theorem covers_nonterminal (alphabet : List String) (name : String) :
    Covers alphabet [.nonterminal name] := by
  intro t ht
  cases List.mem_singleton.mp ht

/-- What can come next in an input is computed to follow a nonterminal exactly if it can come after
it. -/
theorem mem_followSets_iff_follows (hcovered : g.Covered alphabet) {name : String}
    (hname : name ∈ g.names) {s : Symbol} :
    s ∈ setOf (g.followSets alphabet (g.firstSets alphabet)) name ↔
      s.isNext = true ∧ g.Follows name s := by
  obtain ⟨fits, -⟩ := firstSets_settled g alphabet
  constructor
  · intro hs
    exact following_followSets g alphabet name s hs
  · rintro ⟨hnext, ⟨rule, -, before, after, hderives⟩ | ⟨rfl, before, hderives⟩⟩
    · have hcovers := (covers_nonterminal alphabet rule.lhs).derives hcovered hderives
      have hhead : s ∈ firstOfSequence alphabet (g.firstSets alphabet) (s :: after) :=
        mem_firstOfSequence_head hnext fun t ht =>
          hcovers t (List.mem_append_right _ (List.mem_cons_of_mem _ ht))
      have hne : s ≠ .epsilon := by
        rintro rfl
        cases hnext
      exact (closed g alphabet).follows_of_derives hderives hname rfl
        (mem_followAt.mpr (.inl ⟨hhead, hne⟩))
    · exact (closed g alphabet).follows_of_derives hderives hname rfl
        (mem_followAt.mpr
          (.inr ⟨List.mem_singleton.mpr rfl, endMarker_mem_followSets g alphabet _ fits⟩))

/-- A grammar with the lookahead sets that are computed for it, whatever the rows of its table
are. -/
def withRows (g : Grammar) (alphabet : List String) (rows : List (String × List (Symbol × Nat))) :
    Table :=
  ⟨g, alphabet, g.firstSets alphabet, g.followSets alphabet (g.firstSets alphabet), rows⟩

/-- Sets of following symbols are exact: a terminal is computed to follow a nonterminal exactly if
it stands right after it in a form of some nonterminal; the end of the input, if that holds for a
written one or a form of the start symbol ends with the nonterminal; and nothing else is computed. A
terminal is followed by itself alone, and the passes over the rules end where one more of them
changes nothing. -/
theorem followSets_exact (g : Grammar) (alphabet : List String) (hcovered : g.Covered alphabet)
    (rows : List (String × List (Symbol × Nat))) :
    (∀ name ∈ g.names, ∃ set,
      (g.withRows alphabet rows).follow? (.nonterminal name) = some set ∧
      (∀ t, .terminal t ∈ set ↔ g.Precedes name (.terminal t)) ∧
      (.endMarker ∈ set ↔ g.Precedes name .endMarker ∨ g.Closes name) ∧
      ∀ s ∈ set, s.isNext = true) ∧
    (∀ t ∈ alphabet,
      (g.withRows alphabet rows).follow? (.terminal t) = some [.terminal t]) ∧
    ∃ count ≤ g.passBound alphabet,
      (g.followPass alphabet (g.firstSets alphabet))^[count] g.startSets =
          g.followSets alphabet (g.firstSets alphabet) ∧
        g.followPass alphabet (g.firstSets alphabet)
            (g.followSets alphabet (g.firstSets alphabet)) =
          g.followSets alphabet (g.firstSets alphabet) := by
  obtain ⟨fits, -⟩ := firstSets_settled g alphabet
  obtain ⟨fits', fixed⟩ := followSets_settled fits
  refine ⟨fun name hname => ⟨_, fits'.lookup_eq hname, fun t => ?_, ?_, fun s hs => ?_⟩,
    fun t ht => if_pos (List.contains_iff_mem.mpr ht), ?_⟩
  · simp [mem_followSets_iff_follows hcovered hname, Symbol.isNext, Follows]
  · simp [mem_followSets_iff_follows hcovered hname, Symbol.isNext, Follows]
  · exact ((mem_followSets_iff_follows hcovered hname).mp hs).1
  · obtain ⟨count, hcount, hsettle⟩ := exists_iterate_eq_settle
      (g.followPass alphabet (g.firstSets alphabet)) (g.passBound alphabet) g.startSets
    exact ⟨count, hcount, hsettle, fixed⟩

/-- In the chain a nonterminal is followed by what the others vanish before, and the start symbol by
the end alone. -/
theorem followSets_exact_chain :
    chainGrammar.Covered ["MINUS", "PLUS", "VAR"] ∧
      (chainGrammar.withRows ["MINUS", "PLUS", "VAR"] []).follow? (.nonterminal "b") =
        some [.terminal "MINUS", .terminal "VAR"] ∧
      chainGrammar.Precedes "b" (.terminal "VAR") ∧
      ¬ chainGrammar.Precedes "b" (.terminal "PLUS") ∧ ¬ chainGrammar.Closes "b" ∧
      (chainGrammar.Precedes "s" .endMarker ∨ chainGrammar.Closes "s") := by
  have hset : (chainGrammar.withRows ["MINUS", "PLUS", "VAR"] []).follow? (.nonterminal "b") =
      some [.terminal "MINUS", .terminal "VAR"] := by decide +kernel
  have hstart : (chainGrammar.withRows ["MINUS", "PLUS", "VAR"] []).follow? (.nonterminal "s") =
      some [.endMarker] := by decide +kernel
  obtain ⟨exact, -, -⟩ :=
    followSets_exact chainGrammar ["MINUS", "PLUS", "VAR"] covered_chainGrammar []
  obtain ⟨set, hb, terminals, ending, -⟩ := exact "b" (by decide)
  obtain ⟨set', hs, -, ending', -⟩ := exact "s" (by decide)
  rw [hset, Option.some.injEq] at hb
  rw [hstart, Option.some.injEq] at hs
  subst hb hs
  refine ⟨covered_chainGrammar, hset, (terminals _).mp (by decide),
    fun h => ?_, fun h => ?_, ending'.mp (by decide)⟩
  · exact absurd ((terminals _).mpr h) (by decide)
  · exact absurd (ending.mpr (.inr h)) (by decide)

end SymbolicAlgebra.Grammar
