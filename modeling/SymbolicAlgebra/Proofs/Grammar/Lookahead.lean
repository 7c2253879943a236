import SymbolicAlgebra.Proofs.Grammar.Passes

/-!
# What lookahead sets tell

The sets of first symbols contain every terminal that a word of a nonterminal begins with, and the
empty string exactly where the nonterminal yields the empty word. The sets of following symbols
contain what the rest of an alternative can begin with, and what follows its nonterminal if the rest
can vanish.
-/

namespace SymbolicAlgebra.Grammar

variable {g : Grammar} {alphabet : List String}

/-- A symbol begins a sequence if it begins the first symbol, or the rest when that can vanish. -/
theorem mem_firstOfSequence_cons {sets : Sets} {s x : Symbol} {rest : List Symbol} :
    s ∈ firstOfSequence alphabet sets (x :: rest) ↔
      ∃ set, firstOf? alphabet sets x = some set ∧
        ((s ∈ set ∧ s ≠ .epsilon) ∨ (.epsilon ∈ set ∧ s ∈ firstOfSequence alphabet sets rest)) := by
  rw [firstOfSequence]
  cases hset : firstOf? alphabet sets x with
  | none => simp
  | some set =>
    by_cases hvanish : Symbol.epsilon ∈ set
    · simp [hvanish, Symbol.mem_insertAll]
    · simp [hvanish]

/-- Every terminal of the sequence is in the alphabet. -/
def Covers (alphabet : List String) (symbols : List Symbol) : Prop :=
  ∀ name, .terminal name ∈ symbols → name ∈ alphabet

/-- Every terminal of the grammar is in the alphabet. -/
def Covered (g : Grammar) (alphabet : List String) : Prop :=
  ∀ name alternative, g.Produces name alternative → Covers alphabet alternative

/-- What a pass for first symbols adds: what the alternatives can begin with. -/
def firstAdditions (g : Grammar) (alphabet : List String) : List Addition :=
  g.rules.flatMap fun rule => rule.alternatives.map fun alternative =>
    ⟨rule.lhs, fun sets => firstOfSequence alphabet sets alternative⟩

/-- What a pass for following symbols adds: what can follow nonterminals at their places in the
rules. -/
def followAdditions (g : Grammar) (alphabet : List String) (first : Sets) : List Addition :=
  g.rules.flatMap fun rule => rule.alternatives.flatMap fun alternative =>
    (nonterminalPlaces alternative).map fun place =>
      ⟨place.1, fun follow => followAt alphabet first follow rule.lhs place.2⟩

/-- A pass for first symbols makes its additions. -/
theorem firstPass_eq (g : Grammar) (alphabet : List String) :
    g.firstPass alphabet = pass (g.firstAdditions alphabet) := by
  funext sets
  simp only [firstPass, pass, firstAdditions, List.foldl_flatMap, List.foldl_map]

/-- A pass for following symbols makes its additions. -/
theorem followPass_eq (g : Grammar) (alphabet : List String) (first : Sets) :
    g.followPass alphabet first = pass (g.followAdditions alphabet first) := by
  funext follow
  simp only [followPass, pass, followAdditions, List.foldl_flatMap, List.foldl_map]

/-- What a sequence begins with are known symbols. -/
theorem firstOfSequence_known {sets : Sets} (h : Fits g alphabet sets) (symbols : List Symbol) :
    firstOfSequence alphabet sets symbols ⊆ known alphabet := by
  induction symbols with
  | nil => simp [firstOfSequence, known]
  | cons x rest ih =>
    intro s hs
    obtain ⟨set, hset, ⟨hbegin, -⟩ | ⟨-, hrest⟩⟩ := mem_firstOfSequence_cons.mp hs
    · cases x with
      | terminal name =>
        rw [firstOf?] at hset
        split at hset
        · rename_i hmem
          cases hset
          obtain rfl := List.mem_singleton.mp hbegin
          simpa [known] using hmem
        · cases hset
      | nonterminal name =>
        have := h.known_setOf name
        rw [setOf, show sets.lookup name = some set from hset] at this
        exact this hbegin
      | epsilon =>
        cases hset
        simp [List.mem_singleton.mp hbegin, known]
      | endMarker =>
        cases hset
        simp [List.mem_singleton.mp hbegin, known]
    · exact ih hrest

/-- What can follow at a place are known symbols. -/
theorem followAt_known {first follow : Sets} (hfirst : Fits g alphabet first)
    (hfollow : Fits g alphabet follow) (lhs : String) (rest : List Symbol) :
    followAt alphabet first follow lhs rest ⊆ known alphabet := by
  have begins : (firstOfSequence alphabet first rest).filter (· ≠ .epsilon) ⊆ known alphabet :=
    fun s hs => firstOfSequence_known hfirst rest (List.mem_filter.mp hs).1
  rw [followAt]
  split
  · intro s hs
    obtain hs | hs := Symbol.mem_insertAll.mp hs
    · exact hfollow.known_setOf lhs hs
    · exact begins hs
  · exact begins

/-- Lookahead sets that contain what is gathered from them. -/
structure Closed (g : Grammar) (alphabet : List String) (first follow : Sets) : Prop where
  fits : Fits g alphabet first
  begins {name : String} {alternative : List Symbol} : g.Produces name alternative →
    firstOfSequence alphabet first alternative ⊆ setOf first name
  follows {lhs name : String} {before after : List Symbol} :
    g.Produces lhs (before ++ .nonterminal name :: after) → name ∈ g.names →
    followAt alphabet first follow lhs after ⊆ setOf follow name

/-- A nonterminal in an alternative stands at one of its places. -/
theorem mem_nonterminalPlaces (before : List Symbol) (name : String) (after : List Symbol) :
    (name, after) ∈ nonterminalPlaces (before ++ .nonterminal name :: after) := by
  induction before with
  | nil => exact List.mem_cons_self
  | cons x before ih =>
    cases x with
    | nonterminal other => exact List.mem_cons_of_mem _ ih
    | terminal other => exact ih
    | epsilon => exact ih
    | endMarker => exact ih

/-- Empty sets fit. -/
theorem fits_emptySets (g : Grammar) (alphabet : List String) : Fits g alphabet g.emptySets := by
  refine ⟨?_, ?_, ?_⟩
  · rw [emptySets, List.map_map]
    rfl
  · intro entry hentry
    obtain ⟨rule, -, rfl⟩ := List.mem_map.mp hentry
    exact List.Pairwise.nil
  · intro entry hentry
    obtain ⟨rule, -, rfl⟩ := List.mem_map.mp hentry
    exact List.nil_subset _

/-- First symbols are known. -/
theorem known_firstAdditions (g : Grammar) (alphabet : List String) :
    Known g alphabet (g.firstAdditions alphabet) := by
  intro addition hmem sets h
  obtain ⟨rule, -, hmem⟩ := List.mem_flatMap.mp hmem
  obtain ⟨alternative, -, rfl⟩ := List.mem_map.mp hmem
  exact firstOfSequence_known h alternative

/-- The computed sets of first symbols fit, and one more pass does not change them. -/
theorem firstSets_settled (g : Grammar) (alphabet : List String) :
    Fits g alphabet (g.firstSets alphabet) ∧
      g.firstPass alphabet (g.firstSets alphabet) = g.firstSets alphabet := by
  rw [firstSets, firstPass_eq]
  exact settle_pass (known_firstAdditions g alphabet) (fits_emptySets g alphabet)

/-- What no first symbols are needed for and additions of them keep holds of the computed sets. -/
theorem firstSets_induction {p : Sets → Prop} (start : p g.emptySets)
    (step : ∀ rule ∈ g.rules, ∀ alternative ∈ rule.alternatives,
      ∀ sets, Fits g alphabet sets → p sets →
        p (addTo rule.lhs (firstOfSequence alphabet sets alternative) sets)) :
    p (g.firstSets alphabet) := by
  rw [firstSets, firstPass_eq]
  refine settle_induction (known_firstAdditions g alphabet) (fun addition hmem => ?_)
    (fits_emptySets g alphabet) start
  obtain ⟨rule, hrule, hmem⟩ := List.mem_flatMap.mp hmem
  obtain ⟨alternative, halternative, rfl⟩ := List.mem_map.mp hmem
  exact step rule hrule alternative halternative

/-- The sets that passes for following symbols start from fit. -/
theorem fits_startSets (g : Grammar) (alphabet : List String) : Fits g alphabet g.startSets := by
  refine ⟨?_, ?_, ?_⟩
  · rw [startSets, List.map_map]
    rfl
  · intro entry hentry
    obtain ⟨rule, -, rfl⟩ := List.mem_map.mp hentry
    dsimp only
    split
    · exact List.pairwise_singleton _ _
    · exact List.Pairwise.nil
  · intro entry hentry
    obtain ⟨rule, -, rfl⟩ := List.mem_map.mp hentry
    dsimp only
    split <;> simp [known]

/-- Following symbols are known. -/
theorem known_followAdditions {first : Sets} (hfirst : Fits g alphabet first) :
    Known g alphabet (g.followAdditions alphabet first) := by
  intro addition hmem follow h
  obtain ⟨rule, -, hmem⟩ := List.mem_flatMap.mp hmem
  obtain ⟨alternative, -, hmem⟩ := List.mem_flatMap.mp hmem
  obtain ⟨place, -, rfl⟩ := List.mem_map.mp hmem
  exact followAt_known hfirst h rule.lhs place.2

/-- The computed sets of following symbols fit, and one more pass does not change them. -/
theorem followSets_settled {first : Sets} (h : Fits g alphabet first) :
    Fits g alphabet (g.followSets alphabet first) ∧
      g.followPass alphabet first (g.followSets alphabet first) = g.followSets alphabet first := by
  rw [followSets, followPass_eq]
  exact settle_pass (known_followAdditions h) (fits_startSets g alphabet)

/-- What holds at the start and additions of following symbols keep holds of the computed sets. -/
theorem followSets_induction {first : Sets} (hfirst : Fits g alphabet first) {p : Sets → Prop}
    (start : p g.startSets)
    (step : ∀ rule ∈ g.rules, ∀ alternative ∈ rule.alternatives,
      ∀ place ∈ nonterminalPlaces alternative, ∀ follow, Fits g alphabet follow → p follow →
        p (addTo place.1 (followAt alphabet first follow rule.lhs place.2) follow)) :
    p (g.followSets alphabet first) := by
  rw [followSets, followPass_eq]
  refine settle_induction (known_followAdditions hfirst) (fun addition hmem => ?_)
    (fits_startSets g alphabet) start
  obtain ⟨rule, hrule, hmem⟩ := List.mem_flatMap.mp hmem
  obtain ⟨alternative, halternative, hmem⟩ := List.mem_flatMap.mp hmem
  obtain ⟨place, hplace, rfl⟩ := List.mem_map.mp hmem
  exact step rule hrule alternative halternative place hplace

/-- The computed lookahead sets contain what passes add to them. -/
theorem closed (g : Grammar) (alphabet : List String) :
    Closed g alphabet (g.firstSets alphabet) (g.followSets alphabet (g.firstSets alphabet)) := by
  obtain ⟨fits, fixed⟩ := firstSets_settled g alphabet
  obtain ⟨fits', fixed'⟩ := followSets_settled fits
  rw [firstPass_eq] at fixed
  rw [followPass_eq] at fixed'
  refine ⟨fits, ?_, ?_⟩
  · rintro name alternative ⟨rule, hrule, rfl, halternative⟩
    have hmem : (⟨rule.lhs, fun sets => firstOfSequence alphabet sets alternative⟩ : Addition) ∈
        g.firstAdditions alphabet :=
      List.mem_flatMap.mpr ⟨rule, hrule, List.mem_map.mpr ⟨alternative, halternative, rfl⟩⟩
    exact symbols_subset fits fixed hmem (List.mem_map.mpr ⟨rule, hrule, rfl⟩)
  · rintro lhs name before after ⟨rule, hrule, rfl, halternative⟩ hname
    have hmem :
        (⟨name, fun follow => followAt alphabet (g.firstSets alphabet) follow rule.lhs after⟩ :
        Addition) ∈ g.followAdditions alphabet (g.firstSets alphabet) :=
      List.mem_flatMap.mpr ⟨rule, hrule, List.mem_flatMap.mpr ⟨_, halternative,
        List.mem_map.mpr ⟨_, mem_nonterminalPlaces before name after, rfl⟩⟩⟩
    exact symbols_subset fits' fixed' hmem hname

/-- A symbol of a listed set is in the set of the nonterminal. -/
theorem mem_setOf_of_lookup {sets : Sets} {name : String} {set : List Symbol} {s : Symbol}
    (h : sets.lookup name = some set) (hs : s ∈ set) : s ∈ setOf sets name := by
  rwa [setOf, h]

/-- Only nonterminals that yield the empty word have the empty string in their sets. -/
def Vanishing (g : Grammar) (sets : Sets) : Prop :=
  ∀ name, .epsilon ∈ setOf sets name → g.Yields [.nonterminal name] []

/-- A sequence that can vanish according to sound sets yields the empty word. -/
theorem Vanishing.yields {sets : Sets} (h : Vanishing g sets) {symbols : List Symbol}
    (hvanish : .epsilon ∈ firstOfSequence alphabet sets symbols) : g.Yields symbols [] := by
  induction symbols with
  | nil => exact .nil
  | cons x rest ih =>
    obtain ⟨set, hset, ⟨-, hne⟩ | ⟨hmem, hrest⟩⟩ := mem_firstOfSequence_cons.mp hvanish
    · exact (hne rfl).elim
    · cases x with
      | terminal name =>
        rw [firstOf?] at hset
        split at hset
        · cases hset
          cases List.mem_singleton.mp hmem
        · cases hset
      | nonterminal name =>
        exact (h name (mem_setOf_of_lookup hset hmem)).append (ih hrest)
      | epsilon => exact .epsilon (ih hrest)
      | endMarker =>
        cases hset
        cases List.mem_singleton.mp hmem

/-- No symbol is in an empty set. -/
theorem not_mem_setOf_emptySets {s : Symbol} {name : String} : s ∉ setOf g.emptySets name := by
  intro hs
  obtain ⟨rule, hrule, rfl⟩ := List.mem_map.mp ((fits_emptySets g []).mem_names hs)
  rw [show setOf g.emptySets rule.lhs = [] from setOf_map _ hrule] at hs
  cases hs

/-- An addition of first symbols keeps sets sound. -/
theorem Vanishing.addTo {sets : Sets} (h : Vanishing g sets) (hfits : Fits g alphabet sets)
    {rule : Rule} (hrule : rule ∈ g.rules) {alternative : List Symbol}
    (halternative : alternative ∈ rule.alternatives) :
    Vanishing g (addTo rule.lhs (firstOfSequence alphabet sets alternative) sets) := by
  intro name hvanish
  obtain ⟨rfl, -, hvanish⟩ | hvanish := (mem_setOf_addTo hfits).mp hvanish
  · exact yields_nonterminal.mpr ⟨alternative, ⟨rule, hrule, rfl, halternative⟩, h.yields hvanish⟩
  · exact h name hvanish

/-- The computed sets of first symbols have the empty string only where a nonterminal yields it. -/
theorem vanishing_firstSets (g : Grammar) (alphabet : List String) :
    Vanishing g (g.firstSets alphabet) :=
  firstSets_induction (fun _ hvanish => (not_mem_setOf_emptySets hvanish).elim)
    fun _ hrule _ halternative _ hfits h => h.addTo hfits hrule halternative

/-- A sequence begins with the first symbol of each word that it yields, and can vanish if it yields
the empty word. -/
theorem Closed.begins_of_yields {first follow : Sets} (h : Closed g alphabet first follow)
    (hcovered : g.Covered alphabet) {symbols : List Symbol} {word : List String}
    (hyields : g.Yields symbols word) (hcovers : Covers alphabet symbols) :
    ((word.head?.map Symbol.terminal).getD .epsilon) ∈
      firstOfSequence alphabet first symbols := by
  induction hyields with
  | nil => exact List.mem_singleton.mpr rfl
  | epsilon _ ih =>
    refine mem_firstOfSequence_cons.mpr ⟨_, rfl, .inr ⟨List.mem_singleton.mpr rfl, ih ?_⟩⟩
    exact fun name hname => hcovers name (List.mem_cons_of_mem _ hname)
  | @terminal name rest word _ ih =>
    refine mem_firstOfSequence_cons.mpr ⟨[.terminal name], ?_, .inl ⟨?_, ?_⟩⟩
    · rw [firstOf?, if_pos]
      simpa using hcovers name List.mem_cons_self
    · exact List.mem_singleton.mpr rfl
    · intro heq
      cases heq
  | @nonterminal name alternative rest word more hproduces halternative hrest ih ih' =>
    have hmem : name ∈ g.names := by
      obtain ⟨rule, hrule, rfl, -⟩ := hproduces
      exact List.mem_map.mpr ⟨rule, hrule, rfl⟩
    have hbegins := h.begins hproduces (ih (hcovered name alternative hproduces))
    refine mem_firstOfSequence_cons.mpr ⟨setOf first name, h.fits.lookup_eq hmem, ?_⟩
    cases word with
    | nil =>
      right
      exact ⟨hbegins, ih' fun name hname => hcovers name (List.mem_cons_of_mem _ hname)⟩
    | cons t word =>
      left
      refine ⟨hbegins, fun heq => ?_⟩
      cases heq

/-- What comes after a nonterminal in an alternative is among what can follow it, if it begins the
rest of the alternative or, that being empty, follows the alternative's own nonterminal. -/
theorem Closed.follows_of_yields {first follow : Sets} (h : Closed g alphabet first follow)
    (hcovered : g.Covered alphabet) {lhs name : String} {before after : List Symbol}
    (hproduces : g.Produces lhs (before ++ .nonterminal name :: after)) (hname : name ∈ g.names)
    {word : List String} (hyields : g.Yields after word) {next : List String} {t : String}
    (hnext : (word ++ next).head? = some t)
    (hlhs : word = [] → .terminal t ∈ setOf follow lhs) :
    .terminal t ∈ setOf follow name := by
  have hcovers : Covers alphabet after := fun name hname =>
    hcovered lhs _ hproduces name (List.mem_append_right _ (List.mem_cons_of_mem _ hname))
  have hbegins := h.begins_of_yields hcovered hyields hcovers
  refine h.follows hproduces hname ?_
  rw [followAt]
  cases word with
  | nil =>
    have hvanish : (firstOfSequence alphabet first after).contains .epsilon = true := by
      simpa using hbegins
    rw [if_pos hvanish, Symbol.mem_insertAll]
    exact .inl (hlhs rfl)
  | cons s word =>
    cases hnext
    have hfilter : .terminal t ∈
        (firstOfSequence alphabet first after).filter (· ≠ .epsilon) :=
      List.mem_filter.mpr ⟨hbegins, by simp⟩
    split
    · exact Symbol.mem_insertAll.mpr (.inr hfilter)
    · exact hfilter

end SymbolicAlgebra.Grammar
