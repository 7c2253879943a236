import SymbolicAlgebra.Proofs.Grammar.Sentential
import SymbolicAlgebra.Proofs.Grammar.Rules

/-!
# Beginnings of sentences

In the forms of the start symbol of a grammar stand only nonterminals that are defined, and the end of the
input only if some alternative contains it. So if every nonterminal derives a word, each form does, and
terminals that a form begins with begin a sentence.
-/

namespace SymbolicAlgebra.Grammar

variable {g : Grammar}

/-- The word begins a word that the grammar generates. -/
def Viable (g : Grammar) (word : List String) : Prop := ∃ more, g.Generates (word ++ more)

/-- Every nonterminal derives a word. -/
def Productive (g : Grammar) : Prop :=
  ∀ name ∈ g.names, ∃ word : List String, g.Derives [.nonterminal name] (word.map .terminal)

/-- Every nonterminal in an alternative is defined. -/
theorem mem_names_of_produces {lhs name : String} {alternative : List Symbol}
    (hproduces : g.Produces lhs alternative) (hname : .nonterminal name ∈ alternative) :
    name ∈ g.names := by
  obtain ⟨rule, hrule, rfl, halternative⟩ := hproduces
  have sound := g.sound
  rw [fault?] at sound
  split at sound
  · cases sound
  · rw [List.findSome?_eq_none_iff] at sound
    have hfault := List.findSome?_eq_none_iff.mp (sound rule hrule) alternative halternative
    rw [Rule.alternativeFault?] at hfault
    split at hfault
    · cases hfault
    · have hdefined := List.findSome?_eq_none_iff.mp hfault _ hname
      dsimp only at hdefined
      split at hdefined
      · rename_i hcontains
        exact List.contains_iff_mem.mp hcontains
      · cases hdefined

/-- A sequence of symbols that may stand in forms: nonterminals are defined, and none is the end. -/
def Formed (g : Grammar) (symbols : List Symbol) : Prop :=
  ∀ x ∈ symbols, x ≠ .endMarker ∧ ∀ name, x = .nonterminal name → name ∈ g.names

/-- The start symbol is defined. -/
theorem formed_start (g : Grammar) : g.Formed [.nonterminal g.start] := by
  intro x hx
  obtain rfl := List.mem_singleton.mp hx
  refine ⟨by simp, fun name hname => ?_⟩
  cases hname
  exact List.mem_cons_self

/-- What may stand in forms is still so after rewriting, where no alternative contains the end. -/
theorem Formed.derives {a b : List Symbol} (h : g.Formed a)
    (hend : ∀ name alternative, g.Produces name alternative → .endMarker ∉ alternative)
    (hderives : g.Derives a b) : g.Formed b := by
  unfold Derives at hderives
  induction hderives with
  | refl => exact h
  | tail _ hstep ih =>
    cases hstep with
    | @replace before after name alternative hproduces =>
      intro x hx
      rw [List.mem_append, List.mem_append] at hx
      obtain hx | hx | hx := hx
      · exact ih x (List.mem_append_left _ hx)
      · refine ⟨fun heq => hend name alternative hproduces (heq ▸ hx), fun inner heq => ?_⟩
        exact mem_names_of_produces hproduces (heq ▸ hx)
      · exact ih x (List.mem_append_right _ (List.mem_cons_of_mem _ hx))
    | vanish before after =>
      intro x hx
      obtain hx | hx := List.mem_append.mp hx
      · exact ih x (List.mem_append_left _ hx)
      · exact ih x (List.mem_append_right _ (List.mem_cons_of_mem _ hx))

/-- Where every nonterminal derives a word, sequences that may stand in forms yield one. -/
theorem Productive.exists_yields (h : Productive g) {symbols : List Symbol} (hformed : g.Formed symbols) :
    ∃ word, g.Yields symbols word := by
  induction symbols with
  | nil => exact ⟨[], .nil⟩
  | cons x rest ih =>
    obtain ⟨word, hrest⟩ := ih fun y hy => hformed y (List.mem_cons_of_mem _ hy)
    obtain ⟨hne, hdefined⟩ := hformed x List.mem_cons_self
    cases x with
    | terminal name => exact ⟨name :: word, .terminal hrest⟩
    | nonterminal name =>
      obtain ⟨first, hfirst⟩ := h name (hdefined name rfl)
      exact ⟨first ++ word, (yields_of_derives hfirst).append hrest⟩
    | epsilon => exact ⟨word, .epsilon hrest⟩
    | endMarker => exact (hne rfl).elim

/-- Terminals that a form of the start symbol begins with begin a sentence. -/
theorem Productive.viable (h : Productive g)
    (hend : ∀ name alternative, g.Produces name alternative → .endMarker ∉ alternative)
    {word : List String} {form : List Symbol}
    (hderives : g.Derives [.nonterminal g.start] (word.map .terminal ++ form)) : g.Viable word := by
  have hformed := (formed_start g).derives hend hderives
  obtain ⟨more, hmore⟩ := h.exists_yields fun x hx => hformed x (List.mem_append_right _ hx)
  refine ⟨more, ?_⟩
  rw [Generates, List.map_append]
  exact hderives.trans ((derives_of_yields hmore).prepend _)

/-- Terminals begin a sentence together with one that comes after them in a form of the start symbol. -/
theorem Productive.viable_concat (h : Productive g)
    (hend : ∀ name alternative, g.Produces name alternative → .endMarker ∉ alternative)
    {word : List String} {name : String} {form : List Symbol}
    (hderives : g.Derives [.nonterminal g.start] (word.map .terminal ++ .terminal name :: form)) :
    g.Viable (word ++ [name]) := by
  have hform : (word ++ [name]).map .terminal ++ form = word.map .terminal ++ .terminal name :: form := by
    rw [List.map_append, List.append_assoc]
    rfl
  exact h.viable hend (hform ▸ hderives)

/-- Leaving out the empty strings of a sequence is rewriting it. -/
theorem derives_filter (symbols : List Symbol) :
    g.Derives symbols (symbols.filter (· ≠ .epsilon)) := by
  induction symbols with
  | nil => exact .refl
  | cons x rest ih =>
    by_cases hx : x = .epsilon
    · subst hx
      exact .head (.vanish [] rest) ih
    · rw [List.filter_cons_of_pos (by simpa using hx)]
      exact ih.prepend [x]

/-- A sequence yields the same without its empty strings. -/
theorem Yields.filter {symbols : List Symbol} {word : List String} (h : g.Yields symbols word) :
    g.Yields (symbols.filter (· ≠ .epsilon)) word := by
  induction h with
  | nil => exact .nil
  | epsilon _ ih => exact ih
  | terminal _ ih => exact .terminal ih
  | nonterminal hproduces halternative _ _ ih => exact .nonterminal hproduces halternative ih

end SymbolicAlgebra.Grammar
