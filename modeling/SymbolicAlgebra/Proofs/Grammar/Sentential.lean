import SymbolicAlgebra.Proofs.Grammar.Language

/-!
# Sentential forms

What a sequence of symbols can be rewritten to, symbols that are no words yet included: the symbols
that such forms begin with, and those that come after a nonterminal in them. An alternative is shown to
be taken by what it begins with and, where it vanishes, by what comes after its nonterminal.
-/

namespace SymbolicAlgebra

/-- The symbol can be the next one of an input: a terminal, or the end. -/
def Symbol.isNext : Symbol → Bool
  | .terminal _ | .endMarker => true
  | .nonterminal _ | .epsilon => false

namespace Grammar

/-- Some form of the sequence begins with the symbol. -/
def Begins (g : Grammar) (symbols : List Symbol) (s : Symbol) : Prop :=
  ∃ rest, g.Derives symbols (s :: rest)

/-- The symbol stands right after the nonterminal in a form of some nonterminal of the grammar. -/
def Precedes (g : Grammar) (name : String) (s : Symbol) : Prop :=
  ∃ rule ∈ g.rules, ∃ before after,
    g.Derives [.nonterminal rule.lhs] (before ++ .nonterminal name :: s :: after)

/-- A form of the start symbol ends with the nonterminal. -/
def Closes (g : Grammar) (name : String) : Prop :=
  ∃ before, g.Derives [.nonterminal g.start] (before ++ [.nonterminal name])

/-- The symbol can come after the nonterminal; the end of the input does after the start symbol. -/
def Follows (g : Grammar) (name : String) (s : Symbol) : Prop :=
  g.Precedes name s ∨ (s = .endMarker ∧ g.Closes name)

/-- The next symbol of an input shows that the alternative of the nonterminal is to be taken. -/
def Predicts (g : Grammar) (name : String) (alternative : List Symbol) (s : Symbol) : Prop :=
  s.isNext = true ∧ (g.Begins alternative s ∨ (g.Derives alternative [] ∧ g.Follows name s))

variable {g : Grammar}

/-- A form of a form is a form. -/
theorem Derives.trans {a b c : List Symbol} (h : g.Derives a b) (h' : g.Derives b c) :
    g.Derives a c :=
  Relation.ReflTransGen.trans h h'

/-- A nonterminal derives what its alternatives derive. -/
theorem Derives.of_produces {name : String} {alternative form : List Symbol}
    (hproduces : g.Produces name alternative) (h : g.Derives alternative form) :
    g.Derives [.nonterminal name] form := by
  refine .head ?_ h
  simpa using Step.replace [] [] hproduces

/-- What a first symbol derives comes before what the rest derives. -/
theorem Derives.cons {x : Symbol} {rest form form' : List Symbol} (hx : g.Derives [x] form)
    (hrest : g.Derives rest form') : g.Derives (x :: rest) (form ++ form') :=
  (hx.append rest).trans (hrest.prepend form)

/-- A sequence begins with what its first symbol begins with. -/
theorem Begins.cons {x s : Symbol} (h : g.Begins [x] s) (rest : List Symbol) :
    g.Begins (x :: rest) s := by
  obtain ⟨after, h⟩ := h
  exact ⟨after ++ rest, h.append rest⟩

/-- A sequence begins with what comes after a first symbol that vanishes. -/
theorem Begins.skip {x s : Symbol} {rest : List Symbol} (hx : g.Derives [x] [])
    (h : g.Begins rest s) : g.Begins (x :: rest) s := by
  obtain ⟨after, h⟩ := h
  exact ⟨after, hx.cons h⟩

/-- What can begin the rest of an alternative comes after the nonterminal before it. -/
theorem Precedes.of_begins {rule : Rule} {name : String} {before after : List Symbol} {s : Symbol}
    (hrule : rule ∈ g.rules)
    (hproduces : g.Produces rule.lhs (before ++ .nonterminal name :: after))
    (h : g.Begins after s) : g.Precedes name s := by
  obtain ⟨rest, h⟩ := h
  refine ⟨rule, hrule, before, rest, .of_produces hproduces ?_⟩
  have := h.prepend (before ++ [.nonterminal name])
  simpa using this

/-- What comes after a nonterminal comes after the last symbol of its alternatives that does not
vanish. -/
theorem Follows.of_produces {lhs name : String} {before after : List Symbol} {s : Symbol}
    (hproduces : g.Produces lhs (before ++ .nonterminal name :: after))
    (hafter : g.Derives after []) (h : g.Follows lhs s) : g.Follows name s := by
  have hlast : g.Derives [.nonterminal lhs] (before ++ [.nonterminal name]) := by
    refine .of_produces hproduces ?_
    have := hafter.prepend (before ++ [.nonterminal name])
    simpa using this
  obtain ⟨rule, hrule, left, right, h⟩ | ⟨hend, left, h⟩ := h
  · refine .inl ⟨rule, hrule, left ++ before, right, h.trans ?_⟩
    have := (hlast.append (s :: right)).prepend left
    simpa using this
  · refine .inr ⟨hend, left ++ before, h.trans ?_⟩
    have := hlast.prepend left
    simpa using this

/-- A nonterminal in a sequence of two parts stands in one of them. -/
theorem append_eq_append_cons_iff {a b before after : List Symbol} {x : Symbol} :
    a ++ b = before ++ x :: after ↔
      (∃ rest, a = before ++ x :: rest ∧ after = rest ++ b) ∨
        ∃ start, before = a ++ start ∧ b = start ++ x :: after := by
  rw [List.append_eq_append_iff]
  constructor
  · rintro (⟨start, rfl, rfl⟩ | ⟨rest, rfl, hrest⟩)
    · exact .inr ⟨start, rfl, rfl⟩
    · obtain ⟨rfl, rfl⟩ | ⟨rest, rfl, rfl⟩ := List.append_eq_cons_iff.mp hrest.symm
      · exact .inr ⟨[], by simp, rfl⟩
      · exact .inl ⟨rest, rfl, rfl⟩
  · rintro (⟨rest, rfl, rfl⟩ | ⟨start, rfl, rfl⟩)
    · exact .inr ⟨x :: rest, rfl, rfl⟩
    · exact .inl ⟨start, rfl, rfl⟩

end Grammar

end SymbolicAlgebra
