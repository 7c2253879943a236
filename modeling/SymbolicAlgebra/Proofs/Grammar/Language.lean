import Mathlib
import SymbolicAlgebra.Grammar.Basic

/-!
# Languages of grammars

A grammar generates the words that its start symbol can be rewritten to, where a nonterminal is
replaced by an alternative of its rule and the empty string vanishes. The relation `Yields` tells
the same symbol by symbol, with the derivation as its tree.
-/

namespace SymbolicAlgebra.Grammar

/-- The nonterminal may be replaced by the alternative. -/
def Produces (g : Grammar) (name : String) (alternative : List Symbol) : Prop :=
  ∃ rule ∈ g.rules, rule.lhs = name ∧ alternative ∈ rule.alternatives

/-- One rewriting step at any place of a sequence of symbols. -/
inductive Step (g : Grammar) : List Symbol → List Symbol → Prop
  | replace (before after : List Symbol) {name : String} {alternative : List Symbol} :
    g.Produces name alternative →
    Step g (before ++ .nonterminal name :: after) (before ++ (alternative ++ after))
  | vanish (before after : List Symbol) : Step g (before ++ .epsilon :: after) (before ++ after)

/-- Any number of rewriting steps. -/
def Derives (g : Grammar) : List Symbol → List Symbol → Prop := Relation.ReflTransGen g.Step

/-- The start symbol derives the word. -/
def Generates (g : Grammar) (word : List String) : Prop :=
  g.Derives [.nonterminal g.start] (word.map .terminal)

/-- A sequence of symbols yields the words of its symbols in a row. -/
inductive Yields (g : Grammar) : List Symbol → List String → Prop
  | nil : Yields g [] []
  | epsilon {rest : List Symbol} {word : List String} :
    Yields g rest word → Yields g (.epsilon :: rest) word
  | terminal {name : String} {rest : List Symbol} {word : List String} :
    Yields g rest word → Yields g (.terminal name :: rest) (name :: word)
  | nonterminal {name : String} {alternative rest : List Symbol} {word more : List String} :
    g.Produces name alternative → Yields g alternative word → Yields g rest more →
    Yields g (.nonterminal name :: rest) (word ++ more)

variable {g : Grammar}

/-- Sequences in a row yield words in a row. -/
theorem Yields.append {a b : List Symbol} {u v : List String} (ha : g.Yields a u)
    (hb : g.Yields b v) : g.Yields (a ++ b) (u ++ v) := by
  induction ha with
  | nil => exact hb
  | epsilon _ ih => exact .epsilon ih
  | terminal _ ih => exact .terminal ih
  | nonterminal hrule halternative _ _ ih =>
    rw [List.append_assoc]
    exact .nonterminal hrule halternative ih

/-- What sequences in a row yield is made of what they yield. -/
theorem Yields.split {a b : List Symbol} {w : List String} (h : g.Yields (a ++ b) w) :
    ∃ u v, w = u ++ v ∧ g.Yields a u ∧ g.Yields b v := by
  induction a generalizing w with
  | nil => exact ⟨[], w, rfl, .nil, h⟩
  | cons symbol a ih =>
    cases h with
    | epsilon h =>
      obtain ⟨u, v, rfl, ha, hb⟩ := ih h
      exact ⟨u, v, rfl, .epsilon ha, hb⟩
    | terminal h =>
      obtain ⟨u, v, rfl, ha, hb⟩ := ih h
      exact ⟨_ :: u, v, rfl, .terminal ha, hb⟩
    | nonterminal hrule halternative h =>
      obtain ⟨u, v, rfl, ha, hb⟩ := ih h
      exact ⟨_ ++ u, v, (List.append_assoc _ _ _).symm, .nonterminal hrule halternative ha, hb⟩

/-- A single nonterminal yields what one of its alternatives does. -/
theorem yields_nonterminal {name : String} {w : List String} :
    g.Yields [.nonterminal name] w ↔ ∃ alternative, g.Produces name alternative ∧
      g.Yields alternative w := by
  constructor
  · intro h
    cases h with
    | nonterminal hrule halternative hrest =>
      cases hrest
      rw [List.append_nil]
      exact ⟨_, hrule, halternative⟩
  · rintro ⟨alternative, hrule, h⟩
    simpa using Yields.nonterminal hrule h .nil

/-- A step can be undone before what it leads to is yielded. -/
theorem yields_of_step {a b : List Symbol} {w : List String} (hstep : g.Step a b)
    (h : g.Yields b w) : g.Yields a w := by
  cases hstep with
  | replace before after hrule =>
    obtain ⟨u, v, rfl, hbefore, h⟩ := h.split
    obtain ⟨x, y, rfl, halternative, hafter⟩ := h.split
    exact hbefore.append (.nonterminal hrule halternative hafter)
  | vanish before after =>
    obtain ⟨u, v, rfl, hbefore, hafter⟩ := h.split
    exact hbefore.append (.epsilon hafter)

/-- A step at the end of a sequence is a step of the sequence. -/
theorem Step.prepend {a b : List Symbol} (h : g.Step a b) (before : List Symbol) :
    g.Step (before ++ a) (before ++ b) := by
  cases h with
  | replace start after hrule =>
    rw [← List.append_assoc, ← List.append_assoc]
    exact .replace (before ++ start) after hrule
  | vanish start after =>
    rw [← List.append_assoc, ← List.append_assoc]
    exact .vanish (before ++ start) after

/-- A step at the start of a sequence is a step of the sequence. -/
theorem Step.append {a b : List Symbol} (h : g.Step a b) (after : List Symbol) :
    g.Step (a ++ after) (b ++ after) := by
  cases h with
  | replace before rest hrule =>
    simp only [List.append_assoc, List.cons_append]
    exact .replace before (rest ++ after) hrule
  | vanish before rest =>
    simp only [List.append_assoc, List.cons_append]
    exact .vanish before (rest ++ after)

/-- Steps at the end of a sequence are steps of the sequence. -/
theorem Derives.prepend {a b : List Symbol} (h : g.Derives a b) (before : List Symbol) :
    g.Derives (before ++ a) (before ++ b) :=
  Relation.ReflTransGen.lift (before ++ ·) (fun _ _ hstep => hstep.prepend before) _ _ h

/-- Steps at the start of a sequence are steps of the sequence. -/
theorem Derives.append {a b : List Symbol} (h : g.Derives a b) (after : List Symbol) :
    g.Derives (a ++ after) (b ++ after) :=
  Relation.ReflTransGen.lift (· ++ after) (fun _ _ hstep => hstep.append after) _ _ h

/-- What is yielded is derived. -/
theorem derives_of_yields {a : List Symbol} {w : List String} (h : g.Yields a w) :
    g.Derives a (w.map .terminal) := by
  induction h with
  | nil => exact .refl
  | epsilon _ ih => exact .head (.vanish [] _) ih
  | terminal _ ih => exact ih.prepend [_]
  | nonterminal hrule _ _ halternative hrest =>
    rw [List.map_append]
    refine .head (.replace [] _ hrule) ?_
    exact (halternative.append _).trans (hrest.prepend _)

/-- Terminals yield their names. -/
theorem yields_terminals (w : List String) : g.Yields (w.map .terminal) w := by
  induction w with
  | nil => exact .nil
  | cons name w ih => exact .terminal ih

/-- What is derived is yielded. -/
theorem yields_of_derives {a : List Symbol} {w : List String}
    (h : g.Derives a (w.map .terminal)) : g.Yields a w := by
  unfold Derives at h
  induction h using Relation.ReflTransGen.head_induction_on with
  | refl => exact yields_terminals w
  | head hstep _ ih => exact yields_of_step hstep ih

/-- The generated words are those that the start symbol yields. -/
theorem generates_iff_yields {w : List String} :
    g.Generates w ↔ g.Yields [.nonterminal g.start] w :=
  ⟨yields_of_derives, derives_of_yields⟩

end SymbolicAlgebra.Grammar
