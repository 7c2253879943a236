import SymbolicAlgebra.ParseTree.Parser
import SymbolicAlgebra.Proofs.Grammar.Table

/-!
# What a parser takes

What is parsed is derived, by induction on the bound of the depth: a symbol takes tokens that it yields.
A larger bound changes nothing, unless the bound is met, and a nonterminal is parsed where the alternative
that the table gives for it is.
-/

namespace SymbolicAlgebra.ParseTree

open Grammar

/-- The names of the terminals that tokens match. -/
def terminals (tokens : List Token) : List String := tokens.map Token.terminal

/-- No alternative of the grammar contains the end of the input. -/
def Endless (g : Grammar) : Prop :=
  ∀ name alternative, g.Produces name alternative → .endMarker ∉ alternative

variable {g : Grammar} {table : Table} {sourceEnd : Nat}

/-- Symbols are parsed in turn where the first one is and, unless that ends the parse, the others are
after it. -/
theorem parseAll_cons_eq_ok {parse : Symbol → List Token → Except Failure Parsed} {symbol : Symbol}
    {symbols : List Symbol} {tokens : List Token} {parsed : Parsed} :
    parseAll parse (symbol :: symbols) tokens = .ok parsed ↔
      ∃ here, parse symbol tokens = .ok here ∧
        ((here.ended = true ∧ parsed = here) ∨ (here.ended = false ∧
          ∃ more, parseAll parse symbols here.rest = .ok more ∧
            parsed = { more with trees := here.trees ++ more.trees })) := by
  rw [parseAll]
  cases parse symbol tokens with
  | error failure => simp [bind, Except.bind]
  | ok here =>
    cases hended : here.ended with
    | true => simp [bind, Except.bind, hended, pure, Except.pure, eq_comm (a := here)]
    | false =>
      cases hmore : parseAll parse symbols here.rest <;>
        simp [bind, Except.bind, hended, pure, Except.pure, hmore, eq_comm (b := parsed)]

/-- Parsing symbols in turn fails where the first one does or, that one not ending the parse, the others
do after it. -/
theorem parseAll_cons_eq_error {parse : Symbol → List Token → Except Failure Parsed} {symbol : Symbol}
    {symbols : List Symbol} {tokens : List Token} {failure : Failure} :
    parseAll parse (symbol :: symbols) tokens = .error failure ↔
      parse symbol tokens = .error failure ∨
        ∃ here, parse symbol tokens = .ok here ∧ here.ended = false ∧
          parseAll parse symbols here.rest = .error failure := by
  rw [parseAll]
  cases parse symbol tokens with
  | error failure => simp [bind, Except.bind]
  | ok here =>
    cases hended : here.ended with
    | true => simp [bind, Except.bind, hended, pure, Except.pure]
    | false =>
      cases hmore : parseAll parse symbols here.rest <;>
        simp [bind, Except.bind, hended, pure, Except.pure, hmore]

/-- Where a nonterminal is parsed before a token, the alternative that the table gives is. -/
theorem parseSymbol_nonterminal_eq_ok {fuel : Nat} {name : String} {token : Token} {tokens : List Token}
    {parsed : Parsed} :
    parseSymbol table sourceEnd (fuel + 1) (.nonterminal name) (token :: tokens) = .ok parsed ↔
      ∃ alternative below, table.lookup? name (.terminal token.terminal) = some alternative ∧
        parseAll (parseSymbol table sourceEnd fuel) alternative (token :: tokens) = .ok below ∧
        parsed = { below with trees := [ofChildren name token.span.start below.trees] } := by
  rw [parseSymbol]
  cases table.lookup? name (.terminal token.terminal) with
  | none => simp
  | some alternative =>
    cases hbelow : parseAll (parseSymbol table sourceEnd fuel) alternative (token :: tokens) <;>
      simp [bind, Except.bind, pure, Except.pure, hbelow, eq_comm]

/-- A symbol parser that never ends the parse and takes only what its symbol yields. -/
def SoundParser (g : Grammar) (parse : Symbol → List Token → Except Failure Parsed) : Prop :=
  ∀ symbol tokens parsed, symbol ≠ .endMarker → parse symbol tokens = .ok parsed →
    parsed.ended = false ∧
      ∃ used, tokens = used ++ parsed.rest ∧ g.Yields [symbol] (terminals used)

/-- Parsing symbols in turn takes only what they yield in a row. -/
theorem parseAll_sound {parse : Symbol → List Token → Except Failure Parsed}
    (h : SoundParser g parse) {symbols : List Symbol} (hend : .endMarker ∉ symbols)
    {tokens : List Token} {parsed : Parsed} (hparse : parseAll parse symbols tokens = .ok parsed) :
    parsed.ended = false ∧
      ∃ used, tokens = used ++ parsed.rest ∧ g.Yields symbols (terminals used) := by
  induction symbols generalizing tokens parsed with
  | nil =>
    cases hparse
    exact ⟨rfl, [], rfl, .nil⟩
  | cons symbol symbols ih =>
    rw [List.mem_cons, not_or] at hend
    rw [parseAll] at hparse
    cases hhere : parse symbol tokens with
    | error failure => rw [hhere] at hparse; cases hparse
    | ok here =>
      obtain ⟨hended, used, rfl, hyields⟩ := h symbol tokens here (Ne.symm hend.1) hhere
      cases hmore : parseAll parse symbols here.rest with
      | error failure =>
        simp only [hhere, hmore, bind, Except.bind, hended] at hparse
        cases hparse
      | ok more =>
        simp only [hhere, hmore, bind, Except.bind, hended] at hparse
        cases hparse
        obtain ⟨hmoreEnded, used', hrest, hyields'⟩ := ih hend.2 hmore
        refine ⟨hmoreEnded, used ++ used', ?_, ?_⟩
        · rw [hrest, List.append_assoc]
        · rw [terminals, List.map_append]
          exact hyields.append hyields'

/-- Parsing a symbol takes only what it yields. -/
theorem parseSymbol_sound (h : Table.Built g table) (hend : Endless g) (fuel : Nat) :
    SoundParser g (parseSymbol table sourceEnd fuel) := by
  induction fuel with
  | zero => intro symbol tokens parsed _ hparse; cases hparse
  | succ fuel ih =>
    intro symbol tokens parsed hsymbol hparse
    cases tokens with
    | nil =>
      rw [parseSymbol] at hparse
      cases symbol with
      | terminal name => cases hparse
      | nonterminal name =>
        rw [parseAtEnd] at hparse
        split at hparse
        · rename_i hnullable
          cases hparse
          exact ⟨rfl, [], rfl, h.isNullable_iff.mp hnullable⟩
        · cases hparse
      | epsilon =>
        cases hparse
        exact ⟨rfl, [], rfl, .epsilon .nil⟩
      | endMarker => exact (hsymbol rfl).elim
    | cons token tokens =>
      cases symbol with
      | terminal name =>
        rw [parseSymbol] at hparse
        split at hparse
        · rename_i hname
          cases hparse
          subst hname
          exact ⟨rfl, [token], rfl, .terminal .nil⟩
        · cases hparse
      | nonterminal name =>
        rw [parseSymbol] at hparse
        split at hparse
        · cases hparse
        · rename_i alternative hlookup
          have hproduces := h.produces_of_lookup? hlookup
          cases hbelow : parseAll (parseSymbol table sourceEnd fuel) alternative
              (token :: tokens) with
          | error failure => rw [hbelow] at hparse; cases hparse
          | ok below =>
            rw [hbelow] at hparse
            cases hparse
            obtain ⟨hended, used, hused, hyields⟩ :=
              parseAll_sound ih (hend name alternative hproduces) hbelow
            exact ⟨hended, used, hused,
              yields_nonterminal.mpr ⟨alternative, hproduces, hyields⟩⟩
      | epsilon =>
        cases hparse
        exact ⟨rfl, [], rfl, .epsilon .nil⟩
      | endMarker => exact (hsymbol rfl).elim

/-- A parser that parses all that another one does, in the same way. -/
def Extends (parse parse' : Symbol → List Token → Except Failure Parsed) : Prop :=
  ∀ symbol tokens parsed, parse symbol tokens = .ok parsed → parse' symbol tokens = .ok parsed

/-- Parsing symbols in turn by a parser that parses more. -/
theorem parseAll_extends {parse parse' : Symbol → List Token → Except Failure Parsed}
    (h : Extends parse parse') {symbols : List Symbol} {tokens : List Token} {parsed : Parsed}
    (hparse : parseAll parse symbols tokens = .ok parsed) :
    parseAll parse' symbols tokens = .ok parsed := by
  induction symbols generalizing tokens parsed with
  | nil => exact hparse
  | cons symbol symbols ih =>
    rw [parseAll] at hparse ⊢
    cases hhere : parse symbol tokens with
    | error failure => rw [hhere] at hparse; cases hparse
    | ok here =>
      simp only [hhere, h symbol tokens here hhere, bind, Except.bind] at hparse ⊢
      split at hparse
      · rename_i hended
        rw [if_pos hended]
        exact hparse
      · rename_i hended
        rw [if_neg hended]
        cases hmore : parseAll parse symbols here.rest with
        | error failure => rw [hmore] at hparse; cases hparse
        | ok more =>
          rw [hmore] at hparse
          rw [ih hmore]
          exact hparse

/-- Symbols in turn are parsed, or refused, in the same way by a parser that does the same with each symbol
for which the other one does not meet its bound. -/
theorem parseAll_stable {parse parse' : Symbol → List Token → Except Failure Parsed}
    (h : ∀ symbol tokens, parse symbol tokens ≠ .error (.detached .workExhausted) →
      parse' symbol tokens = parse symbol tokens) {symbols : List Symbol} {tokens : List Token}
    (hne : parseAll parse symbols tokens ≠ .error (.detached .workExhausted)) :
    parseAll parse' symbols tokens = parseAll parse symbols tokens := by
  induction symbols generalizing tokens with
  | nil => rfl
  | cons symbol symbols ih =>
    have hhere : parse symbol tokens ≠ .error (.detached .workExhausted) := fun herror =>
      hne (parseAll_cons_eq_error.mpr (.inl herror))
    rw [parseAll, parseAll, h symbol tokens hhere]
    cases hparse : parse symbol tokens with
    | error failure => rfl
    | ok here =>
      cases hended : here.ended with
      | true => simp only [bind, Except.bind, hended, if_true]
      | false =>
        have hmore := ih fun herror =>
          hne (parseAll_cons_eq_error.mpr (.inr ⟨here, hparse, hended, herror⟩))
        simp only [bind, Except.bind, hmore]

/-- A larger bound does not change what comes of a parse that does not meet the bound. -/
theorem parseSymbol_stable (fuel : Nat) (symbol : Symbol) (tokens : List Token)
    (hne : parseSymbol table sourceEnd fuel symbol tokens ≠ .error (.detached .workExhausted)) :
    parseSymbol table sourceEnd (fuel + 1) symbol tokens =
      parseSymbol table sourceEnd fuel symbol tokens := by
  induction fuel generalizing symbol tokens with
  | zero => exact (hne rfl).elim
  | succ fuel ih =>
    cases tokens with
    | nil => rfl
    | cons token tokens =>
      cases symbol with
      | nonterminal name =>
        rw [parseSymbol] at hne
        rw [parseSymbol, parseSymbol]
        cases hlookup : table.lookup? name (.terminal token.terminal) with
        | none => rfl
        | some alternative =>
          have hbelow : parseAll (parseSymbol table sourceEnd (fuel + 1)) alternative (token :: tokens) =
              parseAll (parseSymbol table sourceEnd fuel) alternative (token :: tokens) :=
            parseAll_stable ih fun herror => hne (by
              simp only [hlookup, herror, bind, Except.bind])
          simp only [hbelow]
      | terminal name => rfl
      | epsilon => rfl
      | endMarker => rfl

/-- Larger bounds do not change what comes of a parse that does not meet the bound. -/
theorem parseSymbol_eq_of_le {fuel fuel' : Nat} (h : fuel ≤ fuel') {symbol : Symbol}
    {tokens : List Token}
    (hne : parseSymbol table sourceEnd fuel symbol tokens ≠ .error (.detached .workExhausted)) :
    parseSymbol table sourceEnd fuel' symbol tokens =
      parseSymbol table sourceEnd fuel symbol tokens := by
  induction h with
  | refl => rfl
  | step _ ih => rw [parseSymbol_stable _ _ _ (by rwa [ih]), ih]

/-- A larger bound does not change a parse. -/
theorem parseSymbol_succ (fuel : Nat) :
    Extends (parseSymbol table sourceEnd fuel) (parseSymbol table sourceEnd (fuel + 1)) := by
  intro symbol tokens parsed hparse
  rw [parseSymbol_stable fuel _ _ (by simp [hparse]), hparse]

/-- Larger bounds do not change a parse. -/
theorem parseSymbol_mono {fuel fuel' : Nat} (h : fuel ≤ fuel') :
    Extends (parseSymbol table sourceEnd fuel) (parseSymbol table sourceEnd fuel') := by
  intro symbol tokens parsed hparse
  rw [parseSymbol_eq_of_le h (by simp [hparse]), hparse]

/-- A nonterminal is parsed if the alternative that it is replaced by is. -/
theorem parseSymbol_of_parseAll (h : Table.Built g table) {name : String}
    {alternative : List Symbol} (hproduces : g.Produces name alternative)
    (used rest : List Token) (hyields : g.Yields alternative (terminals used))
    (hfollow : ∀ t, terminals used = [] → (terminals rest).head? = some t →
      .terminal t ∈ setOf table.follow name)
    {fuel : Nat} {trees : List ParseTree}
    (hparse : parseAll (parseSymbol table sourceEnd fuel) alternative (used ++ rest) =
      .ok ⟨trees, rest, false⟩) :
    ∃ tree, parseSymbol table sourceEnd (fuel + 1) (.nonterminal name) (used ++ rest) =
      .ok ⟨[tree], rest, false⟩ := by
  cases htokens : used ++ rest with
  | nil =>
    obtain ⟨rfl, rfl⟩ := List.append_eq_nil_iff.mp htokens
    have hnullable := h.isNullable_iff.mpr
      (yields_nonterminal.mpr ⟨alternative, hproduces, hyields⟩)
    exact ⟨_, by rw [parseSymbol, parseAtEnd, if_pos hnullable]⟩
  | cons token tokens =>
    have hhead : (terminals used ++ terminals rest).head? = some token.terminal := by
      rw [terminals, terminals, ← List.map_append, htokens]
      rfl
    have hlookup := h.lookup?_of_yields hproduces hyields hhead fun hempty =>
      hfollow _ hempty (by rw [hempty] at hhead; exact hhead)
    rw [htokens] at hparse
    refine ⟨ofChildren name token.span.start trees, ?_⟩
    rw [parseSymbol]
    simp only [hlookup, hparse, bind, Except.bind, pure, Except.pure]

end SymbolicAlgebra.ParseTree
