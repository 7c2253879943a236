import SymbolicAlgebra.Proofs.Grammar.Rank
import SymbolicAlgebra.Proofs.ParseTree.Parser

/-!
# The bound on the depth

A parser with a table never meets its bound on the depth, whether a text is accepted or not and whatever
the grammar. A nonterminal that is replaced before some tokens needs one level for each nonterminal below
it before the first of them, and one for each nonterminal before every token after it: what is parsed
before the same tokens ranks lower, as long as no symbol in front of it begins with the first token, and
such a symbol takes that token.
-/

namespace SymbolicAlgebra.ParseTree

open Grammar Table

variable {g : Grammar} {table : Table} {sourceEnd : Nat}
  {parse : Symbol → List Token → Except Failure Parsed} {symbol : Symbol} {symbols : List Symbol}
  {token : Token} {tokens : List Token} {parsed : Parsed}

/-- A symbol parser that leaves a rest of the tokens, and none where it ends the parse. -/
def LeavesRest (parse : Symbol → List Token → Except Failure Parsed) : Prop :=
  ∀ symbol tokens parsed, parse symbol tokens = .ok parsed →
    parsed.rest <:+ tokens ∧ (parsed.ended = true → parsed.rest = [])

/-- Parsing symbols in turn leaves a rest of the tokens. -/
theorem parseAll_leavesRest (h : LeavesRest parse)
    (hparse : parseAll parse symbols tokens = .ok parsed) :
    parsed.rest <:+ tokens ∧ (parsed.ended = true → parsed.rest = []) := by
  induction symbols generalizing tokens parsed with
  | nil =>
    cases hparse
    exact ⟨List.suffix_refl _, fun hended => by cases hended⟩
  | cons symbol symbols ih =>
    obtain ⟨here, hhere, ⟨-, rfl⟩ | ⟨-, more, hmore, rfl⟩⟩ := parseAll_cons_eq_ok.mp hparse
    · exact h symbol tokens parsed hhere
    · exact ⟨(ih hmore).1.trans (h symbol tokens here hhere).1, (ih hmore).2⟩

/-- Parsing a symbol leaves a rest of the tokens. -/
theorem parseSymbol_leavesRest (fuel : Nat) : LeavesRest (parseSymbol table sourceEnd fuel) := by
  induction fuel with
  | zero => intro symbol tokens parsed hparse; cases hparse
  | succ fuel ih =>
    intro symbol tokens parsed hparse
    cases tokens with
    | nil =>
      rw [parseSymbol] at hparse
      cases symbol with
      | terminal name => cases hparse
      | nonterminal name =>
        rw [parseAtEnd] at hparse
        split at hparse
        · cases hparse
          exact ⟨List.suffix_refl _, fun _ => rfl⟩
        · cases hparse
      | epsilon =>
        cases hparse
        exact ⟨List.suffix_refl _, fun _ => rfl⟩
      | endMarker =>
        cases hparse
        exact ⟨List.suffix_refl _, fun _ => rfl⟩
    | cons token tokens =>
      cases symbol with
      | terminal name =>
        rw [parseSymbol] at hparse
        split at hparse
        · cases hparse
          exact ⟨List.suffix_cons _ _, fun hended => by cases hended⟩
        · cases hparse
      | nonterminal name =>
        obtain ⟨alternative, below, -, hbelow, rfl⟩ := parseSymbol_nonterminal_eq_ok.mp hparse
        have hleaves := parseAll_leavesRest ih hbelow
        exact hleaves
      | epsilon =>
        cases hparse
        exact ⟨List.suffix_refl _, fun hended => by cases hended⟩
      | endMarker => cases hparse

/-- Symbols in turn take the first token if they begin with it, where each of them does. -/
theorem parseAll_takes (h : LeavesRest parse)
    (htakes : ∀ symbol parsed, .terminal token.terminal ∈
        firstOfSequence table.alphabet table.first [symbol] →
      parse symbol (token :: tokens) = .ok parsed → parsed.rest <:+ tokens)
    (hfirst : .terminal token.terminal ∈ firstOfSequence table.alphabet table.first symbols)
    (hparse : parseAll parse symbols (token :: tokens) = .ok parsed) : parsed.rest <:+ tokens := by
  induction symbols generalizing parsed with
  | nil => cases List.mem_singleton.mp hfirst
  | cons symbol symbols ih =>
    obtain ⟨here, hhere, ⟨hended, rfl⟩ | ⟨-, more, hmore, rfl⟩⟩ := parseAll_cons_eq_ok.mp hparse
    · rw [(h symbol _ parsed hhere).2 hended]
      exact List.nil_suffix
    · have hrest := (parseAll_leavesRest h hmore).1
      obtain ⟨hsymbol, -⟩ | ⟨-, hfirst⟩ := mem_first_cons.mp hfirst
      · exact hrest.trans (htakes symbol here hsymbol hhere)
      · obtain hsame | hless := List.suffix_cons_iff.mp (h symbol _ here hhere).1
        · rw [hsame] at hmore
          have hless := ih hfirst hmore
          exact hless
        · exact hrest.trans hless

/-- A symbol that begins with the first token takes it. -/
theorem parseSymbol_takes (h : Table.Built g table) (fuel : Nat)
    (hfirst : .terminal token.terminal ∈ firstOfSequence table.alphabet table.first [symbol])
    (hparse : parseSymbol table sourceEnd fuel symbol (token :: tokens) = .ok parsed) :
    parsed.rest <:+ tokens := by
  induction fuel generalizing symbol parsed with
  | zero => cases hparse
  | succ fuel ih =>
    cases symbol with
    | terminal name =>
      rw [parseSymbol] at hparse
      split at hparse
      · cases hparse
        exact List.suffix_refl _
      · cases hparse
    | nonterminal name =>
      obtain ⟨alternative, below, hlookup, hbelow, rfl⟩ := parseSymbol_nonterminal_eq_ok.mp hparse
      have hname := h.closed.fits.mem_first_nonterminal.mp hfirst
      obtain ⟨count, -, hbegins⟩ := h.first_of_lookup? (by simp) hname hlookup
      have hless := parseAll_takes (parseSymbol_leavesRest fuel) (fun _ _ => ih)
        (h.mem_first_of_firstAfter hbegins) hbelow
      exact hless
    | epsilon => cases List.mem_singleton.mp hfirst
    | endMarker => cases hparse

/-- The depth that is needed to parse a symbol before tokens, less one. -/
noncomputable def need (g : Grammar) (table : Table) : Symbol → List Token → Nat
  | .nonterminal name, token :: tokens =>
    (tokens.length + 1) * (g.rules.length + 1) + rank g table (.terminal token.terminal) name
  | _, _ => 0

/-- Fewer tokens need less, whatever the symbol. -/
theorem need_lt_of_suffix {rest : List Token} (h : rest <:+ tokens) (symbol : Symbol) :
    need g table symbol rest < (tokens.length + 1) * (g.rules.length + 1) := by
  have hpositive : 0 < (tokens.length + 1) * (g.rules.length + 1) := Nat.mul_pos (by omega) (by omega)
  cases symbol with
  | nonterminal name =>
    cases rest with
    | nil => exact hpositive
    | cons token rest =>
      have hlength := h.length_le
      have hrank := rank_le g table (.terminal token.terminal) name
      have hmul := Nat.mul_le_mul_right (g.rules.length + 1) hlength
      rw [List.length_cons] at hmul
      rw [need, Nat.succ_mul tokens.length]
      omega
  | terminal name => exact hpositive
  | epsilon => exact hpositive
  | endMarker => exact hpositive

/-- A symbol before the same tokens needs less, if it ranks lower where it is a nonterminal. -/
theorem need_lt_of_ranks {bound : Nat}
    (h : ∀ name, symbol = .nonterminal name → rank g table (.terminal token.terminal) name < bound) :
    need g table symbol (token :: tokens) < (tokens.length + 1) * (g.rules.length + 1) + bound := by
  cases symbol with
  | nonterminal name => exact Nat.add_lt_add_left (h name rfl) _
  | terminal name => exact Nat.add_pos_left (Nat.mul_pos (by omega) (by omega)) _
  | epsilon => exact Nat.add_pos_left (Nat.mul_pos (by omega) (by omega)) _
  | endMarker => exact Nat.add_pos_left (Nat.mul_pos (by omega) (by omega)) _

/-- The bound is not met while symbols are parsed in turn after the first token or, while that has not
been taken, rank below a nonterminal for which the bound is one more than needed. -/
theorem parseAll_ne_exhausted (h : Table.Built g table) {fuel bound : Nat}
    (ih : ∀ symbol tokens, need g table symbol tokens < fuel →
      parseSymbol table sourceEnd fuel symbol tokens ≠ .error (.detached .workExhausted))
    (hbound : (tokens.length + 1) * (g.rules.length + 1) + bound ≤ fuel) {rest : List Token}
    (hrest : rest <:+ tokens ∨
      rest = token :: tokens ∧ RanksBelow g table (.terminal token.terminal) bound symbols) :
    parseAll (parseSymbol table sourceEnd fuel) symbols rest ≠ .error (.detached .workExhausted) := by
  induction symbols generalizing rest with
  | nil => exact fun herror => by cases herror
  | cons symbol symbols ih' =>
    intro herror
    obtain hhere | ⟨here, hhere, -, hmore⟩ := parseAll_cons_eq_error.mp herror
    · refine ih symbol rest ?_ hhere
      obtain hrest | ⟨rfl, hranks, -⟩ := hrest
      · exact (need_lt_of_suffix hrest symbol).trans_le ((Nat.le_add_right _ _).trans hbound)
      · exact (need_lt_of_ranks hranks).trans_le hbound
    · refine ih' ?_ hmore
      have hsuffix := (parseSymbol_leavesRest fuel symbol rest here hhere).1
      obtain hrest | ⟨rfl, -, hranks⟩ := hrest
      · exact .inl (hsuffix.trans hrest)
      · obtain hsame | hless := List.suffix_cons_iff.mp hsuffix
        · refine .inr ⟨hsame, hranks fun hfirst => ?_⟩
          have hless := (parseSymbol_takes h fuel hfirst hhere).length_le
          rw [hsame, List.length_cons] at hless
          omega
        · exact .inl hless

/-- A symbol is parsed, or refused, without meeting a bound above what it needs. -/
theorem parseSymbol_ne_exhausted (h : Table.Built g table) (fuel : Nat) (symbol : Symbol)
    (tokens : List Token) (hneed : need g table symbol tokens < fuel) :
    parseSymbol table sourceEnd fuel symbol tokens ≠ .error (.detached .workExhausted) := by
  induction fuel generalizing symbol tokens with
  | zero => exact (Nat.not_lt_zero _ hneed).elim
  | succ fuel ih =>
    cases tokens with
    | nil =>
      rw [parseSymbol]
      cases symbol with
      | nonterminal name =>
        rw [parseAtEnd]
        split <;> simp [Failure.located, Failure.detached]
      | terminal name => simp [parseAtEnd, Failure.located, Failure.detached]
      | epsilon => simp [parseAtEnd]
      | endMarker => simp [parseAtEnd]
    | cons token tokens =>
      cases symbol with
      | nonterminal name =>
        rw [need] at hneed
        rw [parseSymbol]
        cases hlookup : table.lookup? name (.terminal token.terminal) with
        | none => simp [unexpectedToken, Failure.located, Failure.detached]
        | some alternative =>
          have hranks := h.ranksBelow_of_lookup? (by simp) hlookup
          have hbelow : parseAll (parseSymbol table sourceEnd fuel) alternative (token :: tokens) ≠
              .error (.detached .workExhausted) :=
            parseAll_ne_exhausted h ih (Nat.le_of_lt_succ hneed) (.inr ⟨rfl, hranks⟩)
          cases hparse : parseAll (parseSymbol table sourceEnd fuel) alternative (token :: tokens) with
          | ok below => simp [bind, Except.bind, pure, Except.pure, hparse]
          | error failure =>
            rw [hparse] at hbelow
            simpa [bind, Except.bind, hparse] using hbelow
      | terminal name =>
        rw [parseSymbol]
        split <;> simp [unexpectedToken, Failure.located, Failure.detached]
      | epsilon => simp [parseSymbol]
      | endMarker => simp [parseSymbol, Failure.located, Failure.detached]

/-- The bound on the depth is enough for every symbol. -/
theorem parseSymbol_depthBound_ne_exhausted (h : Table.Built g table) (sourceEnd : Nat)
    (symbol : Symbol) (tokens : List Token) :
    parseSymbol table sourceEnd (depthBound table tokens) symbol tokens ≠
      .error (.detached .workExhausted) := by
  refine parseSymbol_ne_exhausted h _ symbol tokens ?_
  rw [depthBound, h.grammar]
  exact (need_lt_of_suffix (List.suffix_refl tokens) symbol).trans (Nat.lt_succ_self _)

end SymbolicAlgebra.ParseTree
