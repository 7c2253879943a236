import SymbolicAlgebra.ParseTree.Parser
import SymbolicAlgebra.Proofs.Failure.Spans
import SymbolicAlgebra.Proofs.Token.Munch

/-!
# Where sources are blamed

Every token spans its own text in the source, every node of a parse tree a part of the source, and a failed
parse blames a token or the end of the source. The end is blamed only if all tokens have been taken, and a
token is taken only for a terminal of the grammar.
-/

namespace SymbolicAlgebra

open Text Failure

/-- The span of a token covers the text of the token in its source. -/
theorem Token.selects_of_mem_scan {source : String} {t : Token} (ht : t ∈ scan source) :
    t.span.Selects source.toList t.lexeme.toList := by
  obtain ⟨before, after, hsplit⟩ := List.append_of_mem ht
  obtain ⟨hspan, -⟩ := of_scanFrom_eq_append before hsplit
  have htext : text (scan source) = source.toList := text_scanFrom 0 source.toList
  refine ⟨text before, text after, ?_, ?_⟩
  · rw [← htext, hsplit, List.append_assoc, ← text_cons]
    exact List.flatMap_append
  · rw [hspan, Nat.zero_add]

namespace ParseTree

variable {text : List Char} {known : String → Prop} {sourceEnd : Nat}

/-- The tree is inside the text: every node of it covers a part of the text. -/
inductive Inside (text : List Char) : ParseTree → Prop
  | leaf {token : Token} : token.span.Within text → Inside text (leaf token)
  | node {name : String} {span : Span} {children : List ParseTree} : span.Within text →
    (∀ child ∈ children, Inside text child) → Inside text (node name span children)

/-- The root of a tree inside the text covers a part of it. -/
theorem Inside.span {tree : ParseTree} (h : Inside text tree) : tree.span.Within text := by
  cases h with
  | leaf hspan => exact hspan
  | node hspan _ => exact hspan

/-- The trees below the root of a tree inside the text are inside it. -/
theorem Inside.children {tree : ParseTree} (h : Inside text tree) :
    ∀ child ∈ tree.children, Inside text child := by
  cases h with
  | leaf _ => exact nofun
  | node _ hchildren => exact hchildren

/-- A nonterminal over trees inside the text is inside it if its home is. -/
theorem inside_ofChildren (name : String) {home : Nat} (hhome : IsBoundary text home)
    {trees : List ParseTree} (htrees : ∀ tree ∈ trees, Inside text tree) :
    Inside text (ofChildren name home trees) :=
  .node (Span.within_cover (Span.within_point hhome)
    (List.forall_mem_map.mpr fun tree htree => (htrees tree htree).span)) htrees

/-- A failure that blames one of the tokens, or the end of the source after tokens that are all known, or
nothing. -/
inductive Locates (known : String → Prop) (sourceEnd : Nat) (tokens : List Token) : Failure → Prop
  | unexpectedToken {token : Token} (expected : List String) : token ∈ tokens →
    Locates known sourceEnd tokens
      (.located token.span (.unexpectedToken expected token.terminal token.lexeme))
  | expectedEnd {token : Token} : token ∈ tokens →
    Locates known sourceEnd tokens (.located token.span .expectedEnd)
  | unexpectedEnd (expected : List String) : (∀ token ∈ tokens, known token.terminal) →
    Locates known sourceEnd tokens (.located (.point sourceEnd) (.unexpectedEnd expected))
  | workExhausted : Locates known sourceEnd tokens (.detached .workExhausted)

/-- What is parsed takes known tokens from the front and adds trees inside the text. -/
structure Takes (known : String → Prop) (text : List Char) (tokens : List Token) (parsed : Parsed) :
    Prop where
  used : ∃ used, tokens = used ++ parsed.rest ∧ ∀ token ∈ used, known token.terminal
  trees : ∀ tree ∈ parsed.trees, Inside text tree

/-- A failure after tokens that are known is one for all of the tokens. -/
theorem Locates.append {used rest : List Token} {failure : Failure}
    (h : Locates known sourceEnd rest failure) (hused : ∀ token ∈ used, known token.terminal) :
    Locates known sourceEnd (used ++ rest) failure := by
  cases h with
  | unexpectedToken expected htoken => exact .unexpectedToken expected (List.mem_append_right _ htoken)
  | expectedEnd htoken => exact .expectedEnd (List.mem_append_right _ htoken)
  | unexpectedEnd expected hrest =>
    exact .unexpectedEnd expected (List.forall_mem_append.mpr ⟨hused, hrest⟩)
  | workExhausted => exact .workExhausted

/-- The parser takes known tokens for every known symbol, or blames one of the tokens or the end. -/
def LocatedParser (known : String → Prop) (text : List Char) (sourceEnd : Nat)
    (parse : Symbol → List Token → Except Failure Parsed) : Prop :=
  ∀ symbol, (∀ name, symbol = .terminal name → known name) → ∀ tokens : List Token,
    (∀ token ∈ tokens, token.span.Within text) →
    Settles (parse symbol tokens) (Takes known text tokens) (Locates known sourceEnd tokens)

/-- Known symbols are parsed in turn as each of them is. -/
theorem settles_parseAll {parse : Symbol → List Token → Except Failure Parsed}
    (h : LocatedParser known text sourceEnd parse) {symbols : List Symbol}
    (hsymbols : ∀ name, .terminal name ∈ symbols → known name) {tokens : List Token}
    (htokens : ∀ token ∈ tokens, token.span.Within text) :
    Settles (parseAll parse symbols tokens) (Takes known text tokens) (Locates known sourceEnd tokens) := by
  induction symbols generalizing tokens with
  | nil => exact ⟨⟨[], rfl, nofun⟩, nofun⟩
  | cons symbol symbols ih =>
    rw [parseAll]
    refine .bind (h symbol (fun name hname => hsymbols name (hname ▸ List.mem_cons_self)) tokens htokens)
      fun here hhere => ?_
    split
    · exact hhere
    · obtain ⟨used, hsplit, hused⟩ := hhere.used
      have hrest : ∀ token ∈ here.rest, token.span.Within text := fun token htoken =>
        htokens token (hsplit ▸ List.mem_append_right _ htoken)
      have hmore := ih (fun name hname => hsymbols name (List.mem_cons_of_mem _ hname)) hrest
      refine .bind (hmore.imp (fun _ => id) fun _ hfailure => hsplit ▸ hfailure.append hused)
        fun more hmore => ?_
      obtain ⟨used', hsplit', hused'⟩ := hmore.used
      refine ⟨⟨used ++ used', ?_, List.forall_mem_append.mpr ⟨hused, hused'⟩⟩,
        List.forall_mem_append.mpr ⟨hhere.trees, hmore.trees⟩⟩
      rw [hsplit, hsplit', List.append_assoc]

variable {table : Table}

/-- At the end of known tokens a symbol vanishes or the end is blamed. -/
theorem settles_parseAtEnd (hend : IsBoundary text sourceEnd) (symbol : Symbol) :
    Settles (parseAtEnd table sourceEnd symbol) (Takes known text []) (Locates known sourceEnd []) := by
  cases symbol with
  | terminal name => exact .unexpectedEnd _ nofun
  | nonterminal name =>
    rw [parseAtEnd]
    split
    · exact ⟨⟨[], rfl, nofun⟩, List.forall_mem_singleton.mpr (inside_ofChildren name hend nofun)⟩
    · exact .unexpectedEnd _ nofun
  | epsilon => exact ⟨⟨[], rfl, nofun⟩, nofun⟩
  | endMarker => exact ⟨⟨[], rfl, nofun⟩, nofun⟩

/-- Parsing a symbol by a table of known terminals is located. The induction is on the bound on the depth of
the tree. -/
theorem locatedParser_parseSymbol (hend : IsBoundary text sourceEnd)
    (htable : ∀ name next alternative, table.lookup? name next = some alternative →
      ∀ t, .terminal t ∈ alternative → known t) (fuel : Nat) :
    LocatedParser known text sourceEnd (parseSymbol table sourceEnd fuel) := by
  induction fuel with
  | zero => exact fun _ _ _ _ => .workExhausted
  | succ fuel ih =>
    intro symbol hsymbol tokens htokens
    cases tokens with
    | nil => exact settles_parseAtEnd hend symbol
    | cons token tokens =>
      cases symbol with
      | terminal name =>
        rw [parseSymbol]
        split
        · rename_i hname
          refine ⟨⟨[token], rfl, ?_⟩, ?_⟩
          · exact List.forall_mem_singleton.mpr (hname ▸ hsymbol name rfl)
          · exact List.forall_mem_singleton.mpr (.leaf (htokens token List.mem_cons_self))
        · exact .unexpectedToken _ List.mem_cons_self
      | nonterminal name =>
        rw [parseSymbol]
        split
        · exact .unexpectedToken _ List.mem_cons_self
        · rename_i alternative hlookup
          refine (settles_parseAll ih (htable _ _ _ hlookup) htokens).bind fun below hbelow => ?_
          have hhome := (htokens token List.mem_cons_self).start
          exact ⟨hbelow.used, List.forall_mem_singleton.mpr (inside_ofChildren name hhome hbelow.trees)⟩
      | epsilon => exact ⟨⟨[], rfl, nofun⟩, nofun⟩
      | endMarker => exact .expectedEnd List.mem_cons_self

/-- A source is parsed to a tree inside it, or one of its tokens or its end is blamed. -/
theorem settles_parse (htable : ∀ name next alternative, table.lookup? name next = some alternative →
      ∀ t, .terminal t ∈ alternative → known t) (source : String) :
    Settles (parse table source) (Inside source.toList) (Locates known source.utf8ByteSize
      ((Token.scan source).filter fun token => !token.isWhitespace)) := by
  have hend : IsBoundary source.toList source.utf8ByteSize :=
    Token.byteLength_toList source ▸ isBoundary_end source.toList
  have htokens : ∀ token ∈ (Token.scan source).filter fun token => !token.isWhitespace,
      token.span.Within source.toList := fun token htoken =>
    (Token.selects_of_mem_scan (List.mem_of_mem_filter htoken)).within
  rw [parse, ofStream]
  have hstart : ∀ name, Symbol.nonterminal table.grammar.start = .terminal name → known name :=
    fun _ h => by cases h
  refine (locatedParser_parseSymbol hend htable _ _ hstart _ htokens).bind fun parsed hparsed => ?_
  obtain ⟨used, hsplit, hused⟩ := hparsed.used
  split
  · rename_i hrest
    exact .expectedEnd (hsplit ▸ hrest ▸ List.mem_append_right _ List.mem_cons_self)
  · rename_i htrees
    exact hparsed.trees _ (htrees ▸ List.mem_cons_self)
  · rename_i hrest _
    rw [hrest, List.append_nil] at hsplit
    exact .unexpectedEnd _ (hsplit ▸ hused)

end ParseTree

end SymbolicAlgebra
