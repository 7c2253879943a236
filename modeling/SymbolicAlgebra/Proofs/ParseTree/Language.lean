import SymbolicAlgebra.Proofs.ParseTree.Bound

/-!
# The language of a parser

A parser accepts a source exactly if its grammar generates the terminals of the source's tokens. What
is derived is parsed under some bound, by induction on the derivation: where tokens are left the next one
shows the alternative to take, and where none is left the symbol can vanish. The bound that the parser uses
is never met, so it does not matter how large another one is.
-/

namespace SymbolicAlgebra.ParseTree

open Grammar

variable {g : Grammar} {table : Table} {sourceEnd : Nat}

/-- The end of an alternative is parsed, under some bound, where tokens come next that follow the
nonterminal of the alternative. -/
theorem parseAll_of_yields (sourceEnd : Nat) (h : Table.Built g table) {symbols : List Symbol}
    {word : List String}
    (hyields : g.Yields symbols word) :
    ∀ (lhs : String) (before : List Symbol), g.Produces lhs (before ++ symbols) →
      ∀ used rest : List Token, terminals used = word →
        (∀ t, (terminals rest).head? = some t → .terminal t ∈ setOf table.follow lhs) →
        ∃ fuel trees, parseAll (parseSymbol table sourceEnd fuel) symbols (used ++ rest) =
          .ok ⟨trees, rest, false⟩ := by
  induction hyields with
  | nil =>
    intro lhs before _ used rest hused _
    obtain rfl := List.map_eq_nil_iff.mp hused
    exact ⟨0, [], rfl⟩
  | @epsilon symbols word _ ih =>
    intro lhs before hproduces used rest hused hfollow
    obtain ⟨fuel, trees, hparse⟩ := ih lhs (before ++ [.epsilon]) (by simpa using hproduces)
      used rest hused hfollow
    refine ⟨fuel + 1, trees, ?_⟩
    have hhere : parseSymbol table sourceEnd (fuel + 1) .epsilon (used ++ rest) =
        .ok ⟨[], used ++ rest, false⟩ := by
      cases used ++ rest <;> rfl
    have hmore := parseAll_extends (parseSymbol_succ fuel) hparse
    rw [parseAll, hhere]
    simp only [bind, Except.bind, hmore]
    rfl
  | @terminal name symbols word _ ih =>
    intro lhs before hproduces used rest hused hfollow
    cases used with
    | nil => cases hused
    | cons token used =>
      rw [terminals, List.map_cons, List.cons.injEq] at hused
      obtain ⟨hname, hused⟩ := hused
      obtain ⟨fuel, trees, hparse⟩ := ih lhs (before ++ [.terminal name])
        (by simpa using hproduces) used rest hused hfollow
      refine ⟨fuel + 1, leaf token :: trees, ?_⟩
      have hmore := parseAll_extends (parseSymbol_succ fuel) hparse
      rw [parseAll, List.cons_append, parseSymbol, if_pos hname]
      simp only [bind, Except.bind, hmore]
      rfl
  | @nonterminal name alternative symbols word more hproduces' hyields hyields' ih ih' =>
    intro lhs before hproduces used rest hused hfollow
    obtain ⟨used, used', rfl, hword, hmore⟩ := List.map_eq_append_iff.mp hused
    have hname : name ∈ g.names := by
      obtain ⟨rule, hrule, rfl, -⟩ := hproduces'
      exact List.mem_map.mpr ⟨rule, hrule, rfl⟩
    have hnext (t : String) (ht : (terminals (used' ++ rest)).head? = some t) :
        .terminal t ∈ setOf table.follow name := by
      rw [terminals, List.map_append, hmore] at ht
      refine h.closed.follows_of_yields h.covered hproduces hname hyields' ht fun hempty => ?_
      rw [hempty] at ht
      exact hfollow t ht
    obtain ⟨fuel, trees, hbelow⟩ := ih name [] hproduces' used (used' ++ rest) hword hnext
    obtain ⟨tree, hhere⟩ := parseSymbol_of_parseAll h hproduces' used (used' ++ rest)
      (by rw [terminals, hword]; exact hyields) (fun t _ ht => hnext t ht) hbelow
    obtain ⟨fuel', trees', hrest⟩ := ih' lhs (before ++ [.nonterminal name])
      (by simpa using hproduces) used' rest hmore hfollow
    refine ⟨max (fuel + 1) fuel', tree :: trees', ?_⟩
    have hhere' := parseSymbol_mono (Nat.le_max_left (fuel + 1) fuel') _ _ _ hhere
    have hrest' := parseAll_extends (parseSymbol_mono (Nat.le_max_right (fuel + 1) fuel')) hrest
    rw [parseAll, List.append_assoc, hhere']
    simp only [bind, Except.bind, hrest']
    rfl

/-- What the start symbol yields is parsed under some bound. -/
theorem parseSymbol_of_yields (sourceEnd : Nat) (h : Table.Built g table) {tokens : List Token}
    (hyields : g.Yields [.nonterminal g.start] (terminals tokens)) :
    ∃ fuel tree, parseSymbol table sourceEnd fuel (.nonterminal g.start) tokens =
      .ok ⟨[tree], [], false⟩ := by
  obtain ⟨alternative, hproduces, hyields⟩ := yields_nonterminal.mp hyields
  obtain ⟨fuel, trees, hbelow⟩ := parseAll_of_yields sourceEnd h hyields g.start []
    hproduces tokens [] rfl (fun t ht => by cases ht)
  obtain ⟨tree, hparse⟩ := parseSymbol_of_parseAll h hproduces tokens [] hyields
    (fun t _ ht => by cases ht) hbelow
  rw [List.append_nil] at hparse
  exact ⟨fuel + 1, tree, hparse⟩

/-- What comes of a parse that does not meet its bound comes of it under the bound on the depth of parse
trees. -/
theorem parseSymbol_depthBound_eq (h : Table.Built g table) {fuel : Nat} {symbol : Symbol}
    {tokens : List Token}
    (hne : parseSymbol table sourceEnd fuel symbol tokens ≠ .error (.detached .workExhausted)) :
    parseSymbol table sourceEnd (depthBound table tokens) symbol tokens =
      parseSymbol table sourceEnd fuel symbol tokens := by
  obtain hle | hle := Nat.le_total fuel (depthBound table tokens)
  · exact parseSymbol_eq_of_le hle hne
  · exact (parseSymbol_eq_of_le hle
      (parseSymbol_depthBound_ne_exhausted h sourceEnd symbol tokens)).symm

/-- What is parsed under any bound is parsed under the bound on the depth of parse trees. -/
theorem parseSymbol_depthBound (h : Table.Built g table) {fuel : Nat} {symbol : Symbol}
    {tokens : List Token} {parsed : Parsed}
    (hparse : parseSymbol table sourceEnd fuel symbol tokens = .ok parsed) :
    parseSymbol table sourceEnd (depthBound table tokens) symbol tokens = .ok parsed := by
  rw [← hparse]
  exact parseSymbol_depthBound_eq h (by simp [hparse])

/-- A source is parsed as its tokens are under any bound. -/
theorem parse_of_parseSymbol (h : Table.Built g table) {fuel : Nat} {source : String} {tree : ParseTree}
    (hparse : parseSymbol table source.utf8ByteSize fuel (.nonterminal table.grammar.start)
      ((Token.scan source).filter fun token => !token.isWhitespace) = .ok ⟨[tree], [], false⟩) :
    parse table source = .ok tree := by
  change ofStream table ⟨[], _, source.utf8ByteSize⟩ = _
  rw [ofStream]
  simp only [parseSymbol_depthBound h hparse, bind, Except.bind]

/-- A source is refused as its tokens are under any bound that is not met. -/
theorem parse_eq_error_of_parseSymbol (h : Table.Built g table) {fuel : Nat} {source : String}
    {failure : Failure} (hne : failure ≠ .detached .workExhausted)
    (hparse : parseSymbol table source.utf8ByteSize fuel (.nonterminal table.grammar.start)
      ((Token.scan source).filter fun token => !token.isWhitespace) = .error failure) :
    parse table source = .error failure := by
  rw [← parseSymbol_depthBound_eq h (by rwa [hparse, ne_eq, Except.error.injEq])] at hparse
  change ofStream table ⟨[], _, source.utf8ByteSize⟩ = _
  rw [ofStream]
  simp only [hparse, bind, Except.bind]

/-- The tokens of a stream that is parsed are yielded by the start symbol. -/
theorem yields_of_ofStream (h : Table.Built g table) (hend : Endless g) {stream : Token.Stream}
    {tree : ParseTree} (hparse : ofStream table stream = .ok tree) :
    g.Yields [.nonterminal g.start] (terminals stream.rest) := by
  rw [ofStream] at hparse
  cases hstart : parseSymbol table stream.sourceEnd (depthBound table stream.rest)
      (.nonterminal table.grammar.start) stream.rest with
  | error failure => rw [hstart] at hparse; cases hparse
  | ok parsed =>
    simp only [hstart, bind, Except.bind] at hparse
    obtain ⟨-, used, hused, hyields⟩ := parseSymbol_sound h hend _ _ _ _
      (fun heq => by cases heq) hstart
    cases hrest : parsed.rest with
    | cons token rest => rw [hrest] at hparse; cases hparse
    | nil =>
      rw [hrest, List.append_nil] at hused
      rw [h.grammar] at hyields
      rw [hused]
      exact hyields

/-- A source is parsed exactly if the grammar of the table generates the terminals of its tokens, those
of blanks left out. -/
theorem parse_iff_generates (g : Grammar) (names : List String) (table : Table)
    (hbuild : Table.build g names = .ok table) (hend : Endless g) (source : String) :
    (∃ tree, parse table source = .ok tree) ↔
      g.Generates (terminals ((Token.scan source).filter fun token => !token.isWhitespace)) := by
  have h := Table.built_of_build hbuild
  generalize htokens : (Token.scan source).filter (fun token => !token.isWhitespace) = tokens
  have hparse : parse table source =
      ofStream table ⟨[], tokens, source.utf8ByteSize⟩ := by
    rw [← htokens]
    rfl
  rw [hparse, ofStream, generates_iff_yields]
  dsimp only
  constructor
  · rintro ⟨tree, hparse⟩
    cases hstart : parseSymbol table source.utf8ByteSize (depthBound table tokens)
        (.nonterminal table.grammar.start) tokens with
    | error failure => rw [hstart] at hparse; cases hparse
    | ok parsed =>
      simp only [hstart, bind, Except.bind] at hparse
      obtain ⟨-, used, hused, hyields⟩ := parseSymbol_sound h hend _ _ _ _
        (fun heq => by cases heq) hstart
      cases hrest : parsed.rest with
      | cons token rest => rw [hrest] at hparse; cases hparse
      | nil =>
        rw [hrest, List.append_nil] at hused
        rw [h.grammar] at hyields
        rw [hused]
        exact hyields
  · intro hyields
    obtain ⟨fuel, tree, hstart⟩ := parseSymbol_of_yields source.utf8ByteSize h hyields
    refine ⟨tree, ?_⟩
    rw [h.grammar, parseSymbol_depthBound h hstart]
    rfl

/-- The grammar of the rows of rowGrammar. -/
def rowGrammar : Grammar :=
  ⟨⟨"row", [[.terminal "VAR", .nonterminal "row"], [.epsilon]], .point 0⟩, [], rfl⟩

/-- No alternative of that grammar contains the end of the input. -/
theorem endless_rowGrammar : Endless rowGrammar := by
  rintro name alternative ⟨rule, hrule, -, halternative⟩
  obtain rfl := List.mem_singleton.mp hrule
  revert alternative
  decide

/-- The grammar has a table, and the row of two variables is parsed since it is generated. -/
theorem parse_iff_generates_row :
    ∃ table, Table.build rowGrammar ["VAR"] = .ok table ∧ Endless rowGrammar ∧
      rowGrammar.Generates ["VAR", "VAR"] ∧
      terminals ((Token.scan "x y").filter fun token => !token.isWhitespace) = ["VAR", "VAR"] ∧
      ∃ tree, parse table "x y" = .ok tree := by
  have hnames : Table.sortNames ["VAR"] = ["VAR"] := by
    rw [Table.sortNames, List.mergeSort_singleton]
    rfl
  have hbuild : ∃ table, Table.build rowGrammar ["VAR"] = .ok table := by
    rw [Table.build, hnames]
    exact ⟨_, rfl⟩
  obtain ⟨table, hbuild⟩ := hbuild
  have hrow : rowGrammar.Produces "row" [.terminal "VAR", .nonterminal "row"] :=
    ⟨_, List.mem_singleton.mpr rfl, rfl, by decide⟩
  have hempty : rowGrammar.Produces "row" [.epsilon] :=
    ⟨_, List.mem_singleton.mpr rfl, rfl, by decide⟩
  have hgenerates : rowGrammar.Generates ["VAR", "VAR"] := by
    refine generates_iff_yields.mpr (yields_nonterminal.mpr ⟨_, hrow, .terminal ?_⟩)
    refine yields_nonterminal.mpr ⟨_, hrow, .terminal ?_⟩
    exact yields_nonterminal.mpr ⟨_, hempty, .epsilon .nil⟩
  have hscan : terminals ((Token.scan "x y").filter fun token => !token.isWhitespace) =
      ["VAR", "VAR"] := by
    have hx : Token.munch 'x' [' ', 'y'] = (.var, 0) := by decide
    have hblank : Token.munch ' ' ['y'] = (.whitespace, 0) := by decide
    have hy : Token.munch 'y' [] = (.var, 0) := by decide
    have hchars : "x y".toList = ['x', ' ', 'y'] := by decide
    rw [Token.scan, hchars, Token.scanFrom, hx]
    simp only [List.drop_zero]
    rw [Token.scanFrom, hblank]
    simp only [List.drop_zero]
    rw [Token.scanFrom, hy]
    simp only [List.drop_zero]
    rw [Token.scanFrom]
    rfl
  refine ⟨table, hbuild, endless_rowGrammar, hgenerates, hscan, ?_⟩
  rw [← hscan] at hgenerates
  exact (parse_iff_generates rowGrammar ["VAR"] table hbuild endless_rowGrammar "x y").mpr hgenerates

end SymbolicAlgebra.ParseTree
