import SymbolicAlgebra.Proofs.Grammar.Viable
import SymbolicAlgebra.Proofs.ParseTree.Language
import SymbolicAlgebra.Proofs.ParseTree.Loop

/-!
# What a failed parse blames

The first token is blamed that no sentence goes on with, and only terminals are expected that can
stand in its place. While the loop runs, the tokens that were taken and the symbols that are still
wanted make up a form of the start symbol, so where every nonterminal derives a word the tokens
begin a sentence. And what is wanted yields whatever goes on from these tokens to a sentence with
the token that comes next, since the table gives the only alternative for it. So where no round is
left but to fail, no sentence goes on with that token.
-/

namespace SymbolicAlgebra.ParseTree

open Grammar Loop

variable {g : Grammar} {table : Table} {sourceEnd : Nat} {used rest : List Token} {token : Token}
  {symbol : Symbol} {name : String} {stack : List Symbol}

/-- Symbols that are wanted after the tokens that were taken and before the rest. -/
structure Reading (g : Grammar) (used : List Token) (stack : List Symbol)
    (rest : List Token) : Prop where
  derives : g.Derives [.nonterminal g.start] ((terminals used).map .terminal ++ stack)
  completes : ∀ word, word.head? = (terminals rest).head? → g.Generates (terminals used ++ word) →
    g.Yields stack word

namespace Reading

/-- Before any token the start symbol is wanted. -/
theorem start (g : Grammar) (rest : List Token) : Reading g [] [.nonterminal g.start] rest :=
  ⟨.refl, fun _ _ hgenerates => generates_iff_yields.mp hgenerates⟩

/-- An empty string is not wanted any more. -/
theorem epsilon (h : Reading g used (.epsilon :: stack) rest) : Reading g used stack rest := by
  refine ⟨h.derives.tail (.vanish _ stack), fun word hhead hgenerates => ?_⟩
  cases h.completes word hhead hgenerates with
  | epsilon hyields => exact hyields

/-- A terminal is not wanted after its token. -/
theorem terminal (h : Reading g used (.terminal token.terminal :: stack) (token :: rest)) :
    Reading g (used ++ [token]) stack rest := by
  refine ⟨?_, fun word _ hgenerates => ?_⟩
  · have hform : (terminals (used ++ [token])).map .terminal ++ stack =
        (terminals used).map .terminal ++ .terminal token.terminal :: stack := by
      simp [terminals]
    rw [hform]
    exact h.derives
  · have hyields := h.completes (token.terminal :: word) rfl (by
      simpa [terminals] using hgenerates)
    cases hyields with
    | terminal hyields => exact hyields

/-- A nonterminal that vanishes is not wanted at the end of the tokens. -/
theorem vanish (h : Reading g used (.nonterminal name :: stack) [])
    (hvanish : g.Yields [.nonterminal name] []) : Reading g used stack [] := by
  refine ⟨h.derives.trans (((derives_of_yields hvanish).append stack).prepend _),
    fun word hhead hgenerates => ?_⟩
  obtain rfl : word = [] := List.head?_eq_none_iff.mp hhead
  obtain ⟨first, more, hword, -, hmore⟩ :=
    Yields.split (a := [.nonterminal name]) (h.completes [] rfl hgenerates)
  obtain ⟨-, rfl⟩ := List.append_eq_nil_iff.mp hword.symm
  exact hmore

/-- What is wanted from a nonterminal on yields a word with the next token first through the
alternative that the table gives. -/
theorem yields_lookup? (h : Reading g used (.nonterminal name :: stack) (token :: rest))
    (hbuilt : Table.Built g table) {word : List String} (hword : word.head? = some token.terminal)
    (hyields : g.Yields (.nonterminal name :: stack) word) :
    ∃ alternative, table.lookup? name (.terminal token.terminal) = some alternative ∧
      g.Yields (alternative ++ stack) word := by
  cases hyields with
  | @nonterminal _ alternative _ first more hproduces halternative hmore =>
    refine ⟨alternative, ?_, halternative.append hmore⟩
    refine hbuilt.lookup?_of_yields hproduces halternative hword fun hempty => ?_
    -- where the alternative vanishes the token begins what comes after the nonterminal in the form
    rw [hempty, List.nil_append] at hword
    have hname : name ∈ g.names := by
      obtain ⟨rule, hrule, rfl, -⟩ := hproduces
      exact List.mem_map.mpr ⟨rule, hrule, rfl⟩
    have hcovers : Covers table.alphabet stack := fun t ht =>
      (covers_nonterminal table.alphabet g.start).derives hbuilt.covered h.derives t
        (List.mem_append_right _ (List.mem_cons_of_mem _ ht))
    have hbegins := hbuilt.closed.begins_of_yields hbuilt.covered hmore hcovers
    rw [hword] at hbegins
    exact hbuilt.closed.follows_of_derives h.derives hname rfl
      (mem_followAt.mpr (.inl ⟨hbegins, by simp⟩))

/-- In place of a nonterminal the alternative that the table gives is wanted. -/
theorem replace (h : Reading g used (.nonterminal name :: stack) (token :: rest))
    (hbuilt : Table.Built g table) {alternative : List Symbol}
    (hlookup : table.lookup? name (.terminal token.terminal) = some alternative) :
    Reading g used (alternative.filter (· ≠ .epsilon) ++ stack) (token :: rest) := by
  refine ⟨?_, fun word hhead hgenerates => ?_⟩
  · have hstep := Step.replace ((terminals used).map .terminal) stack
      (hbuilt.produces_of_lookup? hlookup)
    exact (h.derives.tail hstep).trans (((derives_filter alternative).append stack).prepend _)
  · obtain ⟨other, hother, hyields⟩ :=
      h.yields_lookup? hbuilt hhead (h.completes word hhead hgenerates)
    cases hother.symm.trans hlookup
    obtain ⟨first, more, rfl, halternative, hmore⟩ := hyields.split
    exact halternative.filter.append hmore

/-- Where every nonterminal derives a word the tokens that were taken begin a sentence. -/
theorem viable (h : Reading g used stack rest) (hend : Endless g) (hproductive : Productive g) :
    g.Viable (terminals used) :=
  hproductive.viable hend h.derives

/-- Where nothing that is wanted begins with the next token no sentence goes on with it. -/
theorem not_viable (h : Reading g used stack (token :: rest))
    (hnone : ∀ more, ¬ g.Yields stack (token.terminal :: more)) :
    ¬ g.Viable (terminals used ++ [token.terminal]) := by
  rintro ⟨more, hgenerates⟩
  refine hnone more (h.completes (token.terminal :: more) rfl ?_)
  simpa using hgenerates

/-- Where what is wanted does not vanish the tokens are no sentence. -/
theorem not_generates (h : Reading g used stack []) (hnone : ¬ g.Yields stack []) :
    ¬ g.Generates (terminals used) := fun hgenerates =>
  hnone (h.completes [] rfl (by rwa [List.append_nil]))

/-- The end is not wanted before the end of the input, where no alternative contains it. -/
theorem ne_endMarker (h : Reading g used (symbol :: stack) rest) (hend : Endless g) :
    symbol ≠ .endMarker :=
  ((formed_start g).derives hend h.derives symbol (List.mem_append_right _ List.mem_cons_self)).1

/-- A terminal that is wanted can go on from the tokens. -/
theorem viable_terminal (h : Reading g used (.terminal name :: stack) rest) (hend : Endless g)
    (hproductive : Productive g) {t : String} (ht : t ∈ expected table (.terminal name)) :
    g.Viable (terminals used ++ [t]) := by
  obtain rfl : t = name := List.mem_singleton.mp ht
  exact hproductive.viable_concat hend h.derives

/-- A terminal that a wanted nonterminal is expected to begin with can go on from the tokens. -/
theorem viable_nonterminal (h : Reading g used (.nonterminal name :: stack) rest)
    (hbuilt : Table.Built g table) (hend : Endless g) (hproductive : Productive g) {t : String}
    (ht : t ∈ expected table (.nonterminal name)) : g.Viable (terminals used ++ [t]) := by
  obtain ⟨s, hs, rfl⟩ := List.mem_map.mp ht
  obtain ⟨hs, hne⟩ := List.mem_filter.mp hs
  have hfirst :
      s ∈ firstOfSequence table.alphabet (g.firstSets table.alphabet) [.nonterminal name] := by
    rw [(firstSets_settled g table.alphabet).1.mem_first_nonterminal, ← hbuilt.first]
    exact hs
  obtain ⟨more, hbegins⟩ := (beginning_firstSets g table.alphabet).begins
    (vanishing_firstSets g table.alphabet) hfirst (by simpa using hne)
  have hderives : g.Derives [.nonterminal g.start]
      ((terminals used).map .terminal ++ s :: (more ++ stack)) :=
    h.derives.trans ((hbegins.append stack).prepend _)
  obtain hnext | hempty :=
    isNext_of_mem_firstOfSequence (firstSets_settled g table.alphabet).1 hfirst
  · cases s with
    | terminal t => exact hproductive.viable_concat hend hderives
    | endMarker =>
      have hformed := (formed_start g).derives hend hderives .endMarker
        (List.mem_append_right _ List.mem_cons_self)
      exact (hformed.1 rfl).elim
    | nonterminal other => cases hnext
    | epsilon => cases hnext
  · simp [hempty] at hne

end Reading

/-- A failure that blames the first place from which the tokens cannot go on to a sentence, and
expects only what can stand there. -/
inductive Blames (g : Grammar) (tokens : List Token) (sourceEnd : Nat) : Failure → Prop
  | unexpectedToken {before after : List Token} {token : Token} {expected : List String} :
    tokens = before ++ token :: after → g.Viable (terminals before) →
    ¬ g.Viable (terminals before ++ [token.terminal]) →
    (∀ name ∈ expected, g.Viable (terminals before ++ [name])) →
    Blames g tokens sourceEnd
      (.located token.span (.unexpectedToken expected token.terminal token.lexeme))
  | expectedEnd {before after : List Token} {token : Token} :
    tokens = before ++ token :: after → g.Viable (terminals before) →
    ¬ g.Viable (terminals before ++ [token.terminal]) →
    Blames g tokens sourceEnd (.located token.span .expectedEnd)
  | unexpectedEnd {expected : List String} :
    g.Viable (terminals tokens) → ¬ g.Generates (terminals tokens) →
    (∀ name ∈ expected, g.Viable (terminals tokens ++ [name])) →
    Blames g tokens sourceEnd (.located (.point sourceEnd) (.unexpectedEnd expected))

/-- What every round of the loop keeps: it is reading the tokens, or it has stopped with a tree or
for a failure that blames the right place. -/
def Kept (g : Grammar) (tokens : List Token) (sourceEnd : Nat) : Loop → Prop
  | running _ stack rest => ∃ used wanted, stack.map Prod.fst = wanted ++ [.endMarker] ∧
    tokens = used ++ rest ∧ Reading g used wanted rest
  | halted (.ok _) => True
  | halted (.error failure) => Blames g tokens sourceEnd failure

/-- A round at the end of the tokens. -/
theorem kept_next_end (h : Table.Built g table) (hend : Endless g) (hproductive : Productive g)
    {nodes : Arena} {parent : Option Nat} {below : List (Symbol × Option Nat)}
    (hbelow : below.map Prod.fst = stack ++ [.endMarker])
    (hreading : Reading g used (symbol :: stack) []) :
    Kept g used sourceEnd ((running nodes ((symbol, parent) :: below) []).next table sourceEnd) := by
  cases symbol with
  | endMarker => exact (hreading.ne_endMarker hend rfl).elim
  | epsilon => exact ⟨used, stack, hbelow, (List.append_nil used).symm, hreading.epsilon⟩
  | terminal name =>
    refine .unexpectedEnd (hreading.viable hend hproductive)
      (hreading.not_generates fun hyields => ?_)
      fun t ht => hreading.viable_terminal hend hproductive ht
    cases hyields
  | nonterminal name =>
    rw [Loop.next]
    split
    · rename_i hnullable
      exact ⟨used, stack, hbelow, (List.append_nil used).symm,
        hreading.vanish (h.isNullable_iff.mp hnullable)⟩
    · rename_i hnullable
      refine .unexpectedEnd (hreading.viable hend hproductive) (hreading.not_generates ?_)
        fun t ht => hreading.viable_nonterminal h hend hproductive ht
      intro hyields
      obtain ⟨first, more, hempty, hfirst, -⟩ := Yields.split (a := [.nonterminal name]) hyields
      obtain ⟨rfl, -⟩ := List.append_eq_nil_iff.mp hempty.symm
      exact hnullable (h.isNullable_iff.mpr hfirst)

/-- A round before a token. -/
theorem kept_next_token (h : Table.Built g table) (hend : Endless g) (hproductive : Productive g)
    {nodes : Arena} {parent : Option Nat} {below : List (Symbol × Option Nat)}
    (hbelow : below.map Prod.fst = stack ++ [.endMarker])
    (hreading : Reading g used (symbol :: stack) (token :: rest)) :
    Kept g (used ++ token :: rest) sourceEnd
      ((running nodes ((symbol, parent) :: below) (token :: rest)).next table sourceEnd) := by
  have hviable := hreading.viable hend hproductive
  cases symbol with
  | endMarker => exact (hreading.ne_endMarker hend rfl).elim
  | epsilon => exact ⟨used, stack, hbelow, rfl, hreading.epsilon⟩
  | terminal name =>
    rw [Loop.next]
    split
    · rename_i hname
      subst hname
      exact ⟨used ++ [token], stack, hbelow, by simp, hreading.terminal⟩
    · rename_i hname
      refine .unexpectedToken rfl hviable (hreading.not_viable fun more hyields => ?_)
        fun t ht => hreading.viable_terminal hend hproductive ht
      cases hyields
      exact hname rfl
  | nonterminal name =>
    rw [Loop.next]
    cases hlookup : table.lookup? name (.terminal token.terminal) with
    | none =>
      refine .unexpectedToken rfl hviable (hreading.not_viable fun more hyields => ?_)
        fun t ht => hreading.viable_nonterminal h hend hproductive ht
      obtain ⟨alternative, hsome, -⟩ := hreading.yields_lookup? h rfl hyields
      cases hlookup.symm.trans hsome
    | some alternative =>
      refine ⟨used, alternative.filter (· ≠ .epsilon) ++ stack, ?_, rfl, hreading.replace h hlookup⟩
      rw [expand_eq, List.map_append, List.map_map, hbelow, List.append_assoc]
      exact congrArg (· ++ _) (List.map_id _)

/-- Every round keeps that the loop reads the tokens or has stopped as it should. -/
theorem kept_next (h : Table.Built g table) (hend : Endless g) (hproductive : Productive g)
    {tokens : List Token} {loop : Loop} (hkept : Kept g tokens sourceEnd loop) :
    Kept g tokens sourceEnd (loop.next table sourceEnd) := by
  cases loop with
  | halted result => exact hkept
  | running nodes stack rest =>
    obtain ⟨used, wanted, hstack, rfl, hreading⟩ := hkept
    cases stack with
    | nil => simp at hstack
    | cons top below =>
      obtain ⟨symbol, parent⟩ := top
      cases wanted with
      | nil =>
        obtain ⟨rfl, -⟩ := List.cons.inj hstack
        cases rest with
        | nil => trivial
        | cons token rest =>
          refine .expectedEnd rfl (hreading.viable hend hproductive) (hreading.not_viable ?_)
          intro more hyields
          cases hyields
      | cons wanted more =>
        obtain ⟨rfl, hbelow⟩ := List.cons.inj hstack
        cases rest with
        | nil =>
          rw [List.append_nil]
          exact kept_next_end h hend hproductive hbelow hreading
        | cons token rest => exact kept_next_token h hend hproductive hbelow hreading

/-- A source that is refused is blamed where its tokens, those of blanks left out, cannot go on to a
sentence for the first time: those before begin one, with the blamed one they begin none, and with
each that is expected they do; or all of them begin one but are none, and with each that is expected
after them they begin one. This holds where every nonterminal derives a word and no alternative
contains the end. -/
theorem blames_of_parse_error (g : Grammar) (names : List String) (table : Table)
    (hbuild : Table.build g names = .ok table) (hend : Endless g) (hproductive : Productive g)
    (source : String) (failure : Failure) (herror : parse table source = .error failure) :
    Blames g ((Token.scan source).filter fun token => !token.isWhitespace) source.utf8ByteSize
      failure := by
  have h := Table.built_of_build hbuild
  have hloop := reaches_ofStream h (.ofSource source)
  rw [← parse, herror] at hloop
  refine hloop.induction (p := Kept g _ source.utf8ByteSize) ?_ fun loop hkept =>
    kept_next h hend hproductive hkept
  rw [Loop.start, h.grammar]
  exact ⟨[], [.nonterminal g.start], rfl, rfl, .start g _⟩

/-- Every row has words, the empty one among them. -/
theorem productive_rowGrammar : rowGrammar.Productive := by
  intro name hname
  obtain rfl := List.mem_singleton.mp hname
  have hempty : rowGrammar.Produces "row" [.epsilon] :=
    ⟨_, List.mem_singleton.mpr rfl, rfl, by decide⟩
  exact ⟨[], derives_of_yields (yields_nonterminal.mpr ⟨_, hempty, .epsilon .nil⟩)⟩

/-- In a row a sign after the first variable is blamed, where another variable is expected. -/
theorem blames_of_parse_error_row : ∃ table, Table.build rowGrammar ["VAR"] = .ok table ∧
    Endless rowGrammar ∧ rowGrammar.Productive ∧
    parse table "x +" = .error (.located ⟨2, 3⟩ (.unexpectedToken ["VAR"] "PLUS" "+")) ∧
    Blames rowGrammar [⟨.var, "x", ⟨0, 1⟩⟩, ⟨.plus, "+", ⟨2, 3⟩⟩] 3
      (.located ⟨2, 3⟩ (.unexpectedToken ["VAR"] "PLUS" "+")) := by
  have hnames : Table.sortNames ["VAR"] = ["VAR"] := by
    rw [Table.sortNames, List.mergeSort_singleton]
    rfl
  have hscan : (Token.scan "x +").filter (fun token => !token.isWhitespace) =
      [⟨.var, "x", ⟨0, 1⟩⟩, ⟨.plus, "+", ⟨2, 3⟩⟩] := by
    cbv
  have hrun : ∃ table, Table.build rowGrammar ["VAR"] = .ok table ∧
      ofStream table ⟨[], [⟨.var, "x", ⟨0, 1⟩⟩, ⟨.plus, "+", ⟨2, 3⟩⟩], 3⟩ =
        .error (.located ⟨2, 3⟩ (.unexpectedToken ["VAR"] "PLUS" "+")) := by
    rw [Table.build, hnames]
    exact ⟨_, rfl, rfl⟩
  obtain ⟨table, hbuild, hrun⟩ := hrun
  have hparse : parse table "x +" =
      .error (.located ⟨2, 3⟩ (.unexpectedToken ["VAR"] "PLUS" "+")) := by
    rw [parse, Token.Stream.ofSource, hscan]
    exact hrun
  have hblames := blames_of_parse_error rowGrammar ["VAR"] table hbuild endless_rowGrammar
    productive_rowGrammar "x +" _ hparse
  rw [hscan] at hblames
  exact ⟨table, hbuild, endless_rowGrammar, productive_rowGrammar, hparse, hblames⟩

end SymbolicAlgebra.ParseTree
