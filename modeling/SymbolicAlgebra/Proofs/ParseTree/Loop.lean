import SymbolicAlgebra.Proofs.ParseTree.Arena
import SymbolicAlgebra.Proofs.ParseTree.Bound

/-!
# Parsing in a loop

The loop over a stack does what the nested calls do. A call for a symbol returns exactly where the
loop comes back to the symbols below it, and the nodes that the loop has added by then are those of
the trees that the call returns. So the loop stops, since the calls do, and it stops with the array
of the tree or with the same failure.
-/

namespace SymbolicAlgebra.ParseTree

namespace Loop

/-- Some number of rounds lead from one state to another. -/
def Reaches (table : Table) (sourceEnd : Nat) (before after : Loop) : Prop :=
  ∃ rounds, (next table sourceEnd)^[rounds] before = after

variable {table : Table} {sourceEnd : Nat} {before after : Loop}

/-- No round leads to the same state. -/
theorem Reaches.refl : Reaches table sourceEnd before before := ⟨0, rfl⟩

/-- Rounds after rounds are rounds. -/
theorem Reaches.trans {between : Loop} (h : Reaches table sourceEnd before between)
    (h' : Reaches table sourceEnd between after) : Reaches table sourceEnd before after := by
  obtain ⟨rounds, rfl⟩ := h
  obtain ⟨more, rfl⟩ := h'
  exact ⟨more + rounds, Function.iterate_add_apply _ _ _ _⟩

/-- A round and those after it are rounds. -/
theorem Reaches.next (h : Reaches table sourceEnd (before.next table sourceEnd) after) :
    Reaches table sourceEnd before after :=
  .trans ⟨1, rfl⟩ h

/-- The loop stops with one result. -/
theorem Reaches.unique {result other : Except Failure Arena}
    (h : Reaches table sourceEnd before (halted result))
    (hother : Reaches table sourceEnd before (halted other)) : result = other := by
  obtain ⟨rounds, hrounds⟩ := h
  obtain ⟨more, hmore⟩ := hother
  have hstays (result : Except Failure Arena) (n : Nat) :
      (Loop.next table sourceEnd)^[n] (halted result) = halted result :=
    Function.iterate_fixed rfl n
  have hboth : halted other = halted result :=
    calc halted other = (Loop.next table sourceEnd)^[rounds + more] before := by
          rw [Function.iterate_add_apply, hmore, hstays]
      _ = halted result := by rw [Nat.add_comm, Function.iterate_add_apply, hrounds, hstays]
  exact (Loop.halted.inj hboth).symm

/-- What every round keeps holds wherever rounds lead. -/
theorem Reaches.induction {p : Loop → Prop} (h : Reaches table sourceEnd before after)
    (start : p before) (step : ∀ loop, p loop → p (loop.next table sourceEnd)) : p after := by
  obtain ⟨rounds, rfl⟩ := h
  induction rounds with
  | zero => exact start
  | succ rounds ih =>
    rw [Function.iterate_succ_apply']
    exact step _ ih

/-- The loop comes back to the symbols below one as a call for that returns: with nodes that were
added for the trees of the call, or with its failure. -/
def Resumes (table : Table) (sourceEnd : Nat) (before : Loop) (nodes : Arena) (parent : Option Nat)
    (stack : List (Symbol × Option Nat)) : Except Failure Parsed → Prop
  | .ok parsed => ∃ after, Grows nodes parent parsed.trees after ∧ Reaches table sourceEnd before
      (if parsed.ended then halted (.ok after.finishSpans) else running after stack parsed.rest)
  | .error failure => Reaches table sourceEnd before (halted (.error failure))

/-- The loop comes back as well from where rounds lead. -/
theorem Reaches.resumes {between : Loop} {nodes : Arena} {parent : Option Nat}
    {stack : List (Symbol × Option Nat)} {result : Except Failure Parsed}
    (h : Reaches table sourceEnd before between)
    (hresumes : Resumes table sourceEnd between nodes parent stack result) :
    Resumes table sourceEnd before nodes parent stack result := by
  cases result with
  | error failure => exact h.trans hresumes
  | ok parsed =>
    obtain ⟨after, hgrows, hreaches⟩ := hresumes
    exact ⟨after, hgrows, h.trans hreaches⟩

/-- The symbols of an alternative but the empty string come onto the stack in their order. -/
theorem expand_eq (alternative : List Symbol) (id : Nat) (stack : List (Symbol × Option Nat)) :
    expand alternative id stack =
      (alternative.filter (· ≠ .epsilon)).map (·, some id) ++ stack := by
  rw [expand, List.filter_reverse, List.foldl_reverse]
  induction alternative.filter (· ≠ .epsilon) with
  | nil => rfl
  | cons symbol symbols ih => rw [List.foldr_cons, ih, List.map_cons, List.cons_append]

end Loop

open Loop

variable {g : Grammar} {table : Table} {sourceEnd : Nat}

/-- The empty string is parsed without a token. -/
theorem parseSymbol_epsilon {fuel : Nat} {tokens : List Token}
    (h : parseSymbol table sourceEnd fuel .epsilon tokens ≠ .error (.detached .workExhausted)) :
    parseSymbol table sourceEnd fuel .epsilon tokens = .ok ⟨[], tokens, false⟩ := by
  cases fuel with
  | zero => exact (h rfl).elim
  | succ fuel => cases tokens <;> rfl

/-- Where calls for symbols in turn do not meet the bound, the loop comes back to the symbols below
them. -/
theorem resumes_parseAll {fuel : Nat}
    (ih : ∀ symbol tokens nodes parent stack,
      parseSymbol table sourceEnd fuel symbol tokens ≠ .error (.detached .workExhausted) →
      Resumes table sourceEnd (running nodes ((symbol, parent) :: stack) tokens) nodes parent stack
        (parseSymbol table sourceEnd fuel symbol tokens))
    {symbols : List Symbol} {tokens : List Token} {nodes : Arena} {parent : Option Nat}
    {stack : List (Symbol × Option Nat)}
    (hne : parseAll (parseSymbol table sourceEnd fuel) symbols tokens ≠
      .error (.detached .workExhausted)) :
    Resumes table sourceEnd
      (running nodes ((symbols.filter (· ≠ .epsilon)).map (·, parent) ++ stack) tokens)
      nodes parent stack
      (parseAll (parseSymbol table sourceEnd fuel) symbols tokens) := by
  induction symbols generalizing tokens nodes with
  | nil => exact ⟨nodes, .nil nodes parent, .refl⟩
  | cons symbol symbols ih' =>
    have hhere :
        parseSymbol table sourceEnd fuel symbol tokens ≠ .error (.detached .workExhausted) :=
      fun herror => hne (parseAll_cons_eq_error.mpr (.inl herror))
    have hsymbol : Resumes table sourceEnd
        (running nodes (((symbol :: symbols).filter (· ≠ .epsilon)).map (·, parent) ++ stack)
          tokens)
        nodes parent ((symbols.filter (· ≠ .epsilon)).map (·, parent) ++ stack)
        (parseSymbol table sourceEnd fuel symbol tokens) := by
      by_cases hempty : symbol = .epsilon
      · subst hempty
        rw [parseSymbol_epsilon hhere]
        exact ⟨nodes, .nil nodes parent, .refl⟩
      · rw [List.filter_cons_of_pos (by simpa using hempty)]
        exact ih symbol tokens nodes parent _ hhere
    cases hparse : parseSymbol table sourceEnd fuel symbol tokens with
    | error failure =>
      rw [hparse] at hsymbol
      rw [parseAll_cons_eq_error.mpr (.inl hparse)]
      exact hsymbol
    | ok here =>
      rw [hparse] at hsymbol
      obtain ⟨between, hgrows, hreaches⟩ := hsymbol
      cases hended : here.ended with
      | true =>
        rw [parseAll_cons_eq_ok.mpr ⟨here, hparse, .inl ⟨hended, rfl⟩⟩]
        rw [if_pos hended] at hreaches
        exact ⟨between, hgrows, by rwa [if_pos hended]⟩
      | false =>
        rw [if_neg (by simp [hended])] at hreaches
        have hmore : parseAll (parseSymbol table sourceEnd fuel) symbols here.rest ≠
            .error (.detached .workExhausted) := fun herror =>
          hne (parseAll_cons_eq_error.mpr (.inr ⟨here, hparse, hended, herror⟩))
        have hrest := hreaches.resumes (ih' hmore)
        rw [parseAll]
        simp only [hparse, bind, Except.bind, hended]
        cases hall : parseAll (parseSymbol table sourceEnd fuel) symbols here.rest with
        | error failure =>
          rw [hall] at hrest
          exact hrest
        | ok more =>
          rw [hall] at hrest
          obtain ⟨after, hgrowsMore, hreachesMore⟩ := hrest
          exact ⟨after, hgrows.append hgrowsMore, hreachesMore⟩

/-- Where the call for a nonterminal before a token does not meet the bound, and the loop comes back
from the alternative in its place, it comes back from the nonterminal. -/
theorem resumes_nonterminal {fuel : Nat} {name : String} {token : Token} {tokens : List Token}
    {nodes : Arena} {parent : Option Nat} {stack : List (Symbol × Option Nat)} {before : Loop}
    {alternative : List Symbol}
    (hlookup : table.lookup? name (.terminal token.terminal) = some alternative)
    (h : Resumes table sourceEnd before
      (nodes.add parent (.nonterminal name) none (.point token.span.start)) (some nodes.size) stack
      (parseAll (parseSymbol table sourceEnd fuel) alternative (token :: tokens))) :
    Resumes table sourceEnd before nodes parent stack
      (parseSymbol table sourceEnd (fuel + 1) (.nonterminal name) (token :: tokens)) := by
  rw [parseSymbol]
  simp only [hlookup]
  cases hbelow : parseAll (parseSymbol table sourceEnd fuel) alternative (token :: tokens) with
  | error failure =>
    rw [hbelow] at h
    exact h
  | ok below =>
    rw [hbelow] at h
    obtain ⟨after, hgrows, hreaches⟩ := h
    exact ⟨after, .node hgrows (.nil after parent), hreaches⟩

/-- Where a call for a symbol does not meet the bound, the loop comes back to the symbols below
it. -/
theorem resumes_parseSymbol (fuel : Nat) (symbol : Symbol) (tokens : List Token) (nodes : Arena)
    (parent : Option Nat) (stack : List (Symbol × Option Nat))
    (hne : parseSymbol table sourceEnd fuel symbol tokens ≠ .error (.detached .workExhausted)) :
    Resumes table sourceEnd (running nodes ((symbol, parent) :: stack) tokens) nodes parent stack
      (parseSymbol table sourceEnd fuel symbol tokens) := by
  induction fuel generalizing symbol tokens nodes parent stack with
  | zero => exact (hne rfl).elim
  | succ fuel ih =>
    refine Reaches.resumes (.next .refl) ?_
    cases tokens with
    | nil =>
      cases symbol with
      | nonterminal name =>
        rw [parseSymbol, parseAtEnd, next]
        split
        · exact ⟨_, .node (.nil _ _) (.nil _ _), .refl⟩
        · exact .refl
      | terminal name => exact .refl
      | epsilon => exact ⟨nodes, .nil nodes parent, .refl⟩
      | endMarker => exact ⟨nodes, .nil nodes parent, .refl⟩
    | cons token tokens =>
      cases symbol with
      | nonterminal name =>
        rw [next]
        cases hlookup : table.lookup? name (.terminal token.terminal) with
        | none =>
          rw [parseSymbol]
          simp only [hlookup]
          exact .refl
        | some alternative =>
          have hbelow : parseAll (parseSymbol table sourceEnd fuel) alternative (token :: tokens) ≠
              .error (.detached .workExhausted) := by
            intro herror
            refine hne ?_
            rw [parseSymbol]
            simp only [hlookup, herror, bind, Except.bind]
          dsimp only
          rw [expand_eq]
          exact resumes_nonterminal hlookup (resumes_parseAll ih hbelow)
      | terminal name =>
        rw [parseSymbol, next]
        split
        · rename_i hname
          subst hname
          exact ⟨_, .leaf (.nil _ _), .refl⟩
        · exact .refl
      | epsilon => exact ⟨nodes, .nil nodes parent, .refl⟩
      | endMarker => exact .refl

/-- A nonterminal that is parsed has one tree. -/
theorem exists_tree_of_parseSymbol {fuel : Nat} {name : String} {tokens : List Token}
    {parsed : Parsed}
    (hparse : parseSymbol table sourceEnd fuel (.nonterminal name) tokens = .ok parsed) :
    ∃ tree, parsed.trees = [tree] := by
  cases fuel with
  | zero => cases hparse
  | succ fuel =>
    cases tokens with
    | nil =>
      rw [parseSymbol, parseAtEnd] at hparse
      split at hparse
      · cases hparse
        exact ⟨_, rfl⟩
      · cases hparse
    | cons token tokens =>
      obtain ⟨alternative, below, -, -, rfl⟩ := parseSymbol_nonterminal_eq_ok.mp hparse
      exact ⟨_, rfl⟩

/-- With a table that could be built the bound on the depth is met by no text. -/
theorem ofStream_ne_exhausted (h : Table.Built g table) (stream : Token.Stream) :
    ofStream table stream ≠ .error (.detached .workExhausted) := by
  have hne := parseSymbol_depthBound_ne_exhausted h stream.sourceEnd
    (.nonterminal table.grammar.start) stream.rest
  rw [ofStream]
  cases hstart : parseSymbol table stream.sourceEnd (depthBound table stream.rest)
      (.nonterminal table.grammar.start) stream.rest with
  | error failure =>
    rw [hstart] at hne
    simpa [bind, Except.bind] using hne
  | ok parsed =>
    obtain ⟨tree, htrees⟩ := exists_tree_of_parseSymbol hstart
    cases hrest : parsed.rest <;>
      simp [bind, Except.bind, htrees, hrest, Failure.located, Failure.detached]

/-- The loop stops with the array of the tree that parsing the stream gives, or with the same
failure. -/
theorem reaches_ofStream (h : Table.Built g table) (stream : Token.Stream) :
    Reaches table stream.sourceEnd (start table stream)
      (halted ((ofStream table stream).map arena)) := by
  have hne := parseSymbol_depthBound_ne_exhausted h stream.sourceEnd
    (.nonterminal table.grammar.start) stream.rest
  have hloop := resumes_parseSymbol _ _ _ #[] none [(.endMarker, none)] hne
  rw [ofStream, start]
  cases hstart : parseSymbol table stream.sourceEnd (depthBound table stream.rest)
      (.nonterminal table.grammar.start) stream.rest with
  | error failure =>
    rw [hstart] at hloop
    exact hloop
  | ok parsed =>
    rw [hstart] at hloop
    obtain ⟨nodes, hgrows, hreaches⟩ := hloop
    obtain ⟨tree, htrees⟩ := exists_tree_of_parseSymbol hstart
    rw [htrees] at hgrows
    have hnodes := hgrows.finishSpans
    cases hended : parsed.ended with
    | true =>
      rw [if_pos hended, hnodes] at hreaches
      have hrest := (parseSymbol_leavesRest _ _ _ _ hstart).2 hended
      simp only [bind, Except.bind, hrest, htrees]
      exact hreaches
    | false =>
      rw [if_neg (by simp [hended])] at hreaches
      refine hreaches.trans (.next ?_)
      cases hrest : parsed.rest with
      | nil =>
        simp only [bind, Except.bind, hrest, htrees, next, hnodes]
        exact .refl
      | cons token rest =>
        simp only [bind, Except.bind, hrest]
        exact .refl

/-- Parsing with a table always stops, whatever the grammar: on every stream of tokens the loop
stops after some number of rounds, with the nodes of the tree or the failure that parsing the stream
gives, and this failure never is that the bound on the depth was met. -/
theorem exists_halted (g : Grammar) (names : List String) (table : Table)
    (hbuild : Table.build g names = .ok table) (stream : Token.Stream) :
    ofStream table stream ≠ .error (.detached .workExhausted) ∧
      ∃ rounds, (Loop.next table stream.sourceEnd)^[rounds] (.start table stream) =
        .halted ((ofStream table stream).map arena) :=
  ⟨ofStream_ne_exhausted (Table.built_of_build hbuild) stream,
    reaches_ofStream (Table.built_of_build hbuild) stream⟩

/-- Variables in a row, with a nonterminal that only begins with itself, and one that can be
replaced by itself or vanish. -/
def knotGrammar : Grammar :=
  ⟨⟨"row", [[.terminal "VAR", .nonterminal "row"], [.nonterminal "left"], [.epsilon]], .point 0⟩,
    [⟨"left", [[.nonterminal "left", .terminal "VAR"]], .point 0⟩,
      ⟨"knot", [[.nonterminal "knot"], [.epsilon]], .point 0⟩], rfl⟩

/-- The grammar with the knot has a table, and the loop stops on a variable with the nodes of the
row of it and of the empty row after it. -/
theorem exists_halted_knot : ∃ table, Table.build knotGrammar ["VAR"] = .ok table ∧
    ∃ rounds, (Loop.next table 1)^[rounds]
      (.running #[] [(.nonterminal "row", none), (.endMarker, none)] [⟨.var, "x", ⟨0, 1⟩⟩]) =
        .halted (.ok #[⟨.nonterminal "row", none, ⟨0, 1⟩, none, [1, 2]⟩,
          ⟨.terminal "VAR", some "x", ⟨0, 1⟩, some 0, []⟩,
          ⟨.nonterminal "row", none, ⟨1, 1⟩, some 0, []⟩]) := by
  have hnames : Table.sortNames ["VAR"] = ["VAR"] := by
    rw [Table.sortNames, List.mergeSort_singleton]
    rfl
  have hrun : ∃ table tree, Table.build knotGrammar ["VAR"] = .ok table ∧
      table.grammar.start = "row" ∧ ofStream table ⟨[], [⟨.var, "x", ⟨0, 1⟩⟩], 1⟩ = .ok tree ∧
      tree.arena = #[⟨.nonterminal "row", none, ⟨0, 1⟩, none, [1, 2]⟩,
        ⟨.terminal "VAR", some "x", ⟨0, 1⟩, some 0, []⟩,
        ⟨.nonterminal "row", none, ⟨1, 1⟩, some 0, []⟩] := by
    rw [Table.build, hnames]
    exact ⟨_, _, rfl, rfl, rfl, rfl⟩
  obtain ⟨table, tree, hbuild, hstart, hrun, hnodes⟩ := hrun
  obtain ⟨-, rounds, hrounds⟩ :=
    exists_halted knotGrammar ["VAR"] table hbuild ⟨[], [⟨.var, "x", ⟨0, 1⟩⟩], 1⟩
  rw [hrun, Loop.start, hstart, Except.map, hnodes] at hrounds
  exact ⟨table, hbuild, rounds, hrounds⟩

end SymbolicAlgebra.ParseTree
