import SymbolicAlgebra.Proofs.Grammar.Sentential
import SymbolicAlgebra.Proofs.ParseTree.Language
import SymbolicAlgebra.Proofs.ParseTree.Loop
import SymbolicAlgebra.Proofs.Token.Munch

/-!
# Parse trees as derivations

The tree of a source that is parsed tells a derivation of its tokens. Its leaves are the tokens,
every node above them is replaced by an alternative of its nonterminal without the empty strings,
and it covers the source from its first token to its last. The last holds since a node covers what
its children cover and the tokens stand one after the other: the union of the regions is taken from
left to right.
-/

namespace SymbolicAlgebra.ParseTree

open Grammar Text

/-- The span runs from the start of the first token to the end of the last, or it is empty if there
is none. -/
structure Encloses (span : Span) (tokens : List Token) : Prop where
  filled : ∀ first ∈ tokens.head?, ∀ last ∈ tokens.getLast?,
    span = ⟨first.span.start, last.span.stop⟩
  empty : tokens = [] → ∃ offset, span = .point offset

/-- A nonterminal is replaced by the symbols of its children, which are those of an alternative
without the empty strings, or it vanishes; and it covers the tokens below it. -/
structure Expanded (g : Grammar) (name : String) (span : Span) (children : List ParseTree) :
    Prop where
  replaced : children ≠ [] → ∃ alternative, g.Produces name alternative ∧
    children.map symbol = alternative.filter (· ≠ .epsilon)
  vanished : children = [] → g.Derives [.nonterminal name] []
  encloses : Encloses span (tokensList children)

/-- Every nonterminal in the tree is expanded. -/
inductive Faithful (g : Grammar) : ParseTree → Prop
  | leaf (token : Token) : Faithful g (leaf token)
  | node {name : String} {span : Span} {children : List ParseTree} :
    Expanded g name span children → (∀ child ∈ children, Faithful g child) →
    Faithful g (node name span children)

variable {g : Grammar} {table : Table} {sourceEnd : Nat}

/-- A faithful tree covers its tokens. -/
theorem Faithful.encloses {tree : ParseTree} (h : Faithful g tree) :
    Encloses tree.span tree.tokens := by
  cases h with
  | leaf token =>
    rw [tokens]
    refine ⟨fun first hfirst last hlast => ?_, fun hnil => (List.cons_ne_nil _ _ hnil).elim⟩
    cases hfirst
    cases hlast
    rfl
  | node hexpanded _ =>
    rw [tokens]
    exact hexpanded.encloses

/-- A tree without tokens has an empty region. -/
theorem Encloses.isEmpty {tree : ParseTree} (h : Encloses tree.span tree.tokens)
    (hnil : tree.tokens = []) : tree.span.isEmpty = true := by
  obtain ⟨offset, hspan⟩ := h.empty hnil
  rw [hspan]
  simp [Span.isEmpty, Span.point]

/-- A tree with tokens in order has a region that is not empty. -/
theorem Encloses.exists_span {tree : ParseTree} (h : Encloses tree.span tree.tokens)
    (horder : Token.InOrder tree.tokens) (hne : tree.tokens ≠ []) :
    ∃ first ∈ tree.tokens.head?, ∃ last ∈ tree.tokens.getLast?,
      tree.span = ⟨first.span.start, last.span.stop⟩ ∧ tree.span.isEmpty = false := by
  have hfirst := List.head?_eq_some_head hne
  have hlast := List.getLast?_eq_some_getLast hne
  have hspan := h.filled _ hfirst _ hlast
  refine ⟨_, hfirst, _, hlast, hspan, ?_⟩
  have hlt := horder.start_lt_stop hfirst hlast
  rw [hspan]
  simp only [Span.isEmpty, decide_eq_false_iff_not]
  omega

/-- The regions of trees that have tokens, joined to one before them, end with the last token. -/
theorem foldl_union {trees : List ParseTree}
    (htrees : ∀ tree ∈ trees, Encloses tree.span tree.tokens) {s : Span} (hs : s.start ≤ s.stop)
    (horder : Token.InOrder (tokensList trees))
    (hafter : ∀ t ∈ tokensList trees, s.stop ≤ t.span.start) :
    ((trees.map span).filter (!·.isEmpty)).foldl Span.union s =
      ⟨s.start, ((tokensList trees).getLast?.map (·.span.stop)).getD s.stop⟩ := by
  induction trees generalizing s with
  | nil => rw [tokensList]; rfl
  | cons tree trees ih =>
    rw [List.forall_mem_cons] at htrees
    rw [tokensList] at horder hafter ⊢
    have hrest := horder.sublist (List.sublist_append_right _ _)
    by_cases hnil : tree.tokens = []
    · rw [hnil, List.nil_append] at hafter ⊢
      rw [List.map_cons, List.filter_cons_of_neg (by simp [htrees.1.isEmpty hnil])]
      exact ih htrees.2 hs hrest hafter
    · obtain ⟨first, hfirst, last, hlast, hspan, hfilled⟩ :=
        htrees.1.exists_span (horder.sublist (List.sublist_append_left _ _)) hnil
      have hlt := (horder.sublist (List.sublist_append_left _ _)).start_lt_stop hfirst hlast
      have hbefore := hafter first (List.mem_append_left _ (List.mem_of_mem_head? hfirst))
      have hunion : s.union tree.span = ⟨s.start, last.span.stop⟩ := by
        rw [hspan, Span.union, Span.mk.injEq]
        dsimp only
        omega
      have hlater : ∀ t ∈ tokensList trees, last.span.stop ≤ t.span.start := fun t ht =>
        (List.pairwise_append.mp horder.apart).2.2 last (List.mem_of_mem_getLast? hlast) t ht
      have hjoined := ih htrees.2 (s := ⟨s.start, last.span.stop⟩) (by dsimp only; omega) hrest
        hlater
      rw [List.map_cons, List.filter_cons_of_pos (by simp [hfilled]), List.foldl_cons, hunion,
        hjoined, List.getLast?_append, hlast]
      cases (tokensList trees).getLast? <;> rfl

/-- A node covers the tokens that its children cover. -/
theorem encloses_cover (home : Nat) {trees : List ParseTree}
    (htrees : ∀ tree ∈ trees, Encloses tree.span tree.tokens)
    (horder : Token.InOrder (tokensList trees)) :
    Encloses (.cover (.point home) (trees.map span)) (tokensList trees) := by
  rw [Span.cover]
  induction trees with
  | nil =>
    rw [tokensList]
    exact ⟨fun _ hfirst => (Option.not_mem_none _ hfirst).elim, fun _ => ⟨home, rfl⟩⟩
  | cons tree trees ih =>
    rw [List.forall_mem_cons] at htrees
    rw [tokensList] at horder ⊢
    have hrest := horder.sublist (List.sublist_append_right _ _)
    by_cases hnil : tree.tokens = []
    · rw [hnil, List.nil_append, List.map_cons,
        List.filter_cons_of_neg (by simp [htrees.1.isEmpty hnil])]
      exact ih htrees.2 hrest
    · obtain ⟨first, hfirst, last, hlast, hspan, hfilled⟩ :=
        htrees.1.exists_span (horder.sublist (List.sublist_append_left _ _)) hnil
      have hlt := (horder.sublist (List.sublist_append_left _ _)).start_lt_stop hfirst hlast
      have hlater : ∀ t ∈ tokensList trees, tree.span.stop ≤ t.span.start := fun t ht => by
        rw [hspan]
        exact (List.pairwise_append.mp horder.apart).2.2 last (List.mem_of_mem_getLast? hlast) t ht
      have hjoined := foldl_union htrees.2 (s := tree.span) (by rw [hspan]; exact hlt.le) hrest
        hlater
      rw [List.map_cons, List.filter_cons_of_pos (by simp [hfilled])]
      dsimp only
      rw [hjoined, hspan]
      refine ⟨fun first' hfirst' last' hlast' => ?_, fun hempty => ?_⟩
      · rw [List.head?_append, hfirst] at hfirst'
        rw [List.getLast?_append, hlast] at hlast'
        cases hfirst'
        cases hend : (tokensList trees).getLast? with
        | none =>
          rw [hend] at hlast'
          cases hlast'
          rfl
        | some t =>
          rw [hend] at hlast'
          cases hlast'
          rfl
      · exact (hnil (List.append_eq_nil_iff.mp hempty).1).elim

/-- The trees in a row have all tokens of both. -/
theorem tokensList_append (trees more : List ParseTree) :
    tokensList (trees ++ more) = tokensList trees ++ tokensList more := by
  induction trees with
  | nil => rw [tokensList]; rfl
  | cons tree trees ih => rw [List.cons_append, tokensList, tokensList, ih, List.append_assoc]

/-- A sequence of empty strings alone vanishes. -/
theorem derives_nil_of_filter_eq_nil {symbols : List Symbol}
    (h : symbols.filter (· ≠ .epsilon) = []) : g.Derives symbols [] := by
  induction symbols with
  | nil => exact .refl
  | cons x symbols ih =>
    have hx : x = .epsilon := by simpa using List.filter_eq_nil_iff.mp h x List.mem_cons_self
    subst hx
    exact .head (.vanish [] symbols) (ih (by simpa using h))

/-- What is parsed is faithful to the symbols and to the tokens that are taken. -/
structure FaithfulParse (g : Grammar) (symbols : List Symbol) (tokens : List Token)
    (parsed : Parsed) : Prop where
  notEnded : parsed.ended = false
  symbols : parsed.trees.map symbol = symbols.filter (· ≠ .epsilon)
  tokens : tokens = tokensList parsed.trees ++ parsed.rest
  trees : ∀ tree ∈ parsed.trees, Faithful g tree

/-- A symbol parser whose trees are faithful wherever tokens are in order. -/
def FaithfulParser (g : Grammar) (parse : Symbol → List Token → Except Failure Parsed) : Prop :=
  ∀ symbol tokens parsed, symbol ≠ .endMarker → Token.InOrder tokens →
    parse symbol tokens = .ok parsed → FaithfulParse g [symbol] tokens parsed

/-- Parsing symbols in turn gives trees that are faithful to all of them. -/
theorem parseAll_faithful {parse : Symbol → List Token → Except Failure Parsed}
    (h : FaithfulParser g parse) {symbols : List Symbol} (hend : .endMarker ∉ symbols)
    {tokens : List Token} (horder : Token.InOrder tokens) {parsed : Parsed}
    (hparse : parseAll parse symbols tokens = .ok parsed) :
    FaithfulParse g symbols tokens parsed := by
  induction symbols generalizing tokens parsed with
  | nil =>
    cases hparse
    exact ⟨rfl, rfl, by rw [tokensList]; rfl, by simp⟩
  | cons symbol symbols ih =>
    rw [List.mem_cons, not_or] at hend
    rw [parseAll] at hparse
    cases hhere : parse symbol tokens with
    | error failure => rw [hhere] at hparse; cases hparse
    | ok here =>
      obtain ⟨hnot, hsymbols, htokens, htrees⟩ :=
        h symbol tokens here (Ne.symm hend.1) horder hhere
      have hrest : Token.InOrder here.rest :=
        horder.sublist (htokens ▸ List.sublist_append_right _ _)
      simp only [hhere, bind, Except.bind, hnot] at hparse
      cases hmore : parseAll parse symbols here.rest with
      | error failure => rw [hmore] at hparse; cases hparse
      | ok more =>
        rw [hmore] at hparse
        cases hparse
        obtain ⟨hnot', hsymbols', htokens', htrees'⟩ := ih hend.2 hrest hmore
        refine ⟨hnot', ?_, ?_, ?_⟩
        · rw [List.map_append, hsymbols, hsymbols', ← List.filter_append]
          rfl
        · rw [tokensList_append, List.append_assoc, ← htokens', ← htokens]
        · intro tree htree
          exact (List.mem_append.mp htree).elim (htrees tree) (htrees' tree)

/-- Parsing a symbol gives a tree that is faithful to it. -/
theorem parseSymbol_faithful (h : Table.Built g table) (hend : Endless g) (fuel : Nat) :
    FaithfulParser g (parseSymbol table sourceEnd fuel) := by
  induction fuel with
  | zero => intro symbol tokens parsed _ _ hparse; cases hparse
  | succ fuel ih =>
    intro symbol tokens parsed hsymbol horder hparse
    cases tokens with
    | nil =>
      rw [parseSymbol] at hparse
      cases symbol with
      | terminal name => cases hparse
      | nonterminal name =>
        rw [parseAtEnd] at hparse
        split at hparse
        · rename_i hnullable
          cases hparse
          have hvanishes := derives_of_yields (h.isNullable_iff.mp hnullable)
          refine ⟨rfl, rfl, by simp [tokensList, ofChildren, tokens], ?_⟩
          rw [List.forall_mem_singleton]
          refine .node ⟨fun hne => (hne rfl).elim, fun _ => hvanishes, ?_⟩ (by simp)
          exact encloses_cover sourceEnd (by simp) (by rw [tokensList]; exact horder)
        · cases hparse
      | epsilon =>
        cases hparse
        exact ⟨rfl, rfl, by rw [tokensList]; rfl, by simp⟩
      | endMarker => exact (hsymbol rfl).elim
    | cons token tokens =>
      cases symbol with
      | terminal name =>
        rw [parseSymbol] at hparse
        split at hparse
        · rename_i hname
          cases hparse
          subst hname
          refine ⟨rfl, rfl, by simp [tokensList, ParseTree.tokens], ?_⟩
          rw [List.forall_mem_singleton]
          exact .leaf token
        · cases hparse
      | nonterminal name =>
        rw [parseSymbol] at hparse
        split at hparse
        · cases hparse
        · rename_i alternative hlookup
          have hproduces := h.produces_of_lookup? hlookup
          cases hbelow : parseAll (parseSymbol table sourceEnd fuel) alternative
              (token :: tokens) with
          | error failure => rw [hbelow] at hparse; cases hparse
          | ok below =>
            rw [hbelow] at hparse
            cases hparse
            obtain ⟨hnot, hsymbols, htokens, htrees⟩ :=
              parseAll_faithful ih (hend name alternative hproduces) horder hbelow
            refine ⟨hnot, rfl, ?_, ?_⟩
            · rw [tokensList, tokensList, List.append_nil, ofChildren, ParseTree.tokens]
              exact htokens
            · rw [List.forall_mem_singleton]
              refine .node ⟨fun _ => ⟨alternative, hproduces, hsymbols⟩, fun hnil => ?_, ?_⟩ htrees
              · rw [hnil] at hsymbols
                exact .of_produces hproduces (derives_nil_of_filter_eq_nil hsymbols.symm)
              · exact encloses_cover _ (fun tree htree => (htrees tree htree).encloses)
                  (horder.sublist (htokens ▸ List.sublist_append_left _ _))
      | epsilon =>
        cases hparse
        exact ⟨rfl, rfl, by rw [tokensList]; rfl, by simp⟩
      | endMarker => exact (hsymbol rfl).elim

mutual

/-- The nodes that stand in an array for a faithful tree belong to faithful trees. -/
theorem Faithful.of_placed {nodes : Arena} {parent : Option Nat} {id : Nat} :
    ∀ {tree : ParseTree}, Placed nodes parent id tree → Faithful g tree →
      ∀ k, id ≤ k → k < id + tree.size → ∃ above sub, Placed nodes above k sub ∧ Faithful g sub
  | leaf token, h, htree, k, hle, hlt => by
    rw [size] at hlt
    obtain rfl : k = id := by omega
    exact ⟨parent, leaf token, h, htree⟩
  | .node name span children, h, htree, k, hle, hlt => by
    rw [size] at hlt
    obtain rfl | hbelow := Nat.eq_or_lt_of_le hle
    · exact ⟨parent, .node name span children, h, htree⟩
    · cases htree with
      | node _ hchildren => exact faithful_of_placedList h.2 hchildren k hbelow (by omega)

/-- The nodes that stand in an array for faithful trees in a row belong to faithful trees. -/
theorem faithful_of_placedList {nodes : Arena} {up id : Nat} :
    ∀ {trees : List ParseTree}, PlacedList nodes up id trees → (∀ tree ∈ trees, Faithful g tree) →
      ∀ k, id ≤ k → k < id + sizeList trees → ∃ above sub, Placed nodes above k sub ∧ Faithful g sub
  | [], _, _, k, hle, hlt => by
    rw [sizeList] at hlt
    omega
  | tree :: trees, h, htrees, k, hle, hlt => by
    rw [List.forall_mem_cons] at htrees
    rw [sizeList] at hlt
    by_cases hhere : k < id + tree.size
    · exact Faithful.of_placed h.1 htrees.1 k hle hhere
    · exact faithful_of_placedList h.2 htrees.2 k (by omega) (by omega)

end

/-- What a node is at the end of the tree: the name, the text and the region of a terminal. -/
def Node.leaf? (node : Node) : Option (String × Option String × Span) :=
  match node.symbol with
  | .terminal name => some (name, node.lexeme?, node.span)
  | _ => none

/-- What a token is at the end of a tree. -/
def leafOf (token : Token) : String × Option String × Span :=
  (token.terminal, some token.lexeme, token.span)

mutual

/-- The leaves under the numbers of a tree that is placed are its tokens. -/
theorem Placed.leaves {nodes : Arena} {parent : Option Nat} {id : Nat} :
    ∀ {tree : ParseTree}, Placed nodes parent id tree →
      (List.range' id tree.size).filterMap (fun k => nodes[k]?.bind Node.leaf?) =
        tree.tokens.map leafOf
  | leaf token, h => by
    rw [size, tokens, List.range'_one, List.filterMap_cons_some (b := leafOf token)]
    · rfl
    · rw [h.node]
      rfl
  | .node name span children, h => by
    rw [size, tokens, Nat.add_comm, List.range'_succ, List.filterMap_cons_none,
      PlacedList.leaves h.2]
    rw [h.node]
    rfl

/-- The leaves under the numbers of trees that are placed in a row are their tokens. -/
theorem PlacedList.leaves {nodes : Arena} {up id : Nat} :
    ∀ {trees : List ParseTree}, PlacedList nodes up id trees →
      (List.range' id (sizeList trees)).filterMap (fun k => nodes[k]?.bind Node.leaf?) =
        (tokensList trees).map leafOf
  | [], _ => by rw [sizeList, tokensList]; rfl
  | tree :: trees, h => by
    rw [sizeList, tokensList, ← List.range'_append_1, List.filterMap_append, List.map_append,
      Placed.leaves h.1, PlacedList.leaves h.2]

end

/-- A tree that is the answer of the parser is faithful to the start symbol and to all tokens. -/
theorem faithful_of_ofStream (h : Table.Built g table) (hend : Endless g) {stream : Token.Stream}
    (horder : Token.InOrder stream.rest) {tree : ParseTree}
    (hparse : ofStream table stream = .ok tree) :
    tree.symbol = .nonterminal g.start ∧ tree.tokens = stream.rest ∧ Faithful g tree := by
  rw [ofStream] at hparse
  cases hstart : parseSymbol table stream.sourceEnd (depthBound table stream.rest)
      (.nonterminal table.grammar.start) stream.rest with
  | error failure => rw [hstart] at hparse; cases hparse
  | ok parsed =>
    obtain ⟨-, hsymbols, htokens, htrees⟩ := parseSymbol_faithful h hend _ _ _ _
      (fun heq => by cases heq) horder hstart
    rw [h.grammar] at hsymbols
    simp only [hstart, bind, Except.bind] at hparse
    obtain ⟨trees, rest, ended⟩ := parsed
    dsimp only at hsymbols htokens htrees hparse
    cases rest with
    | cons token rest => cases hparse
    | nil =>
      cases trees with
      | nil => cases hsymbols
      | cons first others =>
        cases hparse
        obtain ⟨hsymbol, hothers⟩ := List.cons.inj hsymbols
        obtain rfl := List.map_eq_nil_iff.mp hothers
        rw [tokensList, tokensList, List.append_nil, List.append_nil] at htokens
        exact ⟨hsymbol, htokens.symm, htrees _ List.mem_cons_self⟩

/-- What is kept of a list is kept of what stands under its numbers. -/
theorem filterMap_eq_range {α β : Type} (f : α → Option β) (l : List α) :
    l.filterMap f = (List.range l.length).filterMap fun k => l[k]?.bind f := by
  have hmembers : (List.range l.length).map (fun k => l[k]?) = l.map some :=
    List.ext_getElem (by simp) (by simp)
  calc l.filterMap f = (l.map some).filterMap (·.bind f) := by
        rw [List.filterMap_map]
        rfl
    _ = (List.range l.length).filterMap fun k => l[k]?.bind f := by
      rw [← hmembers, List.filterMap_map]
      rfl

/-- What a node of a derivation is. It is a terminal without children or a nonterminal, which is
replaced by the symbols of an alternative without the empty strings or vanishes. And it covers the
tokens that are met from it down from the first to the last, or nothing if there are none. -/
structure Node.Derived (g : Grammar) (nodes : Arena) (id : Nat) (node : Node) : Prop where
  kind : (∃ name, node.symbol = .terminal name ∧ node.childIds = []) ∨
    ∃ name, node.symbol = .nonterminal name ∧ node.lexeme? = none
  replaced : ∀ name, node.symbol = .nonterminal name → node.childIds ≠ [] →
    ∃ alternative, g.Produces name alternative ∧
      node.childIds.map (fun child => nodes[child]?.map Node.symbol) =
        (alternative.filter (· ≠ .epsilon)).map some
  vanished : ∀ name, node.symbol = .nonterminal name → node.childIds = [] →
    g.Derives [.nonterminal name] []
  encloses : ∃ below tokens, Visits nodes [id] below ∧
    below.filterMap (fun k => nodes[k]?.bind Node.leaf?) = tokens.map leafOf ∧
      Encloses node.span tokens

/-- The node that stands for a faithful tree is one of a derivation. -/
theorem Faithful.derived {nodes : Arena} {parent : Option Nat} {id : Nat} {tree : ParseTree}
    (htree : Faithful g tree) (h : Placed nodes parent id tree) :
    (Entry.node ⟨tree, parent, idsFrom (id + 1) tree.children⟩).Derived g nodes id := by
  have hencloses : ∃ below tokens, Visits nodes [id] below ∧
      below.filterMap (fun k => nodes[k]?.bind Node.leaf?) = tokens.map leafOf ∧
        Encloses tree.span tokens :=
    ⟨_, tree.tokens, by simpa using h.visits .nil, h.leaves, htree.encloses⟩
  have hsymbols :
      (idsFrom (id + 1) tree.children).map (fun child => nodes[child]?.map Node.symbol) =
        tree.children.map fun child => some child.symbol := by
    have := congrArg (List.map (Option.map Prod.fst)) h.children.map_idsFrom
    simpa [Function.comp_def] using this
  cases htree with
  | leaf token =>
    refine ⟨.inl ⟨_, rfl, rfl⟩, fun _ hname => ?_, fun _ hname => ?_, hencloses⟩
    · cases hname
    · cases hname
  | @node name span children hexpanded _ =>
    refine ⟨.inr ⟨name, rfl, rfl⟩, fun _ hname hne => ?_, fun _ hname hnil => ?_, hencloses⟩
    · cases hname
      obtain ⟨alternative, hproduces, hreplaced⟩ := hexpanded.replaced fun hnil => hne (by
        rw [Entry.node, hnil]; rfl)
      exact ⟨alternative, hproduces, by
        rw [← hreplaced, List.map_map]; exact hsymbols⟩
    · cases hname
      refine hexpanded.vanished ?_
      cases children with
      | nil => rfl
      | cons child children => cases hnil

/-- The nodes that the parser stops with for a source are a derivation of the source's tokens. The
first is the start symbol, and they are numbered from it down and from left to right. The leaves
among them are the tokens that are no blanks, in order. Every other node is replaced by the symbols
of an alternative without the empty strings, or vanishes; and it covers the source from its first
token to its last, or nothing. -/
theorem parse_faithful (g : Grammar) (names : List String) (table : Table)
    (hbuild : Table.build g names = .ok table) (hend : Endless g) (source : String) (nodes : Arena)
    (hparse : Loop.Reaches table (Token.Stream.ofSource source).sourceEnd
      (.start table (.ofSource source)) (.halted (.ok nodes))) :
    nodes[0]?.map Node.symbol = some (.nonterminal g.start) ∧ nodes.Numbered ∧
      nodes.toList.filterMap Node.leaf? =
        ((Token.scan source).filter fun token => !token.isWhitespace).map leafOf ∧
      ∀ (id : Nat) (node : Node), nodes[id]? = some node → node.Derived g nodes id := by
  have h := Table.built_of_build hbuild
  have hresult := hparse.unique (reaches_ofStream h _)
  obtain ⟨tree, htree, rfl⟩ :
      ∃ tree, ofStream table (.ofSource source) = .ok tree ∧ nodes = tree.arena := by
    cases htree : ofStream table (.ofSource source) with
    | error failure => rw [htree] at hresult; cases hresult
    | ok tree => rw [htree] at hresult; exact ⟨tree, rfl, Except.ok.inj hresult⟩
  obtain ⟨hsymbol, htokens, hfaithful⟩ :=
    faithful_of_ofStream h hend (Token.inOrder_scan source) htree
  have hplaced := placed_arena tree
  refine ⟨?_, numbered_arena tree, ?_, fun id node hnode => ?_⟩
  · rw [hplaced.node, ← hsymbol]
    rfl
  · have hleaves := hplaced.leaves
    rw [← size_arena, ← List.range_eq_range', htokens] at hleaves
    rw [filterMap_eq_range, Array.length_toList]
    simp only [Array.getElem?_toList]
    exact hleaves
  · have hlt := (Array.getElem?_eq_some_iff.mp hnode).1
    rw [size_arena] at hlt
    obtain ⟨above, sub, hsub, hfaithful⟩ :=
      hfaithful.of_placed hplaced id (Nat.zero_le id) (by omega)
    cases hnode.symm.trans hsub.node
    exact hfaithful.derived hsub

/-- The nodes of the row of two variables: the first covers both, and the tokens are the leaves. -/
theorem parse_faithful_row : ∃ table nodes, Table.build rowGrammar ["VAR"] = .ok table ∧
    Endless rowGrammar ∧
    Loop.Reaches table 3 (.start table (.ofSource "x y")) (.halted (.ok nodes)) ∧
    nodes[0]? = some ⟨.nonterminal "row", none, ⟨0, 3⟩, none, [1, 2]⟩ ∧ nodes.Numbered ∧
    nodes.toList.filterMap Node.leaf? =
      [("VAR", some "x", ⟨0, 1⟩), ("VAR", some "y", ⟨2, 3⟩)] := by
  have hnames : Table.sortNames ["VAR"] = ["VAR"] := by
    rw [Table.sortNames, List.mergeSort_singleton]
    rfl
  have hscan : (Token.scan "x y").filter (fun token => !token.isWhitespace) =
      [⟨.var, "x", ⟨0, 1⟩⟩, ⟨.var, "y", ⟨2, 3⟩⟩] := by
    cbv
  have hrun : ∃ table tree, Table.build rowGrammar ["VAR"] = .ok table ∧
      ofStream table ⟨[], [⟨.var, "x", ⟨0, 1⟩⟩, ⟨.var, "y", ⟨2, 3⟩⟩], 3⟩ = .ok tree ∧
      tree.arena[0]? = some ⟨.nonterminal "row", none, ⟨0, 3⟩, none, [1, 2]⟩ := by
    rw [Table.build, hnames]
    exact ⟨_, _, rfl, rfl, rfl⟩
  obtain ⟨table, tree, hbuild, hrun, hroot⟩ := hrun
  have hreaches :
      Loop.Reaches table 3 (.start table (.ofSource "x y")) (.halted (.ok tree.arena)) := by
    have hloop := reaches_ofStream (Table.built_of_build hbuild) (.ofSource "x y")
    rw [Token.Stream.ofSource, hscan] at hloop ⊢
    rwa [show ("x y" : String).utf8ByteSize = 3 from rfl, hrun] at hloop
  obtain ⟨-, hnumbered, hleaves, -⟩ :=
    parse_faithful rowGrammar ["VAR"] table hbuild endless_rowGrammar "x y" tree.arena hreaches
  rw [hscan] at hleaves
  exact ⟨table, tree.arena, hbuild, endless_rowGrammar, hreaches, hroot, hnumbered, hleaves⟩

end SymbolicAlgebra.ParseTree
