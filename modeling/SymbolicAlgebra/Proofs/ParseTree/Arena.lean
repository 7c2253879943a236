import SymbolicAlgebra.ParseTree.Arena
import SymbolicAlgebra.Proofs.ParseTree.Entries

/-!
# Trees in arrays

Nodes that are added below each other, every one before those below it and before its later
siblings, stand in the array in the order of the entries of the trees. Their spans are still those
that they were added with. Widening them from the last node to the first gives every node the span
that its tree has, since its children are widened before it is: they have greater numbers.
-/

namespace SymbolicAlgebra.ParseTree

/-- Adding nodes for the trees in turn below a parent, each before the nodes below it, leads from
one array to another. -/
inductive Grows : Arena → Option Nat → List ParseTree → Arena → Prop
  | nil (nodes : Arena) (parent : Option Nat) : Grows nodes parent [] nodes
  | leaf {nodes after : Arena} {parent : Option Nat} {token : Token} {trees : List ParseTree} :
    Grows (nodes.add parent (.terminal token.terminal) (some token.lexeme) token.span) parent
      trees after →
    Grows nodes parent (leaf token :: trees) after
  | node {nodes between after : Arena} {parent : Option Nat} {name : String} {home : Nat}
    {children trees : List ParseTree} :
    Grows (nodes.add parent (.nonterminal name) none (.point home)) (some nodes.size)
      children between →
    Grows between parent trees after →
    Grows nodes parent (ofChildren name home children :: trees) after

/-- Trees are added after trees. -/
theorem Grows.append {nodes between after : Arena} {parent : Option Nat}
    {trees more : List ParseTree} (h : Grows nodes parent trees between)
    (hmore : Grows between parent more after) :
    Grows nodes parent (trees ++ more) after := by
  induction h with
  | nil => exact hmore
  | leaf _ ih => exact .leaf (ih hmore)
  | node hbelow _ _ ih => exact .node hbelow (ih hmore)

/-- The nodes of trees in a row as they are added, with empty spans above the leaves. -/
inductive Raw : Option Nat → Nat → List ParseTree → List Node → Prop
  | nil (parent : Option Nat) (id : Nat) : Raw parent id [] []
  | leaf {parent : Option Nat} {id : Nat} {token : Token} {trees : List ParseTree}
    {rest : List Node} :
    Raw parent (id + 1) trees rest →
    Raw parent id (leaf token :: trees)
      (⟨.terminal token.terminal, some token.lexeme, token.span, parent, []⟩ :: rest)
  | node {parent : Option Nat} {id home : Nat} {name : String} {children trees : List ParseTree}
    {below rest : List Node} :
    Raw (some id) (id + 1) children below → Raw parent (id + 1 + below.length) trees rest →
    Raw parent id (ofChildren name home children :: trees)
      (⟨.nonterminal name, none, .point home, parent, idsFrom (id + 1) children⟩ :: (below ++ rest))

/-- The trees have as many nodes in the array as they have. -/
theorem Raw.length {parent : Option Nat} {id : Nat} {trees : List ParseTree} {added : List Node}
    (h : Raw parent id trees added) : added.length = sizeList trees := by
  induction h with
  | nil => rw [sizeList]; rfl
  | leaf _ ih =>
    rw [sizeList, size, List.length_cons, ih]
    omega
  | node _ _ ihbelow ih =>
    rw [sizeList, ofChildren, size, List.length_cons, List.length_append, ihbelow, ih]
    omega

/-- A node among the first of two lists is changed there. -/
theorem modify_append_left {before after : List Node} {f : Node → Node} {id : Nat}
    (h : id < before.length) :
    (before ++ after).modify id f = before.modify id f ++ after := by
  induction before generalizing id with
  | nil => exact (Nat.not_lt_zero id h).elim
  | cons node before ih =>
    cases id with
    | zero => rfl
    | succ id => simp only [List.cons_append, List.modify_succ_cons, ih (Nat.lt_of_succ_lt_succ h)]

/-- The node behind a list is changed there. -/
theorem modify_length {before : List Node} {id : Nat} (h : before.length = id) (node : Node)
    (after : List Node) (f : Node → Node) :
    (before ++ node :: after).modify id f = before ++ f node :: after := by
  subst h
  induction before with
  | nil => rfl
  | cons first before ih =>
    simp only [List.cons_append, List.length_cons, List.modify_succ_cons, ih]

/-- Puts numbers behind those of the children of a node. -/
def withChildren (nodes : List Node) (parent : Option Nat) (ids : List Nat) : List Node :=
  match parent with
  | none => nodes
  | some up => nodes.modify up fun node => { node with childIds := node.childIds ++ ids }

/-- Putting no numbers behind those of children changes nothing. -/
theorem withChildren_nil (nodes : List Node) (parent : Option Nat) :
    withChildren nodes parent [] = nodes := by
  cases parent with
  | none => rfl
  | some up =>
    simp only [withChildren, List.append_nil]
    exact List.modify_id up nodes

/-- Putting numbers behind those of children adds no nodes. -/
theorem length_withChildren (nodes : List Node) (parent : Option Nat) (ids : List Nat) :
    (withChildren nodes parent ids).length = nodes.length := by
  cases parent with
  | none => rfl
  | some up => exact List.length_modify ..

/-- The numbers of the children of a node are kept where it stands. -/
theorem withChildren_append {nodes : List Node} {parent : Option Nat}
    (h : ∀ up ∈ parent, up < nodes.length) (ids : List Nat) (more : List Node) :
    withChildren (nodes ++ more) parent ids = withChildren nodes parent ids ++ more := by
  cases parent with
  | none => rfl
  | some up => exact modify_append_left (h up rfl)

/-- Numbers are put behind those of children in turn. -/
theorem withChildren_withChildren (nodes : List Node) (parent : Option Nat) (ids more : List Nat) :
    withChildren (withChildren nodes parent ids) parent more =
      withChildren nodes parent (ids ++ more) := by
  cases parent with
  | none => rfl
  | some up =>
    rw [withChildren, withChildren, List.modify_modify_eq, withChildren]
    congr 1
    funext node
    simp only [Function.comp, List.append_assoc]

/-- A node that is added comes last, and its number comes last among the children of its parent. -/
theorem toList_add {nodes : Arena} {parent : Option Nat} (h : ∀ up ∈ parent, up < nodes.size)
    (symbol : Symbol) (lexeme? : Option String) (span : Text.Span) :
    (nodes.add parent symbol lexeme? span).toList =
      withChildren nodes.toList parent [nodes.size] ++ [⟨symbol, lexeme?, span, parent, []⟩] := by
  cases parent with
  | none => exact Array.toList_push
  | some up =>
    rw [Arena.add, Array.toList_modify, Array.toList_push]
    exact modify_append_left (h up rfl)

/-- Adding a node makes one more. -/
theorem size_add (nodes : Arena) (parent : Option Nat) (symbol : Symbol) (lexeme? : Option String)
    (span : Text.Span) : (nodes.add parent symbol lexeme? span).size = nodes.size + 1 := by
  cases parent with
  | none => exact Array.size_push _
  | some up => rw [Arena.add, Array.size_modify, Array.size_push]

/-- What is added for trees are their nodes, behind all others, and their numbers behind those of
the parent's other children. -/
theorem Grows.raw {nodes after : Arena} {parent : Option Nat} {trees : List ParseTree}
    (h : Grows nodes parent trees after) (hparent : ∀ up ∈ parent, up < nodes.size) :
    ∃ added, Raw parent nodes.size trees added ∧
      after.toList = withChildren nodes.toList parent (idsFrom nodes.size trees) ++ added := by
  induction h with
  | nil nodes parent =>
    refine ⟨[], .nil parent _, ?_⟩
    rw [idsFrom, withChildren_nil, List.append_nil]
  | @leaf nodes after parent token trees _ ih =>
    have hsize := size_add nodes parent (.terminal token.terminal) (some token.lexeme) token.span
    obtain ⟨added, hraw, hafter⟩ := ih fun up hup => by
      have := hparent up hup
      omega
    rw [hsize] at hraw hafter
    refine ⟨_, .leaf hraw, ?_⟩
    rw [hafter, toList_add hparent, withChildren_append, withChildren_withChildren,
      List.append_assoc, idsFrom, size]
    · rfl
    · simpa only [length_withChildren, Array.length_toList] using hparent
  | @node nodes between after parent name home children trees _ _ ihbelow ih =>
    have hsize := size_add nodes parent (.nonterminal name) none (.point home)
    have hlength : (withChildren nodes.toList parent [nodes.size]).length = nodes.size := by
      rw [length_withChildren, Array.length_toList]
    -- Below the node, whose children are counted on from it
    obtain ⟨below, hrawBelow, hbetween⟩ := ihbelow fun up hup => by
      obtain rfl : nodes.size = up := Option.some.inj hup
      omega
    rw [hsize] at hrawBelow hbetween
    rw [toList_add hparent, withChildren, modify_length hlength] at hbetween
    -- Behind the node, below the same parent
    have hsizeBetween : between.size = nodes.size + 1 + below.length := by
      rw [← Array.length_toList, hbetween, List.length_append, List.length_append, hlength]
      rfl
    obtain ⟨rest, hrawRest, hafter⟩ := ih fun up hup => by
      have := hparent up hup
      omega
    rw [hsizeBetween] at hrawRest hafter
    refine ⟨_, .node hrawBelow hrawRest, ?_⟩
    have hplace :
        nodes.size + (ofChildren name home children).size = nodes.size + 1 + below.length := by
      rw [hrawBelow.length, ofChildren, size]
      omega
    rw [hafter, hbetween, List.append_assoc, withChildren_append, withChildren_withChildren,
      idsFrom, hplace]
    · simp
    · simpa only [hlength] using hparent

/-- Widens the span of a node of a list to cover its children. -/
def widenAt (nodes : List Node) (id : Nat) : List Node :=
  nodes.modify id fun node =>
    let spans := node.childIds.filterMap fun child => nodes[child]?.map Node.span
    { node with span := .cover node.span spans }

/-- Widening spans in an array widens them in its list. -/
theorem toList_foldl_widen (ids : List Nat) (nodes : Arena) :
    (ids.foldl Arena.widen nodes).toList = ids.foldl widenAt nodes.toList := by
  induction ids generalizing nodes with
  | nil => rfl
  | cons id ids ih =>
    rw [List.foldl_cons, List.foldl_cons, ih, Arena.widen, Array.toList_modify]
    simp only [widenAt, Array.getElem?_toList]

/-- The entries of trees in a row below a parent, the first of which has number `id`. -/
def rows (parent : Option Nat) (id : Nat) : List ParseTree → List Entry
  | [] => []
  | tree :: trees => entriesFrom parent id [] tree ++ rows parent (id + tree.size) trees

/-- The entries of the trees below a node are theirs in a row. -/
theorem entriesListFrom_eq_rows (parent id : Nat) (trees : List ParseTree) :
    entriesListFrom parent id [] trees = rows (some parent) id trees := by
  induction trees generalizing id with
  | nil => rw [entriesListFrom, rows]
  | cons tree trees ih => rw [entriesListFrom, entriesFrom_eq_append, ih, rows]

/-- The spans found under the numbers of trees in a row are theirs. -/
theorem filterMap_span_idsFrom (parent : Option Nat) (trees : List ParseTree) {id : Nat}
    (before : List Node) (hbefore : before.length = id) (after : List Node) :
    ((idsFrom id trees).filterMap fun child =>
      (before ++ ((rows parent id trees).map Entry.node ++ after))[child]?.map Node.span) =
        trees.map span := by
  induction trees generalizing id before with
  | nil => rfl
  | cons tree trees ih =>
    have hhead :
        ∃ childIds rest, entriesFrom parent id [] tree = ⟨tree, parent, childIds⟩ :: rest := by
      cases tree with
      | leaf token => exact ⟨_, _, by rw [entriesFrom]⟩
      | node name span children => exact ⟨_, _, by rw [entriesFrom]⟩
    have hlength :
        (before ++ (entriesFrom parent id [] tree).map Entry.node).length = id + tree.size := by
      rw [List.length_append, List.length_map, length_entriesFrom, hbefore]
    have hrest := ih _ hlength
    simp only [List.append_assoc] at hrest
    rw [idsFrom, rows, List.map_append, List.append_assoc, List.filterMap_cons_some, hrest,
      List.map_cons]
    obtain ⟨childIds, rest, hentries⟩ := hhead
    rw [hentries, List.map_cons, List.cons_append, ← hbefore,
      List.getElem?_append_right (Nat.le_refl _), Nat.sub_self]
    rfl

/-- Widening the spans of added nodes from the last to the first gives the entries of their
trees. -/
theorem Raw.widened {parent : Option Nat} {id : Nat} {trees : List ParseTree} {added : List Node}
    (h : Raw parent id trees added) (before : List Node) (hbefore : before.length = id)
    (after : List Node) :
    (List.range' id added.length).reverse.foldl widenAt (before ++ (added ++ after)) =
      before ++ ((rows parent id trees).map Entry.node ++ after) := by
  induction h generalizing before after with
  | nil => rfl
  | @leaf parent id token trees rest _ ih =>
    have hrest := ih
      (before ++ [⟨.terminal token.terminal, some token.lexeme, token.span, parent, []⟩])
      (by rw [List.length_append, hbefore]; rfl) after
    rw [List.append_assoc, List.append_assoc] at hrest
    rw [List.length_cons, List.range'_succ, List.reverse_cons, List.foldl_append, List.cons_append]
    rw [List.singleton_append] at hrest
    rw [hrest, List.foldl_cons, List.foldl_nil, widenAt, List.singleton_append,
      modify_length hbefore, rows, entriesFrom, size]
    rfl
  | @node parent id home name children trees below rest hrawBelow _ ihbelow ih =>
    let root : Node := ⟨.nonterminal name, none, .point home, parent, idsFrom (id + 1) children⟩
    -- The trees behind the node are widened first, then those below it, then the node
    have hrest := ih (before ++ root :: below) (by simp [hbefore]; omega) after
    have hlength : (before ++ [root]).length = id + 1 := by simp [hbefore]
    have hbelow := ihbelow (before ++ [root]) hlength
      ((rows parent (id + 1 + below.length) trees).map Entry.node ++ after)
    have hspans := filterMap_span_idsFrom (some id) children (before ++ [root]) hlength
      ((rows parent (id + 1 + below.length) trees).map Entry.node ++ after)
    simp only [List.append_assoc, List.cons_append, List.nil_append] at hrest hbelow hspans
    have hplace : id + (ofChildren name home children).size = id + 1 + below.length := by
      rw [hrawBelow.length, ofChildren, size]
      omega
    rw [List.length_cons, List.length_append, List.range'_succ, List.reverse_cons,
      ← List.range'_append_1, List.reverse_append, List.foldl_append, List.foldl_append]
    simp only [List.append_assoc, List.cons_append]
    rw [hrest, hbelow, List.foldl_cons, List.foldl_nil, widenAt, modify_length hbefore, rows,
      hplace, ofChildren, entriesFrom, entriesListFrom_eq_rows]
    simp only [root, hspans, List.map_append, List.map_cons, List.cons_append, List.append_assoc]
    rfl

/-- What is grown for a tree alone is its array, once the spans are widened. -/
theorem Grows.finishSpans {tree : ParseTree} {nodes : Arena} (h : Grows #[] none [tree] nodes) :
    nodes.finishSpans = tree.arena := by
  obtain ⟨added, hraw, hnodes⟩ := h.raw fun up hup => by cases hup
  have hwidened := hraw.widened [] rfl []
  rw [withChildren, List.nil_append] at hnodes
  rw [List.append_nil, List.nil_append, rows, rows, List.append_nil, List.append_nil] at hwidened
  apply Array.toList_inj.mp
  rw [Arena.finishSpans, toList_foldl_widen, ← Array.length_toList, hnodes, List.range_eq_range']
  exact hwidened

end SymbolicAlgebra.ParseTree
