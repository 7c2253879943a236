import Mathlib
import SymbolicAlgebra.ParseTree.Arena

/-!
# The numbers of nodes

Every tree below a node stands in the array of nodes under its own number, with the number of the
node above it and those of the trees below it. Going from a node to its children in turn meets the
nodes in the order of their numbers, and every node but the root is listed once among the children
of one node.
-/

namespace SymbolicAlgebra.ParseTree

mutual

/-- The nodes of a tree come before the rest. -/
theorem entriesFrom_eq_append (parent : Option Nat) (id : Nat) (rest : List Entry) :
    ∀ tree, entriesFrom parent id rest tree = entriesFrom parent id [] tree ++ rest
  | leaf token => by rw [entriesFrom, entriesFrom]; rfl
  | node name span children => by
    rw [entriesFrom, entriesFrom, entriesListFrom_eq_append id (id + 1) rest children]
    rfl

/-- The nodes of trees come before the rest. -/
theorem entriesListFrom_eq_append (parent id : Nat) (rest : List Entry) :
    ∀ trees, entriesListFrom parent id rest trees = entriesListFrom parent id [] trees ++ rest
  | [] => by rw [entriesListFrom, entriesListFrom]; rfl
  | tree :: trees => by
    rw [entriesListFrom, entriesListFrom, entriesFrom_eq_append,
      entriesListFrom_eq_append parent (id + tree.size) rest trees,
      entriesFrom_eq_append (some parent) id (entriesListFrom _ _ [] trees) tree,
      List.append_assoc]

end

mutual

/-- A tree has as many entries as nodes. -/
theorem length_entriesFrom (parent : Option Nat) (id : Nat) :
    ∀ tree, (entriesFrom parent id [] tree).length = tree.size
  | leaf token => by rw [entriesFrom, size]; rfl
  | node name span children => by
    rw [entriesFrom, size, List.length_cons, length_entriesListFrom, Nat.add_comm]

/-- Trees have as many entries as nodes. -/
theorem length_entriesListFrom (parent id : Nat) :
    ∀ trees, (entriesListFrom parent id [] trees).length = sizeList trees
  | [] => by rw [entriesListFrom, sizeList]; rfl
  | tree :: trees => by
    rw [entriesListFrom, entriesFrom_eq_append, sizeList, List.length_append, length_entriesFrom,
      length_entriesListFrom]

end

mutual

/-- A tree stands under its number, and so do the trees below it. -/
def Placed (nodes : Arena) (parent : Option Nat) (id : Nat) : ParseTree → Prop
  | leaf token => nodes[id]? = some (Entry.node ⟨leaf token, parent, []⟩)
  | node name span children =>
    nodes[id]? = some (Entry.node ⟨node name span children, parent, idsFrom (id + 1) children⟩) ∧
      PlacedList nodes id (id + 1) children

/-- The trees below a node stand under numbers in a row. -/
def PlacedList (nodes : Arena) (parent id : Nat) : List ParseTree → Prop
  | [] => True
  | tree :: trees =>
    Placed nodes (some parent) id tree ∧ PlacedList nodes parent (id + tree.size) trees

end

/-- From the nodes with these numbers down, each node before its children and these in turn, the
nodes are met in this order. -/
inductive Visits (nodes : Arena) : List Nat → List Nat → Prop
  | nil : Visits nodes [] []
  | cons {id : Nat} {node : Node} {ids below after : List Nat} :
    nodes[id]? = some node → Visits nodes node.childIds below → Visits nodes ids after →
    Visits nodes (id :: ids) (id :: (below ++ after))

mutual

/-- A tree whose nodes are among others at the right place stands there with all that is below
it. -/
theorem placed_of_entriesFrom (before after : List Entry) (parent : Option Nat) :
    ∀ tree, Placed
      ((before ++ entriesFrom parent before.length [] tree ++ after).map Entry.node).toArray
      parent before.length tree
  | leaf token => by
    rw [Placed, entriesFrom]
    simp
  | node name span children => by
    rw [Placed, entriesFrom]
    refine ⟨by simp, ?_⟩
    have := placedList_of_entriesListFrom (before ++ [⟨node name span children, parent,
      idsFrom (before.length + 1) children⟩]) after before.length children
    simpa using this

/-- Trees whose nodes are among others at the right place stand there with all that is below
them. -/
theorem placedList_of_entriesListFrom (before after : List Entry) (parent : Nat) :
    ∀ trees, PlacedList
      ((before ++ entriesListFrom parent before.length [] trees ++ after).map Entry.node).toArray
      parent before.length trees
  | [] => by rw [PlacedList]; trivial
  | tree :: trees => by
    rw [PlacedList, entriesListFrom, entriesFrom_eq_append]
    constructor
    · have := placed_of_entriesFrom before
        (entriesListFrom parent (before.length + tree.size) [] trees ++ after) (some parent) tree
      simpa using this
    · have := placedList_of_entriesListFrom
        (before ++ entriesFrom (some parent) before.length [] tree) after parent trees
      simpa [length_entriesFrom] using this

end

/-- All nodes of a tree stand in its array. -/
theorem placed_arena (tree : ParseTree) : Placed tree.arena none 0 tree := by
  have := placed_of_entriesFrom [] [] none tree
  simpa [arena, entries] using this

/-- A tree has as many nodes in its array as it has. -/
theorem size_arena (tree : ParseTree) : tree.arena.size = tree.size := by
  rw [arena, List.size_toArray, List.length_map, entries, length_entriesFrom]

/-- A tree that is placed is found under its number, with the numbers of its children. -/
theorem Placed.node {nodes : Arena} {parent : Option Nat} {id : Nat} {tree : ParseTree}
    (h : Placed nodes parent id tree) :
    nodes[id]? = some (Entry.node ⟨tree, parent, idsFrom (id + 1) tree.children⟩) := by
  cases tree with
  | leaf token => exact h
  | node name span children => exact h.1

/-- The children of a tree that is placed are placed. -/
theorem Placed.children {nodes : Arena} {parent : Option Nat} {id : Nat} {tree : ParseTree}
    (h : Placed nodes parent id tree) : PlacedList nodes id (id + 1) tree.children := by
  cases tree with
  | leaf token => trivial
  | node name span children => exact h.2

mutual

/-- From a tree that is placed down its nodes are met in the order of their numbers. -/
theorem Placed.visits {nodes : Arena} {parent : Option Nat} {id : Nat} :
    ∀ {tree : ParseTree}, Placed nodes parent id tree → ∀ {ids after : List Nat},
      Visits nodes ids after → Visits nodes (id :: ids) (List.range' id tree.size ++ after)
  | leaf token, h, ids, after, hafter => by
    rw [size]
    exact .cons h .nil hafter
  | node name span children, h, ids, after, hafter => by
    have hbelow := PlacedList.visits h.2
    rw [size, Nat.add_comm, List.range'_succ]
    exact .cons h.1 hbelow hafter

/-- From trees that are placed in a row down their nodes are met in the order of their numbers. -/
theorem PlacedList.visits {nodes : Arena} {parent id : Nat} :
    ∀ {trees : List ParseTree}, PlacedList nodes parent id trees →
      Visits nodes (idsFrom id trees) (List.range' id (sizeList trees))
  | [], _ => by
    rw [idsFrom, sizeList]
    exact .nil
  | tree :: trees, h => by
    rw [idsFrom, sizeList, ← List.range'_append_1]
    exact Placed.visits h.1 (PlacedList.visits h.2)

end

/-- A tree has a node. -/
theorem size_pos (tree : ParseTree) : 0 < tree.size := by
  cases tree with
  | leaf token => rw [size]; exact Nat.one_pos
  | node name span children => rw [size]; omega

/-- The numbers of trees in a row rise. -/
theorem idsFrom_rise (id : Nat) (trees : List ParseTree) :
    (∀ k ∈ idsFrom id trees, id ≤ k) ∧ (idsFrom id trees).Pairwise (· < ·) := by
  induction trees generalizing id with
  | nil => simp [idsFrom]
  | cons tree trees ih =>
    obtain ⟨hle, hrise⟩ := ih (id + tree.size)
    have hpos := tree.size_pos
    rw [idsFrom, List.forall_mem_cons, List.pairwise_cons]
    refine ⟨⟨Nat.le_refl id, fun k hk => ?_⟩, fun k hk => ?_, hrise⟩
    · have := hle k hk
      omega
    · have := hle k hk
      omega

/-- Trees in a row are found under their numbers, with the number of the node above them. -/
theorem PlacedList.map_idsFrom {nodes : Arena} {up id : Nat} {trees : List ParseTree}
    (h : PlacedList nodes up id trees) :
    (idsFrom id trees).map (fun child => nodes[child]?.map fun node => (node.symbol, node.parent)) =
      trees.map fun child => some (child.symbol, some up) := by
  induction trees generalizing id with
  | nil => rfl
  | cons tree trees ih =>
    rw [idsFrom, List.map_cons, List.map_cons, ih h.2, h.1.node]
    rfl

/-- The number belongs to a placed tree that is the top one of number `id`, or is listed among the
children of another placed tree. -/
def Found (nodes : Arena) (parent : Option Nat) (id k : Nat) : Prop :=
  ∃ tree above, Placed nodes above k tree ∧ ((k = id ∧ above = parent) ∨
    ∃ up upper parent', above = some up ∧ Placed nodes parent' up upper ∧
      k ∈ idsFrom (up + 1) upper.children)

mutual

/-- Every number up to the size of a placed tree belongs to a tree below it. -/
theorem Placed.found {nodes : Arena} {parent : Option Nat} {id : Nat} :
    ∀ {tree : ParseTree}, Placed nodes parent id tree →
      ∀ k, id ≤ k → k < id + tree.size → Found nodes parent id k
  | leaf token, h, k, hle, hlt => by
    rw [size] at hlt
    obtain rfl : k = id := by omega
    exact ⟨leaf token, parent, h, .inl ⟨rfl, rfl⟩⟩
  | .node name span children, h, k, hle, hlt => by
    rw [size] at hlt
    obtain rfl | hlt' := Nat.eq_or_lt_of_le hle
    · exact ⟨.node name span children, parent, h, .inl ⟨rfl, rfl⟩⟩
    · obtain ⟨tree, above, hplaced, hup⟩ :=
        PlacedList.found h.2 h (fun _ hk => hk) k hlt' (by omega)
      exact ⟨tree, above, hplaced, .inr hup⟩

/-- Every number up to the size of placed trees belongs to a tree below them. -/
theorem PlacedList.found {nodes : Arena} {up id : Nat} :
    ∀ {trees : List ParseTree}, PlacedList nodes up id trees →
      ∀ {upper : ParseTree} {parent : Option Nat}, Placed nodes parent up upper →
        idsFrom id trees ⊆ idsFrom (up + 1) upper.children →
        ∀ k, id ≤ k → k < id + sizeList trees →
          ∃ tree above, Placed nodes above k tree ∧ ∃ up upper parent', above = some up ∧
            Placed nodes parent' up upper ∧ k ∈ idsFrom (up + 1) upper.children
  | [], h, upper, parent, hupper, hsub, k, hle, hlt => by
    rw [sizeList] at hlt
    omega
  | tree :: trees, h, upper, parent, hupper, hsub, k, hle, hlt => by
    rw [sizeList] at hlt
    rw [idsFrom, List.cons_subset] at hsub
    by_cases hhere : k < id + tree.size
    · obtain ⟨sub, above, hplaced, ⟨rfl, rfl⟩ | hbelow⟩ := Placed.found h.1 k hle hhere
      · exact ⟨sub, some up, hplaced, up, upper, parent, rfl, hupper, hsub.1⟩
      · exact ⟨sub, above, hplaced, hbelow⟩
    · exact PlacedList.found h.2 hupper hsub.2 k (by omega) (by omega)

end

/-- Every node in the array of a tree belongs to the tree or to one below it. -/
theorem found_arena {tree : ParseTree} {id : Nat} {node : Node} (h : tree.arena[id]? = some node) :
    Found tree.arena none 0 id := by
  obtain ⟨hlt, -⟩ := Array.getElem?_eq_some_iff.mp h
  rw [size_arena] at hlt
  exact (placed_arena tree).found id (Nat.zero_le id) (by omega)

/-- How nodes refer to each other. -/
structure Arena.Numbered (nodes : Arena) : Prop where
  /-- The first node is without a parent, and no other. -/
  parent_eq_none_iff : ∀ (id : Nat) (node : Node),
    nodes[id]? = some node → (node.parent = none ↔ id = 0)
  /-- The numbers are those of the order in which nodes come before what is below them. -/
  visits : Visits nodes [0] (List.range nodes.size)
  /-- A node is listed once among the children of its parent. -/
  listed : ∀ (id : Nat) (node : Node), nodes[id]? = some node → id ≠ 0 →
    ∃ (up : Nat) (upper : Node), node.parent = some up ∧ nodes[up]? = some upper ∧
      upper.childIds.count id = 1
  /-- The nodes listed as children have the node as their parent. -/
  children : ∀ (id : Nat) (node : Node), nodes[id]? = some node →
    ∀ child ∈ node.childIds, ∃ below, nodes[child]? = some below ∧ below.parent = some id

/-- The nodes of every tree are numbered so. -/
theorem numbered_arena (tree : ParseTree) : tree.arena.Numbered := by
  refine ⟨fun id node h => ?_, ?_, fun id node h hne => ?_, fun id node h child hchild => ?_⟩
  · obtain ⟨sub, above, hsub, ⟨rfl, rfl⟩ | ⟨up, upper, parent, rfl, hupper, hmem⟩⟩ := found_arena h
    · cases h.symm.trans hsub.node
      exact iff_of_true rfl rfl
    · cases h.symm.trans hsub.node
      have := (idsFrom_rise _ _).1 id hmem
      exact iff_of_false (Option.some_ne_none up) (by omega)
  · have := (placed_arena tree).visits .nil
    rwa [List.append_nil, ← List.range_eq_range', ← size_arena] at this
  · obtain ⟨sub, above, hsub, ⟨rfl, rfl⟩ | ⟨up, upper, parent, rfl, hupper, hmem⟩⟩ := found_arena h
    · exact (hne rfl).elim
    · cases h.symm.trans hsub.node
      refine ⟨up, _, rfl, hupper.node, ?_⟩
      exact List.count_eq_one_of_mem ((idsFrom_rise _ _).2.imp Nat.ne_of_lt) hmem
  · obtain ⟨sub, above, hsub, -⟩ := found_arena h
    cases h.symm.trans hsub.node
    have hmem := List.mem_map_of_mem (f := fun child => tree.arena[child]?.map fun node =>
      (node.symbol, node.parent)) hchild
    rw [Entry.node, hsub.children.map_idsFrom] at hmem
    obtain ⟨below, -, hbelow⟩ := List.mem_map.mp hmem
    obtain ⟨found, hfound, hpair⟩ := Option.map_eq_some_iff.mp hbelow.symm
    exact ⟨found, hfound, (Prod.mk.inj hpair).2⟩

end SymbolicAlgebra.ParseTree
