import SymbolicAlgebra.Expr.Walk
import SymbolicAlgebra.Proofs.Exclusion.Identity
import SymbolicAlgebra.Proofs.Expr.Height

/-!
# Walks and recursion

A walk with a stack visits the occurrences of an expression in the order in which a recursion would list
them: those below a node from left to right, and then the node. What carries the proof is where the node
that was visited last can stand: not below the top of the stack when the top is reached for the first
time, so that it cannot be taken for the top's last child, and on this child when the top is reached again.
-/

namespace SymbolicAlgebra

variable {α : Type}

namespace Expr

/-- The expression at a place, if there is one. -/
def at? (e : Expr α) : List Nat → Option (Expr α)
  | [] => some e
  | i :: place => (at? e place).bind (·.children[i]?)

/-- A place in a child is one in the expression. -/
theorem at?_append_singleton (e : Expr α) (place : List Nat) (i : Nat) :
    e.at? (place ++ [i]) = e.children[i]?.bind (·.at? place) := by
  induction place with
  | nil => cases h : e.children[i]? <;> simp [at?, h]
  | cons j place ih => rw [List.cons_append, at?, ih, Option.bind_assoc]; rfl

/-- The nodes of the expressions of a list are those of its members in a row. -/
theorem postOrderListOnto_eq_flatMap (es : List (Expr α)) :
    postOrderListOnto [] es = es.flatMap postOrder := by
  induction es with
  | nil => rfl
  | cons e es ih => rw [postOrderListOnto, postOrderOnto_eq, ih, List.flatMap_cons, postOrder]

/-- The nodes of an expression are those of its children from left to right, and then the root. -/
theorem postOrder_eq (e : Expr α) : e.postOrder = e.children.flatMap postOrder ++ [e] := by
  cases e with
  | sum as => rw [postOrder, postOrderOnto, postOrderListOnto_eq, postOrderListOnto_eq_flatMap, children]
  | product c n d =>
    rw [postOrder, postOrderOnto, postOrderListOnto_eq _ n, postOrderListOnto_eq [_] d,
      postOrderListOnto_eq_flatMap, postOrderListOnto_eq_flatMap, children, List.flatMap_append,
      List.append_assoc]
  | power a b =>
    rw [postOrder, postOrderOnto, postOrderOnto_eq _ a, postOrderOnto_eq [_] b]
    simp [children, postOrder]
  | log a b =>
    rw [postOrder, postOrderOnto, postOrderOnto_eq _ a, postOrderOnto_eq [_] b]
    simp [children, postOrder]
  | trig f a =>
    rw [postOrder, postOrderOnto, postOrderOnto_eq [_] a]
    simp [children, postOrder]
  | var x => rfl
  | number n => rfl

/-- Beside the root the number of nodes is the sum of those of the children. -/
theorem size_eq_sum (e : Expr α) : e.size = (e.children.map size).sum + 1 := by
  have hlist (es : List (Expr α)) : sizeList es = (es.map size).sum := by
    induction es with
    | nil => rfl
    | cons e es ih => rw [sizeList, ih, List.map_cons, List.sum_cons]
  rw [size_eq_sizeList_children, hlist]

/-- The levels of the deepest expression of a list are the most that any of them has. -/
theorem depthList_eq_highest (es : List (Expr α)) : depthList es = highest depth es := by
  induction es with
  | nil => rfl
  | cons e es ih => rw [depthList, ih, highest_cons]

/-- There is one level more than in the deepest child. -/
theorem depth_eq_highest (e : Expr α) : e.depth = highest depth e.children + 1 := by
  cases e with
  | sum as => rw [depth, depthList_eq_highest, children]
  | product c n d => rw [depth, depthList_eq_highest, depthList_eq_highest, children, highest_append]
  | power a b => rw [depth, children, highest_cons, highest_singleton]
  | log a b => rw [depth, children, highest_cons, highest_singleton]
  | trig f a => rw [depth, children, highest_singleton]
  | var x => rfl
  | number n => rfl

namespace Occurrence

/-- An occurrence right below is a child at its number. -/
theorem mem_children {o c : Occurrence α} :
    c ∈ o.children ↔ ∃ i, o.expr.children[i]? = some c.expr ∧ c.place = i :: o.place := by
  rw [children, List.mem_map]
  constructor
  · rintro ⟨⟨e, i⟩, hmem, rfl⟩
    exact ⟨i, List.mem_zipIdx_iff_getElem?.mp hmem, rfl⟩
  · rintro ⟨i, hi, hplace⟩
    refine ⟨(c.expr, i), List.mem_zipIdx_iff_getElem?.mpr hi, ?_⟩
    obtain ⟨place, e⟩ := c
    cases hplace
    rfl

/-- An occurrence right below has fewer nodes. -/
theorem size_lt_of_mem_children {o c : Occurrence α} (h : c ∈ o.children) :
    c.expr.size < o.expr.size := by
  refine Expr.size_lt_of_mem_children ?_
  rw [← map_expr_children]
  exact List.mem_map_of_mem h

/-- An occurrence and those below it, as a recursion lists them. -/
def listed (o : Occurrence α) : List (Occurrence α) :=
  o.children.attach.flatMap (fun c => listed c.1) ++ [o]
termination_by o.expr.size
decreasing_by exact size_lt_of_mem_children c.2

/-- What is below an occurrence is listed from left to right, and then the occurrence. -/
theorem listed_eq (o : Occurrence α) : o.listed = o.children.flatMap listed ++ [o] := by
  rw [listed, List.flatMap_subtype (g := listed) (fun _ _ => rfl), List.unattach_attach]

/-- The expressions that are listed are the nodes. -/
theorem map_expr_listed (o : Occurrence α) : o.listed.map expr = o.expr.postOrder := by
  have ih (c : Occurrence α) (hc : c ∈ o.children) : c.listed.map expr = c.expr.postOrder :=
    map_expr_listed c
  rw [listed_eq, postOrder_eq, ← map_expr_children, List.map_append, List.map_flatMap,
    List.flatMap_map, List.flatMap_congr ih]
  rfl
termination_by o.expr.size
decreasing_by exact size_lt_of_mem_children hc

/-- All that stands at a place in an occurrence is listed. -/
theorem mem_listed {o x : Occurrence α} :
    x ∈ o.listed ↔ ∃ place, x.place = place ++ o.place ∧ o.expr.at? place = some x.expr := by
  rw [listed_eq, List.mem_append, List.mem_flatMap, List.mem_singleton]
  constructor
  · rintro (⟨c, hc, hx⟩ | rfl)
    · obtain ⟨place, hplace, hat⟩ := mem_listed.mp hx
      obtain ⟨i, hi, hstart⟩ := mem_children.mp hc
      refine ⟨place ++ [i], ?_, ?_⟩
      · rw [hplace, hstart, List.append_assoc, List.singleton_append]
      · rw [at?_append_singleton, hi]
        exact hat
    · exact ⟨[], rfl, rfl⟩
  · rintro ⟨place, hplace, hat⟩
    obtain rfl | ⟨place, i, rfl⟩ := List.eq_nil_or_concat' place
    · obtain ⟨xplace, e⟩ := x
      obtain ⟨oplace, e'⟩ := o
      cases hplace
      cases hat
      exact .inr rfl
    · rw [at?_append_singleton, Option.bind_eq_some_iff] at hat
      obtain ⟨e, he, hat⟩ := hat
      have hc : (⟨i :: o.place, e⟩ : Occurrence α) ∈ o.children := mem_children.mpr ⟨i, he, rfl⟩
      refine .inl ⟨_, hc, mem_listed.mpr ⟨place, ?_, hat⟩⟩
      rw [hplace, List.append_assoc, List.singleton_append]
termination_by o.expr.size
decreasing_by all_goals exact size_lt_of_mem_children hc

/-- The occurrences right below stand at different places. -/
theorem nodup_place_children (o : Occurrence α) : (o.children.map place).Nodup := by
  have hplaces : o.children.map place =
      (List.range' 0 o.expr.children.length).map (· :: o.place) := by
    rw [children, List.map_map, ← List.zipIdx_map_snd 0 o.expr.children, List.map_map]
    rfl
  rw [hplaces]
  exact (List.nodup_range' 1).map fun i j hij => (List.cons.inj hij).1

/-- No place is listed twice. -/
theorem nodup_place_listed (o : Occurrence α) : (o.listed.map place).Nodup := by
  have ih (c : Occurrence α) (hc : c ∈ o.children) : (c.listed.map place).Nodup :=
    nodup_place_listed c
  have hbelow {c x : Occurrence α} (hc : c ∈ o.children) (hx : x ∈ c.listed) :
      ∃ front, x.place = front ++ c.place ∧ c.place.length = o.place.length + 1 := by
    obtain ⟨front, hfront, -⟩ := mem_listed.mp hx
    obtain ⟨i, -, hstart⟩ := mem_children.mp hc
    exact ⟨front, hfront, by rw [hstart, List.length_cons]⟩
  rw [listed_eq, List.map_append, List.map_flatMap, List.nodup_append]
  refine ⟨List.nodup_flatMap.mpr ⟨ih, ?_⟩, List.nodup_singleton _, ?_⟩
  · refine (List.pairwise_map.mp o.nodup_place_children).imp_of_mem ?_
    intro c d hc hd hne _ hfirst hsecond
    obtain ⟨x, hx, rfl⟩ := List.mem_map.mp hfirst
    obtain ⟨y, hy, hsame⟩ := List.mem_map.mp hsecond
    obtain ⟨front, hfront, hlength⟩ := hbelow hc hx
    obtain ⟨front', hfront', hlength'⟩ := hbelow hd hy
    rw [hfront, hfront'] at hsame
    exact hne (List.append_inj_right' hsame (hlength'.trans hlength.symm)).symm
  · intro _ hfirst _ ho hsame
    obtain ⟨c, hc, hfirst⟩ := List.mem_flatMap.mp hfirst
    obtain ⟨x, hx, rfl⟩ := List.mem_map.mp hfirst
    obtain ⟨front, hfront, hlength⟩ := hbelow hc hx
    rw [List.map_singleton, List.mem_singleton] at ho
    have := congrArg List.length (hfront.symm.trans (hsame.trans ho))
    rw [List.length_append] at this
    omega
termination_by o.expr.size
decreasing_by exact size_lt_of_mem_children hc

/-- The node that was visited last is not below the occurrence. -/
def Fresh (last? : Option (Occurrence α)) (o : Occurrence α) : Prop :=
  ∀ last ∈ last?, ∀ front i, last.place ≠ front ++ i :: o.place

/-- What is not below an occurrence is not below its children. -/
theorem Fresh.child {last? : Option (Occurrence α)} {o c : Occurrence α} (h : o.Fresh last?)
    (hc : c ∈ o.children) : c.Fresh last? := by
  intro last hlast front i hplace
  obtain ⟨j, -, hstart⟩ := mem_children.mp hc
  refine h last hlast (front ++ [i]) j ?_
  rw [hplace, hstart, List.append_assoc, List.singleton_append]

/-- No child of an occurrence is below another one. -/
theorem fresh_sibling {o c d : Occurrence α} (hc : c ∈ o.children) (hd : d ∈ o.children) :
    d.Fresh (some c) := by
  rintro _ ⟨⟩ front i hplace
  obtain ⟨j, -, hc⟩ := mem_children.mp hc
  obtain ⟨k, -, hd⟩ := mem_children.mp hd
  have := congrArg List.length hplace
  rw [hc, hd, List.length_append, List.length_cons, List.length_cons, List.length_cons] at this
  omega

/-- The turn of an occurrence does not come before anything below it was visited. -/
theorem Fresh.isNext_iff {last? : Option (Occurrence α)} {o : Occurrence α} (h : o.Fresh last?) :
    o.isNext last? = true ↔ o.children = [] := by
  constructor
  · intro hturn
    cases hlast : o.children.getLast? with
    | none => exact List.getLast?_eq_none_iff.mp hlast
    | some child =>
      obtain ⟨i, -, hstart⟩ := mem_children.mp (List.mem_of_getLast? hlast)
      rw [isNext, hlast, Option.any_eq_true] at hturn
      obtain ⟨last, hvisited, hsame⟩ := hturn
      exact absurd ((beq_iff_eq.mp hsame).trans hstart) (h last hvisited [] i)
  · intro hleaf
    rw [isNext, hleaf]
    rfl

end Occurrence

namespace Walk

variable {o : Occurrence α} {stack : List (Occurrence α)} {last? : Option (Occurrence α)}

/-- A walk without a next occurrence has come to its end. -/
theorem occurrences_of_none {walk : Walk α} (h : walk.next? = none) : walk.occurrences = [] := by
  rw [occurrences]
  split
  · rfl
  · rename_i hsome
    cases h.symm.trans hsome

/-- The next occurrence of a walk comes first, and then those of the walk after it. -/
theorem occurrences_of_some {walk after : Walk α} (h : walk.next? = some (o, after)) :
    walk.occurrences = o :: after.occurrences := by
  rw [occurrences]
  split
  · rename_i hnone
    cases hnone.symm.trans h
  · rename_i hsome
    cases hsome.symm.trans h
    rfl

/-- Nothing comes after the end of the stack. -/
theorem occurrences_nil : (⟨[], last?⟩ : Walk α).occurrences = [] :=
  occurrences_of_none (by rw [next?])

/-- An occurrence whose turn has come is visited. -/
theorem occurrences_visit (h : o.isNext last? = true) :
    (⟨o :: stack, last?⟩ : Walk α).occurrences = o :: (⟨stack, some o⟩ : Walk α).occurrences :=
  occurrences_of_some (by rw [next?, if_pos h])

/-- Before the turn of an occurrence come its children. -/
theorem occurrences_descend (h : o.isNext last? = false) :
    (⟨o :: stack, last?⟩ : Walk α).occurrences =
      (⟨o.children ++ o :: stack, last?⟩ : Walk α).occurrences := by
  have hsame : next? ⟨o :: stack, last?⟩ = next? ⟨o.children ++ o :: stack, last?⟩ := by
    rw [next?, if_neg (Bool.eq_false_iff.mp h)]
  cases hnext : next? ⟨o.children ++ o :: stack, last?⟩ with
  | none => rw [occurrences_of_none hnext, occurrences_of_none (hsame.trans hnext)]
  | some found => rw [occurrences_of_some hnext, occurrences_of_some (hsame.trans hnext)]

/-- A list of occurrences, none of them below another one, is visited in a row if each of them is
visited as it is listed. -/
theorem occurrences_append {os : List (Occurrence α)}
    (hvisit : ∀ o ∈ os, ∀ stack last?, o.Fresh last? →
      (⟨o :: stack, last?⟩ : Walk α).occurrences =
        o.listed ++ (⟨stack, some o⟩ : Walk α).occurrences)
    (hapart : ∀ o ∈ os, ∀ o' ∈ os, o'.Fresh (some o)) (hfresh : ∀ o ∈ os, o.Fresh last?) :
    (⟨os ++ stack, last?⟩ : Walk α).occurrences =
      os.flatMap Occurrence.listed ++ (⟨stack, os.getLast?.or last?⟩ : Walk α).occurrences := by
  induction os generalizing last? with
  | nil => rfl
  | cons o os ih =>
    have hrest := ih (fun o' ho' => hvisit o' (List.mem_cons_of_mem o ho'))
      (fun o' ho' o'' ho'' => hapart o' (List.mem_cons_of_mem o ho') o'' (List.mem_cons_of_mem o ho''))
      (fun o' ho' => hapart o List.mem_cons_self o' (List.mem_cons_of_mem o ho'))
    rw [List.cons_append, hvisit o List.mem_cons_self _ _ (hfresh o List.mem_cons_self), hrest,
      List.flatMap_cons, List.append_assoc, getLast?_cons_or]

/-- An occurrence on top of the stack is visited with all that is below it, as it is listed, if nothing
below it was visited last. -/
theorem occurrences_cons (o : Occurrence α) (stack : List (Occurrence α))
    (last? : Option (Occurrence α)) (h : o.Fresh last?) :
    (⟨o :: stack, last?⟩ : Walk α).occurrences =
      o.listed ++ (⟨stack, some o⟩ : Walk α).occurrences := by
  have ih (c : Occurrence α) (hc : c ∈ o.children) (stack : List (Occurrence α))
      (last? : Option (Occurrence α)) (h : c.Fresh last?) :
      (⟨c :: stack, last?⟩ : Walk α).occurrences =
        c.listed ++ (⟨stack, some c⟩ : Walk α).occurrences := occurrences_cons c stack last? h
  rw [Occurrence.listed_eq, List.append_assoc, List.singleton_append]
  cases hturn : o.isNext last? with
  | true =>
    -- nothing below was visited, so the turn has come for want of children
    rw [occurrences_visit hturn, h.isNext_iff.mp hturn, List.flatMap_nil, List.nil_append]
  | false =>
    -- the occurrence stays below its children on the stack, and is met again after the last of them
    rw [occurrences_descend hturn,
      occurrences_append ih (fun c hc d hd => Occurrence.fresh_sibling hc hd) fun c hc => h.child hc,
      occurrences_visit (isNext_getLast? hturn)]
termination_by o.expr.size
decreasing_by exact Occurrence.size_lt_of_mem_children hc

/-- A walk through an expression visits what a recursion lists. -/
theorem occurrences_ofExpr (e : Expr α) :
    (ofExpr e).occurrences = (Occurrence.root e).listed := by
  have hfresh : (Occurrence.root e).Fresh none := fun _ h => nomatch h
  rw [ofExpr, occurrences_cons _ _ _ hfresh, occurrences_nil, List.append_nil]

/-- A walk through an expression visits its nodes in post order. -/
theorem toList_ofExpr (e : Expr α) : (ofExpr e).toList = e.postOrder := by
  rw [toList, occurrences_ofExpr, Occurrence.map_expr_listed]
  rfl

/-- A walk through an expression visits what stands at its places. -/
theorem mem_occurrences_ofExpr {e : Expr α} {o : Occurrence α} :
    o ∈ (ofExpr e).occurrences ↔ e.at? o.place = some o.expr := by
  rw [occurrences_ofExpr, Occurrence.mem_listed]
  simp [Occurrence.root]

end Walk

/-- The nodes are the expressions that stand at the places. -/
theorem mem_postOrder_iff_at? {e x : Expr α} : x ∈ e.postOrder ↔ ∃ place, e.at? place = some x := by
  rw [← Walk.toList_ofExpr, Walk.toList, List.mem_map]
  constructor
  · rintro ⟨o, ho, rfl⟩
    exact ⟨o.place, Walk.mem_occurrences_ofExpr.mp ho⟩
  · rintro ⟨place, hat⟩
    exact ⟨⟨place, x⟩, Walk.mem_occurrences_ofExpr.mpr hat, rfl⟩

/-- A walk counts every node once. -/
theorem countNodes_eq (e : Expr α) : e.countNodes = e.size := by
  rw [countNodes, Walk.toList_ofExpr, length_postOrder]

/-- The levels end at a level if they end one level further up in all children. -/
theorem depth_le_succ_iff {e : Expr α} {n : Nat} :
    e.depth ≤ n + 1 ↔ ∀ c ∈ e.children, c.depth ≤ n := by
  rw [depth_eq_highest, Nat.add_le_add_iff_right, highest_le_iff]

/-- The deepest level is the largest among those found, and those at which the expressions on the stack
end. -/
theorem deepest_le_iff {found n : Nat} {stack : List (Expr α × Nat)} :
    deepest found stack ≤ n ↔ found ≤ n ∧ ∀ x ∈ stack, x.1.depth + x.2 ≤ n + 1 := by
  fun_induction deepest found stack with
  | case1 found => simp
  | case2 found e level stack ih =>
    have hlevel : e.depth + level ≤ n + 1 ↔
        level ≤ n ∧ ∀ c ∈ e.children, c.depth + (level + 1) ≤ n + 1 := by
      constructor
      · intro h
        have := e.one_le_depth
        have hbelow := depth_le_succ_iff.mp (show e.depth ≤ n - level + 1 by omega)
        exact ⟨by omega, fun c hc => by have := hbelow c hc; omega⟩
      · rintro ⟨hroot, hbelow⟩
        have := depth_le_succ_iff.mpr fun c hc => Nat.le_sub_of_add_le <|
          Nat.le_of_succ_le_succ (hbelow c hc)
        omega
    rw [ih, List.forall_mem_append, List.forall_mem_cons, hlevel, max_le_iff]
    simp only [List.mem_reverse, List.forall_mem_map]
    tauto

/-- A stack counts as many levels as a recursion. -/
theorem countLevels_eq (e : Expr α) : e.countLevels = e.depth :=
  eq_of_forall_ge_iff fun n => by
    rw [countLevels, deepest_le_iff, List.forall_mem_singleton]
    change 0 ≤ n ∧ e.depth + 1 ≤ n + 1 ↔ e.depth ≤ n
    omega

/-- An expression depends on the variables that stand at its places. -/
theorem dependsOn_iff_at? {e : Expr α} {name : String} :
    e.dependsOn name = true ↔ ∃ place, e.at? place = some (var name) := by
  rw [dependsOn, List.any_eq_true, ← mem_postOrder_iff_at?]
  constructor
  · rintro ⟨x, hx, hvar⟩
    cases x with
    | var found => rwa [← beq_iff_eq.mp hvar]
    | _ => cases hvar
  · exact fun h => ⟨_, h, beq_self_eq_true name⟩

end Expr

/-- A group that is added is stored in its normal form, unless one that counts as equal is there. -/
theorem Exclusions.exists_stored_of_mem [Scalar α] {groups : List (List (Clause α))}
    {group : List (Clause α)} (h : group ∈ groups) (x : Exclusions α) :
    ∃ stored ∈ (x.insertAll groups).groups,
      stored = normalGroup group ∨ (normalGroup group == stored) = true := by
  induction groups generalizing x with
  | nil => cases h
  | cons added groups ih =>
    obtain rfl | h := List.mem_cons.mp h
    · obtain ⟨stored, hstored, hsame⟩ : ∃ stored ∈ (x.insert group).groups,
          stored = normalGroup group ∨ (normalGroup group == stored) = true := by
        rw [Exclusions.insert]
        split
        · rename_i hcontains
          obtain ⟨stored, hstored, hsame⟩ := List.contains_iff_exists_mem_beq.mp hcontains
          exact ⟨stored, hstored, .inr hsame⟩
        · exact ⟨_, List.mem_append_right _ (List.mem_singleton_self _), .inl rfl⟩
      exact ⟨stored, mem_insertAll_of_mem hstored groups, hsame⟩
    · exact ih h (x.insert added)

namespace Expr

variable [Scalar α]

/-- A walk with a stack agrees with recursion over the expression. It visits the nodes of the children
from left to right and then the root: everything that stands at some place, and no place twice. So it
counts the nodes, no variable and no node that contributes an exclusion is missed, and the levels that are
counted with a stack are one more than those of the deepest child. -/
theorem walk_agrees_with_recursion (e : Expr α) :
    ((Walk.ofExpr e).toList = e.postOrder ∧ e.postOrder = e.children.flatMap postOrder ++ [e]) ∧
      (((Walk.ofExpr e).occurrences.map Occurrence.place).Nodup ∧
        ∀ o, o ∈ (Walk.ofExpr e).occurrences ↔ e.at? o.place = some o.expr) ∧
      (e.countNodes = e.size ∧ e.size = (e.children.map size).sum + 1) ∧
      (∀ name, (e.dependsOn name = true ↔ ∃ place, e.at? place = some (var name)) ∧
        (name ∈ e.variableNames ↔ ∃ place, e.at? place = some (var name))) ∧
      (Exclusions.collect e =
          .insertAll ((Walk.ofExpr e).toList.flatMap Exclusions.groupsOf) .empty ∧
        ∀ place x, e.at? place = some x → ∀ group ∈ Exclusions.groupsOf x,
          ∃ stored ∈ (Exclusions.collect e).groups, stored = Exclusions.normalGroup group ∨
            (Exclusions.normalGroup group == stored) = true) ∧
      e.countLevels = e.depth ∧ e.depth = highest depth e.children + 1 := by
  refine ⟨⟨Walk.toList_ofExpr e, postOrder_eq e⟩, ⟨?_, fun _ => Walk.mem_occurrences_ofExpr⟩,
    ⟨countNodes_eq e, size_eq_sum e⟩, fun name => ⟨dependsOn_iff_at?, ?_⟩,
    ⟨by rw [Walk.toList_ofExpr, Exclusions.collect], fun place x hat group hgroup => ?_⟩,
    countLevels_eq e, depth_eq_highest e⟩
  · rw [Walk.occurrences_ofExpr]
    exact Occurrence.nodup_place_listed _
  · rw [mem_variableNames, mem_postOrder_iff_at?]
  · have hx : x ∈ e.postOrder := mem_postOrder_iff_at?.mpr ⟨place, hat⟩
    exact Exclusions.exists_stored_of_mem (List.mem_flatMap.mpr ⟨x, hx, hgroup⟩) .empty

/-- A factor that stands twice is visited twice, and a sum of nothing is a leaf. -/
theorem walk_agrees_with_recursion_repeated :
    let e : Expr Float := product .one [var "x", var "x"] [sum []]
    (Walk.ofExpr e).toList = [var "x", var "x", sum [], e] ∧
      ⟨[0], var "x"⟩ ∈ (Walk.ofExpr e).occurrences ∧ ⟨[1], var "x"⟩ ∈ (Walk.ofExpr e).occurrences ∧
      e.countNodes = 4 ∧ e.dependsOn "x" = true ∧
      (∃ stored ∈ (Exclusions.collect e).groups,
        stored = Exclusions.normalGroup [.plain (sum []) .eq Scalar.zero] ∨
          (Exclusions.normalGroup [.plain (sum []) .eq Scalar.zero] == stored) = true) ∧
      e.countLevels = 2 := by
  intro e
  obtain ⟨⟨hlist, -⟩, ⟨-, hmem⟩, ⟨hcount, -⟩, hvars, ⟨-, hcollect⟩, hlevels, -⟩ :=
    walk_agrees_with_recursion e
  refine ⟨hlist, (hmem _).mpr rfl, (hmem _).mpr rfl, hcount, (hvars "x").1.mpr ⟨[0], rfl⟩, ?_, hlevels⟩
  exact hcollect [] e rfl _ List.mem_cons_self

end Expr

end SymbolicAlgebra
