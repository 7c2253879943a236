import SymbolicAlgebra.Proofs.Expr.Nodes
import SymbolicAlgebra.Proofs.Grammar.Expression
import SymbolicAlgebra.Proofs.ParseTree.Language
import SymbolicAlgebra.Proofs.Reduction.Settling
import SymbolicAlgebra.Expr.Reader
import SymbolicAlgebra.Scalar.Binary64

/-!
# The depth of what is read

While an expression is built its depth is tracked and not measured. The tracked number bounds the number of
levels if a constant together with its sign counts as one leaf. The sign of a constant is a product around it,
though, and this product is a level of its own that is not tracked: what is read can be one level deeper than
the limit, and is not deeper where no constant has a sign.
-/

namespace SymbolicAlgebra.Expr

section Levels

variable {α : Type}

/-- The expression is a constant with a coefficient. -/
def isSignedConstant : Expr α → Bool
  | product _ [number (.constant _)] [] => true
  | _ => false

/-- A product is a constant with a coefficient if a constant is its only factor. -/
theorem isSignedConstant_product {c : Coefficient α} {n d : List (Expr α)} :
    (product c n d).isSignedConstant = true ↔ ∃ k, n = [number (.constant k)] ∧ d = [] := by
  unfold isSignedConstant
  split
  · rename_i heq
    cases heq
    simp
  · rename_i hother
    refine iff_of_false nofun ?_
    rintro ⟨k, rfl, rfl⟩
    exact hother c k rfl

mutual

/-- The number of levels, where a constant with a coefficient is a leaf. -/
def levels : Expr α → Nat
  | sum as => levelsList as + 1
  | product c n d =>
    if isSignedConstant (product c n d) then 1 else max (levelsList n) (levelsList d) + 1
  | power a b => max (levels a) (levels b) + 1
  | log a b => max (levels a) (levels b) + 1
  | trig _ a => levels a + 1
  | var _ => 1
  | number _ => 1

/-- The number of levels of the deepest expression of a list. -/
def levelsList : List (Expr α) → Nat
  | [] => 0
  | e :: es => max (levels e) (levelsList es)

end

/-- Levels of a list are bounded by what bounds those of its members. -/
theorem levelsList_le_iff {es : List (Expr α)} {bound : Nat} :
    levelsList es ≤ bound ↔ ∀ e ∈ es, e.levels ≤ bound := by
  induction es with
  | nil => simp [levelsList]
  | cons e es ih => rw [levelsList, max_le_iff, ih, List.forall_mem_cons]

/-- A product has at most one level more than its factors. -/
theorem levels_product_le (c : Coefficient α) (n d : List (Expr α)) :
    (product c n d).levels ≤ max (levelsList n) (levelsList d) + 1 := by
  rw [levels]
  split <;> omega

/-- Whether a product is a constant with a coefficient does not depend on the coefficient. -/
theorem levels_product (c c' : Coefficient α) (n d : List (Expr α)) :
    (product c n d).levels = (product c' n d).levels := by
  have hsigned : (product c n d).isSignedConstant = (product c' n d).isSignedConstant := by
    rw [Bool.eq_iff_iff, isSignedConstant_product, isSignedConstant_product]
  rw [levels, levels, hsigned]

mutual

/-- The levels of constants with coefficients are the only ones that `levels` leaves out. -/
theorem depth_le_levels (e : Expr α) : e.depth ≤ e.levels + 1 := by
  cases e with
  | sum as =>
    have := depthList_le_levelsList as
    rw [depth, levels]
    omega
  | product c n d =>
    rw [depth, levels]
    split
    · rename_i hsigned
      obtain ⟨k, rfl, rfl⟩ := isSignedConstant_product.mp hsigned
      simp [depthList, depth]
    · have hn := depthList_le_levelsList n
      have hd := depthList_le_levelsList d
      omega
  | power a b =>
    have ha := depth_le_levels a
    have hb := depth_le_levels b
    rw [depth, levels]
    omega
  | log a b =>
    have ha := depth_le_levels a
    have hb := depth_le_levels b
    rw [depth, levels]
    omega
  | trig f a =>
    have ha := depth_le_levels a
    rw [depth, levels]
    omega
  | var x => simp [depth]
  | number v => simp [depth]

/-- The levels of constants with coefficients are the only ones that `levelsList` leaves out. -/
theorem depthList_le_levelsList (es : List (Expr α)) : depthList es ≤ levelsList es + 1 := by
  cases es with
  | nil => simp [depthList]
  | cons e es =>
    have he := depth_le_levels e
    have hes := depthList_le_levelsList es
    rw [depthList, levelsList]
    omega

end

mutual

/-- No level is left out where no constant has a coefficient. -/
theorem depth_eq_levels {e : Expr α} (h : e.Everywhere fun x => x.isSignedConstant = false) :
    e.depth = e.levels := by
  have hroot := h.root
  have below := (everywhere_iff.mp h).2
  cases e with
  | sum as =>
    have has : depthList as = levelsList as := depthList_eq_levelsList below
    rw [depth, levels, has]
  | product c n d =>
    rw [children, List.forall_mem_append] at below
    rw [depth, levels, if_neg (by simp [hroot]), depthList_eq_levelsList below.1,
      depthList_eq_levelsList below.2]
  | power a b =>
    rw [depth, levels, depth_eq_levels (below a (by simp [children])),
      depth_eq_levels (below b (by simp [children]))]
  | log a b =>
    rw [depth, levels, depth_eq_levels (below a (by simp [children])),
      depth_eq_levels (below b (by simp [children]))]
  | trig f a => rw [depth, levels, depth_eq_levels (below a (by simp [children]))]
  | var x => rw [depth, levels]
  | number v => rw [depth, levels]

/-- No level is left out where no constant has a coefficient. -/
theorem depthList_eq_levelsList {es : List (Expr α)}
    (h : ∀ e ∈ es, e.Everywhere fun x => x.isSignedConstant = false) :
    depthList es = levelsList es := by
  cases es with
  | nil => rfl
  | cons e es =>
    rw [List.forall_mem_cons] at h
    rw [depthList, levelsList, depth_eq_levels h.1, depthList_eq_levelsList h.2]

end

end Levels

section Tracking

variable {α : Type}

namespace Reading

/-- The numbers that go with a reading bound the levels of its expressions. -/
def Tracked : Reading α → Prop
  | .bare _ => True
  | .expr value depth => value.levels ≤ depth
  | .chain links => ∀ link ∈ links, link.operand.levels ≤ link.depth

/-- Every result that there may be has the property. -/
def Ensures {β : Type} (x : Except Failure β) (p : β → Prop) : Prop := ∀ b, x = .ok b → p b

/-- A failure ensures everything. -/
theorem ensures_error {β : Type} (failure : Failure) (p : β → Prop) :
    Ensures (.error failure) p := nofun

/-- A result ensures what it has. -/
theorem ensures_ok {β : Type} {b : β} {p : β → Prop} (hb : p b) : Ensures (.ok b) p := by
  intro b' h
  cases h
  exact hb

/-- What the second of two operations ensures after every result of the first, both ensure in a row. -/
theorem Ensures.bind {β γ : Type} {x : Except Failure β} {f : β → Except Failure γ} {p : β → Prop}
    {q : γ → Prop} (hx : Ensures x p) (hf : ∀ b, p b → Ensures (f b) q) : Ensures (x >>= f) q := by
  intro c hc
  obtain ⟨b, hb, hc⟩ := Reduction.ok_of_bind hc
  exact hf b (hx b hb) c hc

section Readers

variable {tree : ParseTree} {parts : List (Reading α)} (hparts : ∀ part ∈ parts, part.Tracked)
include hparts

/-- What remains after a token is tracked as before. -/
theorem tracked_takeBare :
    Ensures (takeBare tree parts) fun found => ∀ part ∈ found.2, part.Tracked := by
  unfold takeBare
  split
  · exact ensures_ok (List.forall_mem_cons.mp hparts).2
  · exact ensures_error _ _

/-- An expression that is taken is tracked, and so is what remains. -/
theorem tracked_takeExpr :
    Ensures (takeExpr tree parts) fun found =>
      found.1.1.levels ≤ found.1.2 ∧ ∀ part ∈ found.2, part.Tracked := by
  unfold takeExpr
  split
  · exact ensures_ok (List.forall_mem_cons.mp hparts)
  · exact ensures_error _ _

/-- A chain that is taken is tracked. -/
theorem tracked_takeChain :
    Ensures (takeChain tree parts) fun found =>
      ∀ link ∈ found.1, link.operand.levels ≤ link.depth := by
  unfold takeChain
  split
  · exact ensures_ok (List.forall_mem_cons.mp hparts).1
  · exact ensures_error _ _

/-- The rest of a chain is tracked. -/
theorem tracked_readTail : Ensures (readTail tree parts) Tracked := by
  unfold readTail
  split
  · exact ensures_ok (List.forall_mem_nil _)
  · refine (tracked_takeBare hparts).bind fun ⟨operator, parts'⟩ hparts' => ?_
    refine (tracked_takeExpr hparts').bind fun ⟨⟨operand, depth⟩, parts''⟩ ⟨hoperand, hparts''⟩ => ?_
    refine (tracked_takeChain hparts'').bind fun ⟨links, _⟩ hlinks => ?_
    exact ensures_ok (List.forall_mem_cons.mpr ⟨hoperand, hlinks⟩)

/-- An exponent is tracked. -/
theorem tracked_readExponent : Ensures (readExponent tree parts) Tracked := by
  unfold readExponent
  split
  · exact ensures_ok (List.forall_mem_nil _)
  · refine (tracked_takeBare hparts).bind fun ⟨operator, parts'⟩ hparts' => ?_
    refine (tracked_takeExpr hparts').bind fun ⟨⟨operand, depth⟩, _⟩ ⟨hoperand, _⟩ => ?_
    exact ensures_ok (List.forall_mem_singleton.mpr hoperand)

/-- An operator is tracked. -/
theorem tracked_readOperator : Ensures (readOperator tree parts) Tracked := by
  unfold readOperator
  split
  · exact ensures_ok trivial
  · exact (tracked_takeBare hparts).bind fun _ _ => ensures_ok trivial

/-- A power is tracked. -/
theorem tracked_readPower : Ensures (readPower tree parts) Tracked := by
  refine (tracked_takeExpr hparts).bind fun ⟨⟨base, depth⟩, parts'⟩ ⟨hbase, hparts'⟩ => ?_
  refine (tracked_takeChain hparts').bind fun ⟨links, _⟩ hlinks => ?_
  cases links with
  | nil => exact ensures_ok hbase
  | cons link links =>
    apply ensures_ok
    rw [List.forall_mem_cons] at hlinks
    exact Nat.succ_le_succ (max_le_max hbase hlinks.1)

/-- An operand is tracked, with parentheses or without. -/
theorem tracked_readOperand : Ensures (readOperand tree parts) Tracked := by
  unfold readOperand
  split
  · refine (tracked_takeBare hparts).bind fun ⟨_, parts'⟩ hparts' => ?_
    exact (tracked_takeExpr hparts').bind fun _ hvalue => ensures_ok hvalue.1
  · exact (tracked_takeExpr hparts).bind fun _ hvalue => ensures_ok hvalue.1
  · exact ensures_error _ _

/-- A function is tracked. -/
theorem tracked_readTrig : Ensures (readTrig tree parts) Tracked := by
  refine (tracked_takeBare hparts).bind fun ⟨name, parts'⟩ hparts' => ?_
  refine Ensures.bind (fun _ _ => trivial) fun text _ => ?_
  dsimp only
  split
  · exact ensures_error _ _
  · exact (tracked_takeExpr hparts').bind fun _ hbody => ensures_ok (Nat.succ_le_succ hbody.1)

/-- A logarithm is tracked. -/
theorem tracked_readLog : Ensures (readLog tree parts) Tracked := by
  refine (tracked_takeBare hparts).bind fun ⟨_, parts₁⟩ hparts₁ => ?_
  refine (tracked_takeExpr hparts₁).bind fun ⟨⟨base, baseDepth⟩, parts₂⟩ ⟨hbase, hparts₂⟩ => ?_
  refine (tracked_takeBare hparts₂).bind fun ⟨_, parts₃⟩ hparts₃ => ?_
  refine (tracked_takeExpr hparts₃).bind fun ⟨⟨body, bodyDepth⟩, _⟩ ⟨hbody, _⟩ => ?_
  exact ensures_ok (Nat.succ_le_succ (max_le_max hbase hbody))

/-- A variable is tracked. -/
theorem tracked_readVar : Ensures (readVar tree parts) Tracked := by
  refine (tracked_takeBare hparts).bind fun ⟨name, _⟩ _ => ?_
  exact Ensures.bind (fun _ _ => trivial) fun _ _ => ensures_ok (Nat.le_refl 1)

end Readers

end Reading

end Tracking

section Signs

variable {α : Type} [Scalar α]

/-- Scaling an expression by minus one adds at most a level. -/
theorem levels_scaled_minusOne (e : Expr α) :
    (scaled .minusOne e).levels ≤ e.levels + 1 := by
  simpa [scaled, levelsList] using levels_product_le Coefficient.minusOne [e] []

mutual

/-- The opposite has at most a level more. -/
theorem levels_neg_le (e : Expr α) : e.neg.levels ≤ e.levels + 1 := by
  cases e with
  | sum as =>
    have := levelsList_negList_le as
    rw [neg, levels, levels]
    omega
  | product c n d =>
    rw [neg, levels_product (-c) c]
    omega
  | number v =>
    cases v with
    | real v => simp [neg, real, levels]
    | constant k => exact levels_scaled_minusOne _
  | power a b => exact levels_scaled_minusOne _
  | log a b => exact levels_scaled_minusOne _
  | trig f a => exact levels_scaled_minusOne _
  | var x => exact levels_scaled_minusOne _

/-- The opposites have at most a level more. -/
theorem levelsList_negList_le (es : List (Expr α)) :
    levelsList (negList es) ≤ levelsList es + 1 := by
  cases es with
  | nil => simp [negList]
  | cons e es =>
    have he := levels_neg_le e
    have hes := levelsList_negList_le es
    rw [negList, levelsList, levelsList]
    omega

end

/-- The opposite of a number has one level, since a constant with its sign is a leaf. -/
theorem levels_neg_number (v : Number α) : (number v).neg.levels = 1 := by
  cases v <;> rfl

namespace Reading

/-- The number that goes with an opposite bounds its levels. -/
theorem levels_negated_le {value : Expr α} {depth : Nat} (h : value.levels ≤ depth) :
    (negated value depth).1.levels ≤ (negated value depth).2 := by
  cases value with
  | number v =>
    change (number v).neg.levels ≤ depth
    rw [levels_neg_number]
    exact h
  | product c n d =>
    change (product (-c) n d).levels ≤ depth
    rw [levels_product (-c) c]
    exact h
  | sum as => exact (levels_neg_le _).trans (Nat.succ_le_succ h)
  | power a b => exact (levels_neg_le _).trans (Nat.succ_le_succ h)
  | log a b => exact (levels_neg_le _).trans (Nat.succ_le_succ h)
  | trig f a => exact (levels_neg_le _).trans (Nat.succ_le_succ h)
  | var x => exact (levels_neg_le _).trans (Nat.succ_le_succ h)

/-- The number that goes with the operands of a chain bounds the levels of all of them. -/
theorem levelsList_join_le {links : List (Link α)} {above below : List (Expr α)} {depth : Nat}
    (hlinks : ∀ link ∈ links, link.operand.levels ≤ link.depth)
    (habove : levelsList above ≤ depth) (hbelow : levelsList below ≤ depth) :
    levelsList (join links above below depth).1 ≤ (join links above below depth).2.2 ∧
      levelsList (join links above below depth).2.1 ≤ (join links above below depth).2.2 := by
  -- an operand joins its side, and its own number joins the maximum
  have joined {es : List (Expr α)} {e : Expr α} {depth depth' : Nat} (hes : levelsList es ≤ depth)
      (he : e.levels ≤ depth') : levelsList (es ++ [e]) ≤ max depth depth' := by
    rw [levelsList_le_iff] at hes ⊢
    rw [List.forall_mem_append, List.forall_mem_singleton]
    exact ⟨fun x hx => (hes x hx).trans (le_max_left _ _), he.trans (le_max_right _ _)⟩
  induction links generalizing above below depth with
  | nil => exact ⟨habove, hbelow⟩
  | cons link links ih =>
    rw [List.forall_mem_cons] at hlinks
    unfold join
    split
    · apply ih hlinks.2
      · exact joined habove (levels_negated_le hlinks.1)
      · exact hbelow.trans (le_max_left _ _)
    · split
      · apply ih hlinks.2
        · exact habove.trans (le_max_left _ _)
        · exact joined hbelow hlinks.1
      · apply ih hlinks.2
        · exact joined habove hlinks.1
        · exact hbelow.trans (le_max_left _ _)

section Readers

variable {tree : ParseTree} {parts : List (Reading α)} (hparts : ∀ part ∈ parts, part.Tracked)
include hparts

/-- A sum or a product of tracked operands is tracked. -/
theorem tracked_readChain {build : List (Expr α) → List (Expr α) → Expr α}
    (hbuild : ∀ above below, (build above below).levels ≤
      max (levelsList above) (levelsList below) + 1) :
    Ensures (readChain build tree parts) Tracked := by
  refine (tracked_takeExpr hparts).bind fun ⟨⟨first, depth⟩, parts'⟩ ⟨hfirst, hparts'⟩ => ?_
  refine (tracked_takeChain hparts').bind fun ⟨links, _⟩ hlinks => ?_
  dsimp only
  split
  · exact ensures_ok hfirst
  · apply ensures_ok
    have hnumerator : levelsList [first] ≤ depth := by simpa [levelsList] using hfirst
    have hdenominator : levelsList ([] : List (Expr α)) ≤ depth := Nat.zero_le depth
    obtain ⟨habove, hbelow⟩ := levelsList_join_le hlinks hnumerator hdenominator
    exact (hbuild _ _).trans (Nat.succ_le_succ (max_le habove hbelow))

/-- A factor is tracked with its sign. -/
theorem tracked_readFactor : Ensures (readFactor tree parts) Tracked := by
  refine (tracked_takeBare hparts).bind fun ⟨sign, parts'⟩ hparts' => ?_
  refine (tracked_takeExpr hparts').bind fun ⟨⟨body, depth⟩, _⟩ ⟨hbody, _⟩ => ?_
  dsimp only
  split
  · exact ensures_ok hbody
  · exact ensures_ok (levels_negated_le hbody)

/-- A number is tracked. -/
theorem tracked_readNumber : Ensures (readNumber tree parts) Tracked := by
  refine (tracked_takeBare hparts).bind fun ⟨leaf, _⟩ _ => ?_
  dsimp only
  refine Ensures.bind (p := fun _ => True) (fun _ _ => trivial) fun text _ => ?_
  split
  · split
    · exact ensures_ok (Nat.le_refl 1)
    · exact ensures_error _ _
  · split
    · exact ensures_ok (Nat.le_refl 1)
    · exact ensures_error _ _

/-- What a nonterminal means is tracked if what its children mean is. -/
theorem tracked_ofNode (name : String) : Ensures (ofNode name tree parts) Tracked := by
  unfold ofNode
  split
  · exact tracked_readChain hparts fun above below => by rw [levels]; omega
  · exact tracked_readChain hparts (levels_product_le .one)
  · exact tracked_readTail hparts
  · exact tracked_readTail hparts
  · exact tracked_readExponent hparts
  · exact tracked_readOperator hparts
  · exact tracked_readOperator hparts
  · exact tracked_readOperator hparts
  · exact tracked_readOperator hparts
  · exact tracked_readFactor hparts
  · exact tracked_readPower hparts
  · exact tracked_readOperand hparts
  · exact tracked_readOperand hparts
  · exact tracked_readOperand hparts
  · exact tracked_readTrig hparts
  · exact tracked_readLog hparts
  · exact tracked_readVar hparts
  · exact tracked_readNumber hparts
  · exact ensures_error _ _

end Readers

/-- The reading is tracked, and the number of its expression is within the limit. -/
def Within (limits : Limits) (r : Reading α) : Prop :=
  r.Tracked ∧ ∀ value depth, r = .expr value depth → depth ≤ limits.maxDepth

omit [Scalar α] in
/-- A tracked reading that passes the check is within the limit. -/
theorem within_checkDepth (limits : Limits) (tree : ParseTree) {r : Reading α} (hr : r.Tracked) :
    Ensures (checkDepth limits tree r) (Within limits) := by
  unfold checkDepth
  split
  · split
    · exact ensures_error _ _
    · apply ensures_ok
      refine ⟨hr, fun value depth h => ?_⟩
      cases h
      omega
  · rename_i hother
    exact ensures_ok ⟨hr, fun value depth h => (hother value depth h).elim⟩

mutual

/-- What a parse tree means is within the limit. -/
theorem within_ofTree (limits : Limits) (tree : ParseTree) :
    Ensures (ofTree limits tree) (Within (α := α) limits) := by
  cases tree with
  | leaf token =>
    rw [ofTree]
    exact ensures_ok ⟨trivial, nofun⟩
  | node name span children =>
    rw [ofTree]
    refine (tracked_ofTrees limits children).bind fun parts hparts => ?_
    exact (tracked_ofNode hparts name).bind fun r hr => within_checkDepth limits _ hr

/-- What the parse trees of a list mean is tracked. -/
theorem tracked_ofTrees (limits : Limits) (trees : List ParseTree) :
    Ensures (ofTrees limits trees) fun parts : List (Reading α) => ∀ part ∈ parts, part.Tracked := by
  cases trees with
  | nil =>
    rw [ofTrees]
    exact ensures_ok (List.forall_mem_nil _)
  | cons tree trees =>
    rw [ofTrees]
    refine (within_ofTree limits tree).bind fun r hr => ?_
    refine (tracked_ofTrees limits trees).bind fun parts hparts => ?_
    exact ensures_ok (List.forall_mem_cons.mpr ⟨hr.1, hparts⟩)

end

end Reading

/-- What is read has no more levels than the limit allows, a constant with its sign taken as a leaf. -/
theorem levels_le_of_read {table : Table} {limits : Limits} {source : String} {e : Expr α}
    (h : read table limits source = .ok e) : e.levels ≤ limits.maxDepth := by
  obtain ⟨tree, -, h⟩ := Reduction.ok_of_bind h
  obtain ⟨r, hreading, h⟩ := Reduction.ok_of_bind h
  obtain ⟨htracked, hwithin⟩ := Reading.within_ofTree limits tree r hreading
  cases r with
  | expr value depth =>
    cases h
    exact le_trans htracked (hwithin e depth rfl)
  | bare tree => cases h
  | chain links => cases h

/-- What is read is not deeper than the limit where no constant has a sign, and never by more than the level
of such a sign. -/
theorem depth_le_of_read {table : Table} {limits : Limits} {source : String} {e : Expr α}
    (h : read table limits source = .ok e) :
    e.depth ≤ limits.maxDepth + 1 ∧
      ((e.Everywhere fun x => x.isSignedConstant = false) → e.depth ≤ limits.maxDepth) := by
  have hlevels := levels_le_of_read h
  refine ⟨(depth_le_levels e).trans (Nat.succ_le_succ hlevels), fun hunsigned => ?_⟩
  rw [depth_eq_levels hunsigned]
  exact hlevels

end Signs

/-- The opposites of a variable and of a constant are read under limits of their own levels. -/
theorem exists_read_opposites : ∃ table, Table.expression = .ok table ∧
    (∃ e : Expr Float, read table { maxDepth := 2 } "-x" = .ok e ∧
      ∀ x ∈ e.postOrder, x.isSignedConstant = false) ∧
    ∃ e : Expr Float, read table { maxDepth := 1 } "-e" = .ok e ∧ e.depth = 2 := by
  obtain ⟨table, htable, hreads⟩ := Table.exists_expression
  have read_of_parsed {limits : Limits} {source : String} {p : Expr Float → Prop}
      (h : ∃ tree, ParseTree.parseSymbol table source.utf8ByteSize 16 (.nonterminal "expr")
        ((Token.scan source).filter fun t => !t.isWhitespace) = .ok ⟨[tree], [], false⟩ ∧
          ∃ e, ofTree limits tree = .ok e ∧ p e) :
      ∃ e, read table limits source = .ok e ∧ p e := by
    obtain ⟨tree, hparse, e, he, hp⟩ := h
    refine ⟨e, ?_, hp⟩
    rw [read, ParseTree.parse_of_parseSymbol (Table.built_of_expression htable) (hreads.start ▸ hparse)]
    exact he
  have hvar : ((Token.scan "-x").filter fun t => !t.isWhitespace) =
      [⟨.minus, "-", ⟨0, 1⟩⟩, ⟨.var, "x", ⟨1, 2⟩⟩] := by decide +kernel
  have hconst : ((Token.scan "-e").filter fun t => !t.isWhitespace) =
      [⟨.minus, "-", ⟨0, 1⟩⟩, ⟨.const, "e", ⟨1, 2⟩⟩] := by decide +kernel
  -- the table is known by what it gives, and is not computed once more
  have hlookup := hreads.choices
  have hvanishing := hreads.vanishing
  simp only [Table.expressionChoices, Table.Chooses, Table.operandKinds, List.forall_mem_cons,
    Token.Kind.name] at hlookup hvanishing
  refine ⟨table, htable, read_of_parsed ?_, read_of_parsed ?_⟩
  · simp only [hvar, ParseTree.parseSymbol, ParseTree.parseAll, ParseTree.parseAtEnd, hlookup, hvanishing,
      Token.terminal, Token.Kind.name, bind, Except.bind, pure, Except.pure, Bool.false_eq_true, if_true,
      if_false, List.cons_append, List.nil_append]
    exact ⟨_, rfl, by decide +kernel⟩
  · simp only [hconst, ParseTree.parseSymbol, ParseTree.parseAll, ParseTree.parseAtEnd, hlookup, hvanishing,
      Token.terminal, Token.Kind.name, bind, Except.bind, pure, Except.pure, Bool.false_eq_true, if_true,
      if_false, List.cons_append, List.nil_append]
    exact ⟨_, rfl, by decide +kernel⟩

/-- The opposite of a variable, read under a limit of two levels, has two. -/
theorem depth_le_of_read_opposite : ∃ table, Table.expression = .ok table ∧
    ∃ e : Expr Float, read table { maxDepth := 2 } "-x" = .ok e ∧
      (e.Everywhere fun x => x.isSignedConstant = false) ∧ e.depth ≤ 2 := by
  obtain ⟨table, htable, ⟨e, hread, hunsigned⟩, -⟩ := exists_read_opposites
  exact ⟨table, htable, e, hread, hunsigned, (depth_le_of_read hread).2 hunsigned⟩

/-- The opposite of a constant, read under a limit of one level, has two. -/
theorem read_deeper_than_limit : ∃ table, Table.expression = .ok table ∧
    ∃ e : Expr Float, read table { maxDepth := 1 } "-e" = .ok e ∧ ¬ e.depth ≤ 1 := by
  obtain ⟨table, htable, -, e, hread, hdepth⟩ := exists_read_opposites
  exact ⟨table, htable, e, hread, by omega⟩

end SymbolicAlgebra.Expr
