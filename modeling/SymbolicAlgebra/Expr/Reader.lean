import SymbolicAlgebra.Expr.Basic
import SymbolicAlgebra.Limits
import SymbolicAlgebra.ParseTree.Parser

/-!
# Reading expressions

A parse tree by the grammar of expressions is folded into an expression from the leaves up. Chains
of additions and multiplications become one sum or product each, and a leading minus negates. The
depth of each expression is tracked on the way, so that none deeper than the limit is built.
-/

namespace SymbolicAlgebra.Expr

variable {α : Type} [Scalar α]

/-- An operand of a chain with the name of its operator and its depth. -/
structure Link (α : Type) where
  operator : String
  operand : Expr α
  depth : Nat

/-- What a part of a parse tree stands for. -/
inductive Reading (α : Type) where
  /-- A token, an operator, or a nonterminal that derives nothing. -/
  | bare (tree : ParseTree)
  /-- An expression and its depth. -/
  | expr (value : Expr α) (depth : Nat)
  /-- The rest of a chain of operators, in the order of the source. -/
  | chain (links : List (Link α))

namespace Reading

/-- The failure to give a part of a parse tree a meaning. -/
def unreadable (tree : ParseTree) : Failure :=
  .located tree.span (.unreadableSymbol tree.symbol.text)

/-- Takes the next child, which must be a token or an operator. -/
def takeBare (parent : ParseTree) :
    List (Reading α) → Except Failure (ParseTree × List (Reading α))
  | .bare tree :: rest => .ok (tree, rest)
  | _ => .error (unreadable parent)

/-- Takes the next child, which must be an expression. -/
def takeExpr (parent : ParseTree) :
    List (Reading α) → Except Failure ((Expr α × Nat) × List (Reading α))
  | .expr value depth :: rest => .ok ((value, depth), rest)
  | _ => .error (unreadable parent)

/-- Takes the next child, which must be the rest of a chain. -/
def takeChain (parent : ParseTree) :
    List (Reading α) → Except Failure (List (Link α) × List (Reading α))
  | .chain links :: rest => .ok (links, rest)
  | _ => .error (unreadable parent)

/-- The text of a token. -/
def lexeme (tree : ParseTree) : Except Failure String :=
  match tree.lexeme? with
  | some text => .ok text
  | none => .error (unreadable tree)

/-- The opposite of an expression and a bound on its depth: a literal or a product stays as deep as
it is. -/
def negated (value : Expr α) (depth : Nat) : Expr α × Nat :=
  match value with
  | .number _ => (value.neg, depth)
  | .product .. => (value.neg, depth)
  | _ => (value.neg, depth + 1)

/-- The operands above and below the fraction line, and the depth of the deepest, when those of a
chain join them. -/
def join : List (Link α) → List (Expr α) → List (Expr α) → Nat →
    List (Expr α) × List (Expr α) × Nat
  | [], above, below, depth => (above, below, depth)
  | link :: links, above, below, depth =>
    if link.operator = "MINUS" then
      let opposite := negated link.operand link.depth
      join links (above ++ [opposite.1]) below (max depth opposite.2)
    else if link.operator = "DIVIDE" then
      join links above (below ++ [link.operand]) (max depth link.depth)
    else join links (above ++ [link.operand]) below (max depth link.depth)

/-- A sum or a product: an operand and the rest of the chain. -/
def readChain (build : List (Expr α) → List (Expr α) → Expr α) (tree : ParseTree)
    (parts : List (Reading α)) : Except Failure (Reading α) := do
  let ((first, depth), parts) ← takeExpr tree parts
  let (links, _) ← takeChain tree parts
  if links.isEmpty then return .expr first depth
  let (above, below, depth) := join links [first] [] depth
  return .expr (build above below) (depth + 1)

/-- The rest of a chain: an operator, its operand and what follows them, or nothing. -/
def readTail (tree : ParseTree) (parts : List (Reading α)) : Except Failure (Reading α) := do
  if tree.isEmpty then return .chain []
  let (operator, parts) ← takeBare tree parts
  let ((operand, depth), parts) ← takeExpr tree parts
  let (links, _) ← takeChain tree parts
  return .chain (⟨operator.symbol.text, operand, depth⟩ :: links)

/-- An exponent with the operator before it, or nothing. -/
def readExponent (tree : ParseTree) (parts : List (Reading α)) : Except Failure (Reading α) := do
  if tree.isEmpty then return .chain []
  let (operator, parts) ← takeBare tree parts
  let ((operand, depth), _) ← takeExpr tree parts
  return .chain [⟨operator.symbol.text, operand, depth⟩]

/-- An operator that may be missing. -/
def readOperator (tree : ParseTree) (parts : List (Reading α)) : Except Failure (Reading α) := do
  if tree.isEmpty then return .bare tree
  let (operator, _) ← takeBare tree parts
  return .bare operator

/-- A factor with a minus in front, if there is one. -/
def readFactor (tree : ParseTree) (parts : List (Reading α)) : Except Failure (Reading α) := do
  let (sign, parts) ← takeBare tree parts
  let ((body, depth), _) ← takeExpr tree parts
  if sign.isEmpty then return .expr body depth
  let opposite := negated body depth
  return .expr opposite.1 opposite.2

/-- A power, if there is an exponent. -/
def readPower (tree : ParseTree) (parts : List (Reading α)) : Except Failure (Reading α) := do
  let ((base, baseDepth), parts) ← takeExpr tree parts
  let (links, _) ← takeChain tree parts
  match links with
  | [] => return .expr base baseDepth
  | link :: _ => return .expr (power base link.operand) (max baseDepth link.depth + 1)

/-- An operand, which may stand between parentheses. -/
def readOperand (tree : ParseTree) (parts : List (Reading α)) : Except Failure (Reading α) := do
  match tree.children.length with
  | 3 =>
    let (_, parts) ← takeBare tree parts
    let ((value, depth), _) ← takeExpr tree parts
    return .expr value depth
  | 1 =>
    let ((value, depth), _) ← takeExpr tree parts
    return .expr value depth
  | _ => .error (unreadable tree)

/-- A trigonometric function and its argument. -/
def readTrig (tree : ParseTree) (parts : List (Reading α)) : Except Failure (Reading α) := do
  let (name, parts) ← takeBare tree parts
  match Trig.ofName? (← lexeme name) with
  | none => .error (unreadable name)
  | some function =>
    let ((body, depth), _) ← takeExpr tree parts
    return .expr (trig function body) (depth + 1)

/-- A logarithm: its name, its base, a mark and its body. -/
def readLog (tree : ParseTree) (parts : List (Reading α)) : Except Failure (Reading α) := do
  let (_, parts) ← takeBare tree parts
  let ((base, baseDepth), parts) ← takeExpr tree parts
  let (_, parts) ← takeBare tree parts
  let ((body, bodyDepth), _) ← takeExpr tree parts
  return .expr (log base body) (max baseDepth bodyDepth + 1)

/-- A variable. -/
def readVar (tree : ParseTree) (parts : List (Reading α)) : Except Failure (Reading α) := do
  let (name, _) ← takeBare tree parts
  return .expr (var (← lexeme name)) 1

/-- A literal or a constant. -/
def readNumber (tree : ParseTree) (parts : List (Reading α)) : Except Failure (Reading α) := do
  let (leaf, _) ← takeBare tree parts
  let text ← lexeme leaf
  if leaf.symbol.text = "CONST" then
    match Constant.ofName? text with
    | some c => return .expr (constant c) 1
    | none => .error (unreadable leaf)
  else
    match Scalar.read? text.toList with
    | some v => return .expr (real v) 1
    | none => .error (.located leaf.span (.invalidNumber text))

/-- The meaning of a nonterminal over children with the given meanings. -/
def ofNode (name : String) (tree : ParseTree) (parts : List (Reading α)) :
    Except Failure (Reading α) :=
  match name with
  | "expr" => readChain (fun above _ => sum above) tree parts
  | "term" => readChain (product .one) tree parts
  | "expr_tail" | "term_tail" => readTail tree parts
  | "body_tail" => readExponent tree parts
  | "addop" | "mulop" | "trifunc" | "prefix" => readOperator tree parts
  | "factor" => readFactor tree parts
  | "body" => readPower tree parts
  | "expo" | "funbody" | "function" => readOperand tree parts
  | "triangular" => readTrig tree parts
  | "logarithm" => readLog tree parts
  | "var" => readVar tree parts
  | "num" => readNumber tree parts
  | _ => .error (unreadable tree)

/-- Refuses an expression that is nested too deeply. -/
def checkDepth (limits : Limits) (tree : ParseTree) (reading : Reading α) :
    Except Failure (Reading α) :=
  match reading with
  | .expr _ depth =>
    if limits.maxDepth < depth then .error (.located tree.span (.tooDeep limits.maxDepth))
    else .ok reading
  | _ => .ok reading

mutual

/-- The meaning of a parse tree. -/
def ofTree (limits : Limits) : ParseTree → Except Failure (Reading α)
  | .leaf token => .ok (.bare (.leaf token))
  | .node name span children => do
    let parts ← ofTrees limits children
    let tree := ParseTree.node name span children
    checkDepth limits tree (← ofNode name tree parts)

/-- The meanings of the parse trees of a list. -/
def ofTrees (limits : Limits) : List ParseTree → Except Failure (List (Reading α))
  | [] => .ok []
  | tree :: trees => do
    let reading ← ofTree limits tree
    let readings ← ofTrees limits trees
    return reading :: readings

end

end Reading

/-- The expression that a parse tree stands for. -/
def ofTree (limits : Limits) (tree : ParseTree) : Except Failure (Expr α) := do
  match ← Reading.ofTree limits tree with
  | .expr value _ => return value
  | _ => .error (Reading.unreadable tree)

/-- Reads an expression from a source, by the grammar of a table. -/
def read (table : Table) (limits : Limits) (source : String) : Except Failure (Expr α) := do
  ofTree limits (← ParseTree.parse table source)

end SymbolicAlgebra.Expr
