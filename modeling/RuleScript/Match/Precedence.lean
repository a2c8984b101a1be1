import RuleScript.Match.Prune

/-!
# Folding operator chains

A chain is an operand followed by links, each an operator with its right operand.  It is read as a
binary tree: links are attached from left to right, and an operator that binds strictly tighter
than the one before it takes over that one's right operand, while one that does not takes all it
can on its left.  The tree is then folded bottom up, each operator leaving a node over its two
sides which its own pruning is applied to.
-/

namespace RuleScript

/-- An alternative of the form `left, operator, right`. -/
structure BinaryOperator where
  /-- The rule that nodes of this operator belong to. -/
  identity : RuleId
  left : RuleId
  operator : RuleId
  right : RuleId
  precedence : Precedence
  pruning : Pruning
  deriving DecidableEq

/-- A matched operand, or the part of a chain that was folded into one. -/
structure Operand where
  span : Span
  nodes : List Node
  deriving DecidableEq

/-- A matched operator with its right operand. -/
structure Link where
  operator : BinaryOperator
  /-- What the match of the operator itself left. -/
  nodes : List Node
  right : Operand
  deriving DecidableEq

/-- A reading of a chain. -/
inductive ChainTree where
  | operand (operand : Operand)
  | branch (left : ChainTree) (operator : BinaryOperator) (nodes : List Node) (right : ChainTree)

namespace ChainTree

/-- Attach the next link at the right end. -/
def attach (link : Link) : ChainTree → ChainTree
  | operand first => branch (operand first) link.operator link.nodes (operand link.right)
  | branch left operator nodes right =>
    if operator.precedence.next ≤ link.operator.precedence then
      branch left operator nodes (right.attach link)
    else
      branch (branch left operator nodes right) link.operator link.nodes (operand link.right)

/-- The reading of a chain. -/
def ofChain (first : Operand) (links : List Link) : ChainTree :=
  links.foldl (fun tree link => tree.attach link) (operand first)

/-- What an operator leaves over its two sides. -/
def combine {α : Type} (g : Graph α) (operator : BinaryOperator) (nodes : List Node)
    (left right : Operand) : Operand :=
  let span := left.span.cover right.span
  ⟨span, g.prune operator.pruning
    [⟨operator.identity, span, left.nodes ++ nodes ++ right.nodes⟩]⟩

/-- The tree as one operand. -/
def fold {α : Type} (g : Graph α) : ChainTree → Operand
  | operand alone => alone
  | branch left operator nodes right => combine g operator nodes (left.fold g) (right.fold g)

end ChainTree

end RuleScript
