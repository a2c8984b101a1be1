import RuleScript.Graph.Basic
import RuleScript.Node

/-!
# Pruning

A rule with a pruning passes on only part of the nodes it leaves.  Log entries are exempt: what is
dropped gives its entries up to the place it is dropped from, in their order.
-/

namespace RuleScript

namespace Node

mutual

/-- The outermost log entries of a tree, in order. -/
def logEntries (isLog : RuleId → Bool) : Node → List Node
  | ⟨rule, span, children⟩ =>
    if isLog rule then [⟨rule, span, children⟩] else forestLogEntries isLog children

def forestLogEntries (isLog : RuleId → Bool) : List Node → List Node
  | [] => []
  | node :: rest => node.logEntries isLog ++ forestLogEntries isLog rest

end

end Node

/-- What a pruning leaves of a node. -/
def Pruning.keep (isLog : RuleId → Bool) (pruning : Pruning) (node : Node) : List Node :=
  match pruning with
  | .none => [node]
  | .root => if isLog node.rule then [node] else node.children
  | .all => node.logEntries isLog
  | .children =>
    if isLog node.rule then [node]
    else [⟨node.rule, node.span, Node.forestLogEntries isLog node.children⟩]

/-- What a pruning leaves of a forest. -/
def Graph.prune {α : Type} (g : Graph α) (pruning : Pruning) (forest : List Node) : List Node :=
  forest.flatMap (pruning.keep g.isLog)

end RuleScript
