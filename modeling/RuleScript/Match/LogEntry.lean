import RuleScript.Graph.Basic
import RuleScript.Node

/-!
# Log entries

The entries that log rules left in a forest, with the severity and the message of their rule.
-/

namespace RuleScript

/-- What a log rule left, over the elements of the span. -/
structure LogEntry where
  rule : RuleId
  severity : Severity
  message : String
  span : Span
  deriving DecidableEq

/-- The entry that a node stands for, if its rule is a log rule. -/
def Graph.entryOf? {α : Type} (g : Graph α) (node : Node) : Option LogEntry :=
  match g.kind? node.rule with
  | some (.log severity message _) => some ⟨node.rule, severity, message, node.span⟩
  | _ => none

/-- All entries of a forest, each before those below it. -/
def Graph.collectLogs {α : Type} (g : Graph α) (forest : List Node) : List LogEntry :=
  (Node.preorderAll forest).filterMap g.entryOf?

end RuleScript
