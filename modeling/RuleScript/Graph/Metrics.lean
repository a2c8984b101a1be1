import RuleScript.Graph.Nullable
import RuleScript.Graph.Reach

/-!
# Metrics

Counts that describe the size and shape of a graph.
-/

namespace RuleScript

/-- The size and shape of a graph. -/
structure Metrics where
  rules : Nat
  named : Nat
  references : Nat
  /-- References that point at no rule. -/
  unresolved : Nat
  reachable : Nat
  nullable : Nat
  logs : Nat
  /-- The number of alternatives of the widest choice or evaluation. -/
  maxAlternatives : Nat
  deriving DecidableEq

/-- The number of alternatives of a choice or an evaluation. -/
def Kind.width {α : Type} : Kind α → Nat
  | .oneOf subs | .evaluation subs => subs.length
  | _ => 0

def Kind.isReference {α : Type} : Kind α → Bool
  | .reference .. => true
  | _ => false

/-- The metrics of a graph. -/
def Graph.metrics {α : Type} (g : Graph α) : Metrics where
  rules := g.size
  named := g.rules.countP (·.name.isSome)
  references := g.rules.countP (·.kind.isReference)
  unresolved := g.rules.countP (·.kind.pending?.isSome)
  reachable := g.reached.length
  nullable := g.nullableTable.count true
  logs := g.rules.countP (·.kind.isLog)
  maxAlternatives := g.rules.foldl (fun widest rule => max widest rule.kind.width) 0

/-- The metrics on one line. -/
def Metrics.summary (m : Metrics) : String :=
  s!"{m.rules} rules ({m.named} named, {m.reachable} reachable), {m.references} references " ++
  s!"({m.unresolved} unresolved), {m.nullable} nullable, {m.logs} log rules, " ++
  s!"widest choice {m.maxAlternatives}"

end RuleScript
