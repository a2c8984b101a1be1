import RuleScript.Graph.Reach

/-!
# Graphs as drawings

The named rules of a graph and what each of them uses, in the language of Graphviz.
-/

namespace RuleScript

namespace Graph

variable {α : Type}

/-- The shape of a rule: a note for a log, a filled box for a rule that refers to no other. -/
def shapeOf (g : Graph α) (id : RuleId) : String :=
  match g.kind? id with
  | some (.log ..) => ", shape=note"
  | some kind => if kind.subs.isEmpty then ", shape=box, style=filled, fillcolor=lightblue" else ""
  | none => ""

/-- The line that draws a rule; the root has a thick border. -/
def dotNode (g : Graph α) (name : String) (id : RuleId) : String :=
  let border := if g.root = some id then ", penwidth=2" else ""
  s!"  \"{name}\" [label=\"{name}\"{g.shapeOf id}{border}];\n"

/-- The lines that draw what a rule uses. -/
def dotEdges (g : Graph α) (name : String) (id : RuleId) : List String :=
  (g.namedUses id).map fun target => s!"  \"{name}\" -> \"{g.label target}\";\n"

/-- The drawing of a graph. -/
def dot (g : Graph α) : String :=
  "digraph Rules \x7b\n  rankdir=LR;\n  node [shape=ellipse];\n\n" ++
  String.join (g.named.map fun (name, id) => g.dotNode name id) ++ "\n" ++
  String.join (g.named.flatMap fun (name, id) => g.dotEdges name id) ++ "\x7d\n"

end Graph

end RuleScript
