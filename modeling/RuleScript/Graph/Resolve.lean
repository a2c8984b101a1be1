import RuleScript.Graph.Reach
import RuleScript.Text.Similarity

/-!
# References

A reference names a rule and is pointed at it once the rule is there.  `Graph.link` points every
pending reference it can at the rule it names.  `Graph.resolve` does the same and reports the
names that are still missing, as far as a match from the root could come to need them.
-/

namespace RuleScript

namespace Graph

variable {α : Type}

/-- A rule after its reference, if it is a pending one, has been looked up. -/
def linkRule (g : Graph α) (rule : Rule α) : Rule α :=
  match rule.kind with
  | .reference target none => { rule with kind := .reference target (g.idOf? target) }
  | _ => rule

/-- Point every pending reference at the rule it names, where there is one. -/
def link (g : Graph α) : Graph α := { g with rules := g.rules.map g.linkRule }

/-- The names asked for by the rules with the given ids, each once. -/
def pendingNames (g : Graph α) (ids : List RuleId) : List String :=
  (ids.filterMap fun id => (g.rule? id).bind (·.kind.pending?)).eraseDups

/-- The names that stay missing after linking. -/
def dangling (g : Graph α) : List String := g.link.pendingNames g.ids

/-- The rules a match may reach: from the root, or all of them as long as there is no root. -/
def relevant (g : Graph α) : List RuleId :=
  match g.root with
  | some _ =>
    let reached := g.reached
    g.ids.filter (reached.contains ·)
  | none => g.ids

/-- The names that rules in reach ask for, with a suggestion for each. -/
def missing (g : Graph α) : List MissingReference :=
  (g.pendingNames g.relevant).map fun name => ⟨name, suggestion? name g.names⟩

/-- Link the graph and report what is missing in reach of the root. -/
def resolve (g : Graph α) : Except GraphError Unit × Graph α :=
  let linked := g.link
  match linked.missing with
  | [] => (.ok (), linked)
  | missing => (.error (.missingReferences missing), linked)

end Graph

end RuleScript
