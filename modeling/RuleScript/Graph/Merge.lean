import RuleScript.Event
import RuleScript.Graph.Resolve

/-!
# Merging graphs

Merging copies the rules of one graph into another.  A rule whose name is taken is not copied:
what refers to it comes to refer to the rule that has the name already, so the first rule with a
name stays.  All other rules are added in order with new ids.
-/

namespace RuleScript

/-- What a merge did. -/
structure MergeReport where
  /-- How many rules were copied. -/
  added : Nat
  /-- The names that were taken. -/
  shadowed : List String
  /-- Where each rule of the merged graph can be found now. -/
  remap : Array RuleId
  deriving DecidableEq

namespace MergeReport

/-- Where a rule of the merged graph can be found now. -/
def mapped? (report : MergeReport) (id : RuleId) : Option RuleId := report.remap[id.index]?

/-- The same; the invalid id for a rule that the merged graph did not have. -/
def mapped (report : MergeReport) (id : RuleId) : RuleId := (report.mapped? id).getD .invalid

/-- What is recorded of a merge. -/
def event (report : MergeReport) : Event := .merged report.added report.shadowed.length

end MergeReport

namespace Graph

variable {α : Type}

/-- The rule of `g` that has the name of `rule` already. -/
def shadow? (g : Graph α) (rule : Rule α) : Option RuleId := rule.name.bind g.idOf?

/-- Where the rules of a list go when they are merged into `g` and the next free id is `next`. -/
def mergedIds (g : Graph α) : (next : Nat) → List (Rule α) → List RuleId
  | _, [] => []
  | next, rule :: rest =>
    match g.shadow? rule with
    | some id => id :: g.mergedIds next rest
    | none => ⟨next⟩ :: g.mergedIds (next + 1) rest

/-- What merging `other` into `g` does. -/
def mergeReport (g other : Graph α) : MergeReport where
  added := other.rules.countP fun rule => (g.shadow? rule).isNone
  shadowed := other.rules.toList.filterMap fun rule => rule.name.filter g.hasName
  remap := (g.mergedIds g.size other.rules.toList).toArray

/-- Copy the rules of `other` into `g` and link the result. -/
def merge (g other : Graph α) : MergeReport × Graph α :=
  let report := g.mergeReport other
  let copies := (other.rules.filter fun rule => (g.shadow? rule).isNone).map
    (·.mapSubs report.mapped)
  let merged : Graph α :=
    { rules := g.rules ++ copies
      root := g.root.or (other.root.bind report.mapped?) }
  (report, merged.link)

end Graph

end RuleScript
