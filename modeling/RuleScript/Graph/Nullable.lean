import RuleScript.Graph.Basic

/-!
# Nullable rules

A rule is nullable if it can match without consuming anything.  The table of nullable rules is
the least one closed under what the kinds of rules say: it starts with no rule marked and is swept
until a sweep marks no further rule.  Recursion alone therefore never makes a rule nullable.
-/

namespace RuleScript

/-- Whether a rule of this kind is nullable when the rules marked in `nullable` are. -/
def Kind.isNullable {α : Type} (nullable : RuleId → Bool) : Kind α → Bool
  | .any min _ => min == 0
  | .single _ | .set _ | .range .. => false
  | .literal values => values.isEmpty
  | .sequence subs => subs.all nullable
  | .oneOf subs | .evaluation subs => subs.any nullable
  | .count sub min _ => min == 0 || nullable sub
  | .not _ | .condition _ | .log .. => true
  | .skip stop stopBefore failOnEnd => stopBefore || !failOnEnd || nullable stop
  | .breakpoint sub => nullable sub
  | .reference _ subject => subject.any nullable

namespace Graph

variable {α : Type}

/-- Whether a table marks a rule. -/
def marks (table : Array Bool) (id : RuleId) : Bool := table[id.index]?.getD false

/-- Mark a rule if the marks so far make it nullable. -/
def markIfNullable (g : Graph α) (table : Array Bool) (id : RuleId) : Array Bool :=
  if (g.rule? id).any (·.kind.isNullable (marks table)) then table.setIfInBounds id.index true
  else table

/-- Go over all rules once; a mark counts at once for the rules that come later. -/
def sweep (g : Graph α) (table : Array Bool) : Array Bool := g.ids.foldl g.markIfNullable table

/-- Sweep until nothing changes, `sweeps` times at most. -/
def settle (g : Graph α) : (sweeps : Nat) → Array Bool → Array Bool
  | 0, table => table
  | sweeps + 1, table =>
    let next := g.sweep table
    if next = table then table else g.settle sweeps next

/-- The table of nullable rules.  Every sweep but the last marks a rule, so there is one sweep for
each rule and one more. -/
def nullableTable (g : Graph α) : Array Bool :=
  g.settle (g.size + 1) (Array.replicate g.size false)

/-- The nullable rules, in the order of their ids. -/
def nullableRules (g : Graph α) : List RuleId := g.ids.filter (marks g.nullableTable)

/-- The first rule that repeats a nullable rule without bound. -/
def nullableRepetition? (g : Graph α) : Option RuleId :=
  let table := g.nullableTable
  g.ids.find? fun id =>
    match g.kind? id with
    | some (.count sub _ 0) => marks table sub
    | _ => false

/-- Refuse a graph that repeats a nullable rule without bound. -/
def validate (g : Graph α) : Except GraphError Unit :=
  match g.nullableRepetition? with
  | some id => .error (.nullableRepetition (g.label id))
  | none => .ok ()

end Graph

end RuleScript
