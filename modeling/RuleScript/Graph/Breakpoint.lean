import RuleScript.Event
import RuleScript.Graph.Basic

/-!
# Breakpoints

`Graph.redirect` makes everything that refers to one rule refer to another.  A breakpoint on a
named rule is a rule of its own that stands for the named one: setting it redirects to it all that
used to refer to the named rule, clearing it redirects all of that back.  A cleared breakpoint
stays in the graph, where nothing refers to it.
-/

namespace RuleScript

namespace Graph

variable {α : Type}

/-- Make the root and every rule but `target` refer to `target` where they refer to `source`. -/
def redirect (g : Graph α) (source target : RuleId) : Graph α where
  rules := g.rules.mapIdx fun index rule =>
    if index = target.index then rule
    else rule.mapSubs fun id => if id = source then target else id
  root := g.root.map fun id => if id = source then target else id

/-- `redirect`, for two rules of the graph. -/
def replace (g : Graph α) (source target : RuleId) : Except GraphError (Graph α) :=
  match [source, target].find? (!g.contains ·) with
  | some unknown => .error (.unknownRule unknown)
  | none => .ok (g.redirect source target)

/-- Whether some rule refers to `id` or the root is `id`. -/
def isInUse (g : Graph α) (id : RuleId) : Bool :=
  g.rules.any (·.kind.subs.contains id) || g.root == some id

/-- The breakpoints on a rule that are in use, in the order of their ids. -/
def breakpointsOn (g : Graph α) (target : RuleId) : List RuleId :=
  g.ids.filter fun id =>
    match g.kind? id with
    | some (.breakpoint sub) => sub = target && g.isInUse id
    | _ => false

/-- What setting a breakpoint comes to. -/
structure BreakpointSet (α : Type) where
  /-- The breakpoint, new or already there. -/
  id : RuleId
  graph : Graph α
  isNew : Bool
  deriving DecidableEq

/-- What is recorded of it: nothing, if the breakpoint was there already. -/
def BreakpointSet.journal (set : BreakpointSet α) (name : String) : Journal :=
  if set.isNew then #[.breakpointSet name] else #[]

/-- Set a breakpoint on the rule with a name.  One that is set already is left alone. -/
def setBreakpoint (g : Graph α) (name : String) : Except GraphError (BreakpointSet α) :=
  match g.idOf? name with
  | none => .error (.unknownName name)
  | some target =>
    match g.breakpointsOn target with
    | id :: _ => .ok ⟨id, g, false⟩
    | [] => do
      let (id, registered) ← g.register (.ofKind (.breakpoint target))
      .ok ⟨id, registered.redirect target id, true⟩

/-- Clear all breakpoints on the rule with a name. -/
def clearBreakpoint (g : Graph α) (name : String) : Except GraphError (Graph α) :=
  match g.idOf? name with
  | none => .error (.unknownName name)
  | some target => .ok ((g.breakpointsOn target).foldl (fun g id => g.redirect id target) g)

end Graph

end RuleScript
