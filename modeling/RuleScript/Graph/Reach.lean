import RuleScript.Graph.Basic

/-!
# Reachability

Which rules lie on some path of references from a given one.  `visit` walks a graph depth first
and lists what it comes across in the order of first sight.  It takes every rule from the unvisited
ones at most once, so it has seen all there is to see after as many rules as the graph has.
-/

namespace RuleScript

namespace Graph

variable {α : Type}

/-- The first `count` of the unvisited ids reached from the ones on the stack, in depth-first
order. -/
def visit (next : RuleId → List RuleId) :
    (count : Nat) → (unvisited stack : List RuleId) → List RuleId
  | 0, _, _ => []
  | count + 1, unvisited, stack =>
    match stack.dropWhile (· ∉ unvisited) with
    | [] => []
    | id :: stack => id :: visit next count (unvisited.erase id) (next id ++ stack)

/-- The ids of `g` that are reached from some ids by `next`, in depth-first order. -/
def walk (g : Graph α) (next : RuleId → List RuleId) (start : List RuleId) : List RuleId :=
  visit next g.size g.ids start

/-- The ids reached from the root, the root included; none without a root. -/
def reached (g : Graph α) : List RuleId := g.walk g.subs g.root.toList

/-- For each rule whether it is reached from the root. -/
def reachable (g : Graph α) : List Bool :=
  let reached := g.reached
  g.ids.map (reached.contains ·)

/-- The named rules that a rule uses directly or through rules without a name, in the order of
first sight. -/
def namedUses (g : Graph α) (id : RuleId) : List RuleId :=
  (g.walk (fun id => if g.isNamed id then [] else g.subs id) (g.subs id)).filter g.isNamed

end Graph

end RuleScript
