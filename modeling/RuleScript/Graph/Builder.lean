import RuleScript.Graph.Nullable
import RuleScript.Graph.Resolve

/-!
# Building graphs

A builder registers rule after rule and keeps the first error for the end, so that a long
definition reads as a list of steps.  A rule that could not be registered is known by the invalid
id from then on.
-/

namespace RuleScript

/-- A graph under construction. -/
structure Builder (α : Type) where
  graph : Graph α := .empty
  /-- The first error so far. -/
  error : Option GraphError := none

namespace Builder

variable {α : Type}

def fail (b : Builder α) (error : GraphError) : Builder α :=
  { b with error := b.error.or (some error) }

/-- Register a rule. -/
def add (b : Builder α) (rule : Rule α) : RuleId × Builder α :=
  match b.graph.register rule with
  | .ok (id, graph) => (id, { b with graph := graph })
  | .error error => (.invalid, b.fail error)

/-- Register rules in order. -/
def addAll (b : Builder α) : List (Rule α) → List RuleId × Builder α
  | [] => ([], b)
  | rule :: rest =>
    let (id, b) := b.add rule
    let (ids, b) := b.addAll rest
    (id :: ids, b)

def setRoot (b : Builder α) (id : RuleId) : Builder α :=
  match b.graph.setRoot id with
  | .ok graph => { b with graph := graph }
  | .error error => b.fail error

/-- The graph with its references resolved, unless an error came up. -/
def finishUnchecked (b : Builder α) : Except GraphError (Graph α) :=
  match b.error with
  | some error => .error error
  | none =>
    match b.graph.resolve with
    | (.ok (), graph) => .ok graph
    | (.error error, _) => .error error

/-- The graph with its references resolved, once it is valid too. -/
def finish (b : Builder α) : Except GraphError (Graph α) := do
  let graph ← b.finishUnchecked
  graph.validate
  pure graph

end Builder

/-! ## Definitions as a list of steps -/

/-- A definition that registers rules on its way. -/
abbrev Build (α β : Type) := StateM (Builder α) β

namespace Build

variable {α : Type}

/-- Register a rule without a name. -/
def add (kind : Kind α) (pruning : Pruning := .none) : Build α RuleId :=
  fun b => b.add { pruning := pruning, kind := kind }

/-- Register a rule with a name. -/
def define (name : String) (kind : Kind α) (pruning : Pruning := .none) : Build α RuleId :=
  fun b => b.add { name := some name, pruning := pruning, kind := kind }

/-- Register a reference. -/
def reference (name : String) : Build α RuleId := add (.reference name none)

/-- The rule with a name. -/
def rule (name : String) : Build α RuleId :=
  fun b => ((b.graph.idOf? name).getD .invalid, b)

/-- The graph that a definition of a root comes to, with its references linked. -/
def graph (definition : Build α RuleId) : Graph α :=
  let (root, b) := definition.run {}
  (b.setRoot root).graph.link

end Build

end RuleScript
