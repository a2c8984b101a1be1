import RuleScript.Rule

/-!
# Rule graphs

A graph holds the rules of one matching phase, each at the position that is its id, and remembers
which of them a match starts from.  Rules are only ever added at the end, so an id stays good for
the life of the graph.  Names are unique: `Graph.register` refuses a name that is taken, and it
refuses a rule that refers to an id not yet given out.
-/

namespace RuleScript

/-- A name that some reference asks for and no rule has. -/
structure MissingReference where
  name : String
  suggestion : Option String
  deriving DecidableEq

def MissingReference.text (missing : MissingReference) : String :=
  "'" ++ missing.name ++ "'" ++
    match missing.suggestion with
    | some suggestion => " (did you mean '" ++ suggestion ++ "'?)"
    | none => ""

/-- What can be wrong with a graph or with a change to it. -/
inductive GraphError where
  | duplicateName (name : String)
  | unknownRule (id : RuleId)
  | unknownName (name : String)
  | missingReferences (missing : List MissingReference)
  /-- A rule repeats without bound what can match without consuming anything. -/
  | nullableRepetition (rule : String)
  deriving DecidableEq

namespace GraphError

def message : GraphError → String
  | duplicateName name => s!"duplicate rule name '{name}'"
  | unknownRule id => s!"rule {id.text} is not registered in this graph"
  | unknownName name => s!"no rule named '{name}'"
  | missingReferences missing =>
    "unresolved references: " ++ ", ".intercalate (missing.map MissingReference.text)
  | nullableRepetition rule =>
    s!"rule '{rule}' repeats without bound a sub-rule that can match without consuming input"

/-- The names an error reports as missing. -/
def missingNames : GraphError → List String
  | missingReferences missing => missing.map (·.name)
  | _ => []

end GraphError

/-- The rules of one matching phase over elements of type `α`. -/
structure Graph (α : Type) where
  rules : Array (Rule α) := #[]
  root : Option RuleId := none
  deriving DecidableEq

namespace Graph

variable {α : Type}

/-- The graph without rules. -/
def empty : Graph α := {}

instance : Inhabited (Graph α) := ⟨empty⟩

def size (g : Graph α) : Nat := g.rules.size

def isEmpty (g : Graph α) : Bool := g.rules.isEmpty

def contains (g : Graph α) (id : RuleId) : Bool := id.index < g.size

/-- The rule with an id. -/
def rule? (g : Graph α) (id : RuleId) : Option (Rule α) := g.rules[id.index]?

/-- What the rule with an id matches. -/
def kind? (g : Graph α) (id : RuleId) : Option (Kind α) := (g.rule? id).map (·.kind)

theorem kind?_eq_some {g : Graph α} {id : RuleId} {rule : Rule α} (h : g.rule? id = some rule) :
    g.kind? id = some rule.kind := by
  rw [kind?, h, Option.map_some]

theorem kind?_eq_none {g : Graph α} {id : RuleId} (h : g.rule? id = none) : g.kind? id = none := by
  rw [kind?, h, Option.map_none]

/-- The ids of all rules, in order. -/
def ids (g : Graph α) : List RuleId := (List.range g.size).map RuleId.mk

/-- The id of the rule with a name. -/
def idOf? (g : Graph α) (name : String) : Option RuleId :=
  (g.rules.toList.findIdx? (·.name == some name)).map RuleId.mk

/-- The name of a rule, if it has one. -/
def nameOf? (g : Graph α) (id : RuleId) : Option String := (g.rule? id).bind (·.name)

/-- Whether a rule has a name. -/
def isNamed (g : Graph α) (id : RuleId) : Bool := (g.nameOf? id).isSome

/-- How an id is shown: by the rule it belongs to, or by its number if there is no such rule. -/
def label (g : Graph α) (id : RuleId) : String :=
  match g.rule? id with
  | some rule => rule.label id
  | none => id.text

/-- The rules a rule refers to. -/
def subs (g : Graph α) (id : RuleId) : List RuleId :=
  match g.rule? id with
  | some rule => rule.kind.subs
  | none => []

theorem subs_eq {g : Graph α} {id : RuleId} {rule : Rule α} (h : g.rule? id = some rule) :
    g.subs id = rule.kind.subs := by
  rw [subs, h]

/-- Whether nodes of a rule are log entries. -/
def isLog (g : Graph α) (id : RuleId) : Bool :=
  match g.rule? id with
  | some rule => rule.kind.isLog
  | none => false

theorem isLog_of_kind? {g : Graph α} {id : RuleId} {kind : Kind α} (h : g.kind? id = some kind) :
    g.isLog id = kind.isLog := by
  obtain ⟨rule, hrule, rfl⟩ := Option.map_eq_some_iff.mp h
  rw [isLog, hrule]

/-- The named rules in the order of their ids. -/
def named (g : Graph α) : List (String × RuleId) :=
  g.ids.filterMap fun id => (g.nameOf? id).map (·, id)

/-- The names of all rules, in the order of their ids. -/
def names (g : Graph α) : List String := g.named.map (·.1)

/-- Whether some rule has this name. -/
def hasName (g : Graph α) (name : String) : Bool := (g.idOf? name).isSome

/-- Add a rule; it gets the next id.  Its name must be new and the rules it refers to must be
registered. -/
def register (g : Graph α) (rule : Rule α) : Except GraphError (RuleId × Graph α) :=
  match rule.name.filter g.hasName, rule.kind.subs.find? (!g.contains ·) with
  | some taken, _ => .error (.duplicateName taken)
  | none, some unknown => .error (.unknownRule unknown)
  | none, none => .ok (⟨g.size⟩, { g with rules := g.rules.push rule })

/-- Make a rule the one that matches start from. -/
def setRoot (g : Graph α) (id : RuleId) : Except GraphError (Graph α) :=
  if g.contains id then .ok { g with root := some id } else .error (.unknownRule id)

end Graph

end RuleScript
