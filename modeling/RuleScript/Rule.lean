import RuleScript.Severity

/-!
# Rules

A rule says what it matches (its `Kind`), which part of the tree it leaves behind (its `Pruning`)
and, as an operator, how tightly it binds (its `Precedence`).  Rules refer to each other by
`RuleId`, their position in the graph that holds them, so recursion needs no pointers.
-/

namespace RuleScript

/-- The position of a rule in its graph. -/
structure RuleId where
  index : Nat
  deriving DecidableEq, Inhabited

namespace RuleId

/-- Stands for a rule that could not be registered; no graph is large enough to hold it. -/
def invalid : RuleId := ⟨4294967295⟩

/-- An id is shown as its number after a hash sign. -/
def text (id : RuleId) : String := "#" ++ toString id.index

end RuleId

/-! ## Elements -/

/-- What a graph can match over.  Elements are told apart and ordered by a number each has. -/
class Element (α : Type) where
  decEq : DecidableEq α
  code : α → Nat
  code_injective : ∀ {a b : α}, code a = code b → a = b

attribute [reducible, instance] Element.decEq

instance : Element Char where
  decEq := inferInstance
  code := Char.toNat
  code_injective h := Char.toNat_inj.mp h

instance : Element RuleId where
  decEq := inferInstance
  code := RuleId.index
  code_injective {a b} h := by
    cases a
    cases b
    exact congrArg RuleId.mk h

/-- The elements of a list in increasing order, each once. -/
def Element.sortedSet {α : Type} [Element α] (elements : List α) : List α :=
  (elements.mergeSort fun a b => code a ≤ code b).eraseReps

/-! ## Pruning -/

/-- Which part of a rule's result its parent sees. -/
inductive Pruning where
  /-- The rule's own node with its children. -/
  | none
  /-- The children, in the place of the node. -/
  | root
  /-- Nothing. -/
  | all
  /-- The node without its children. -/
  | children
  deriving DecidableEq, Inhabited

namespace Pruning

/-- What a script writes in front of a rule to prune it. -/
def marker? : Pruning → Option String
  | .none => Option.none
  | .root => some "-r"
  | .all => some "-a"
  | .children => some "-c"

/-- The pruning a marker stands for. -/
def ofMarker? (marker : String) : Option Pruning :=
  [root, all, children].find? (·.marker? == some marker)

end Pruning

/-! ## Precedence -/

/-- How tightly an operator binds: a whole number of 32 bits with a sign. -/
structure Precedence where
  value : Int
  lowest_le : -2147483648 ≤ value := by decide
  le_highest : value ≤ 2147483647 := by decide
  deriving DecidableEq

namespace Precedence

instance : Inhabited Precedence := ⟨⟨0, by decide, by decide⟩⟩

/-- The precedence of a rule that states none. -/
def zero : Precedence := ⟨0, by decide, by decide⟩

/-- The loosest precedence. -/
def lowest : Precedence := ⟨-2147483648, by decide, by decide⟩

/-- The precedence of a number, if it is in range. -/
def ofInt? (n : Int) : Option Precedence :=
  if h : -2147483648 ≤ n ∧ n ≤ 2147483647 then some ⟨n, h.1, h.2⟩ else none

instance : LE Precedence := ⟨fun p q => p.value ≤ q.value⟩

instance (p q : Precedence) : Decidable (p ≤ q) := inferInstanceAs (Decidable (p.value ≤ q.value))

/-- The next tighter precedence; the tightest is its own successor. -/
def next (p : Precedence) : Precedence :=
  if h : p.value < 2147483647 then ⟨p.value + 1, by have := p.lowest_le; omega, by omega⟩ else p

end Precedence

/-! ## Kinds of rules -/

/-- What a rule matches.  A `max` of zero means "without bound". -/
inductive Kind (α : Type) where
  /-- At least `min` elements of any value, and as many as there are up to `max`. -/
  | any (min max : Nat)
  /-- This element. -/
  | single (value : α)
  /-- One of these elements. -/
  | set (values : List α)
  /-- One element from `lo` to `hi`, both included. -/
  | range (lo hi : α)
  /-- These elements, one after the other. -/
  | literal (values : List α)
  /-- All of these rules, one after the other. -/
  | sequence (subs : List RuleId)
  /-- The first of these rules that matches. -/
  | oneOf (subs : List RuleId)
  /-- A rule as often as it matches, at least `min` and at most `max` times. -/
  | count (sub : RuleId) (min max : Nat)
  /-- Nothing, where the rule does not match. -/
  | not (sub : RuleId)
  /-- Nothing, where the rule matches. -/
  | condition (sub : RuleId)
  /-- Everything up to the first match of `stop`, and that match too unless `stopBefore`. -/
  | skip (stop : RuleId) (stopBefore failOnEnd : Bool)
  /-- Nothing; leaves a log entry if the guard, where there is one, matches. -/
  | log (level : Severity) (message : String) (guard : Option RuleId)
  /-- What the rule matches; entering and leaving are recorded. -/
  | breakpoint (sub : RuleId)
  /-- A chain of operands and operators, folded by precedence. -/
  | evaluation (alternatives : List RuleId)
  /-- What the rule named `target` matches, once it has been found. -/
  | reference (target : String) (subject : Option RuleId)
  deriving DecidableEq

namespace Kind

variable {α : Type}

/-- The rules a kind refers to, in the order of declaration. -/
def subs : Kind α → List RuleId
  | any .. | single _ | set _ | range .. | literal _ => []
  | sequence subs | oneOf subs | evaluation subs => subs
  | count sub .. | not sub | condition sub | breakpoint sub | skip sub .. => [sub]
  | log _ _ guard => guard.toList
  | reference _ subject => subject.toList

/-- The kind with every rule it refers to replaced. -/
def mapSubs (f : RuleId → RuleId) : Kind α → Kind α
  | any min max => any min max
  | single value => single value
  | set values => set values
  | range lo hi => range lo hi
  | literal values => literal values
  | sequence subs => sequence (subs.map f)
  | oneOf subs => oneOf (subs.map f)
  | count sub min max => count (f sub) min max
  | not sub => not (f sub)
  | condition sub => condition (f sub)
  | skip stop stopBefore failOnEnd => skip (f stop) stopBefore failOnEnd
  | log level message guard => log level message (guard.map f)
  | breakpoint sub => breakpoint (f sub)
  | evaluation alternatives => evaluation (alternatives.map f)
  | reference target subject => reference target (subject.map f)

theorem subs_mapSubs (f : RuleId → RuleId) (kind : Kind α) :
    (kind.mapSubs f).subs = kind.subs.map f := by
  cases kind with
  | log level message guard => cases guard <;> rfl
  | reference target subject => cases subject <;> rfl
  | _ => rfl

@[simp] theorem mapSubs_id (kind : Kind α) : kind.mapSubs id = kind := by
  cases kind <;> simp [mapSubs]

/-- The short name of a kind. -/
def name : Kind α → String
  | any .. => "any"
  | single _ => "single"
  | set _ => "set"
  | range .. => "range"
  | literal _ => "literal"
  | sequence _ => "sequence"
  | oneOf _ => "one_of"
  | count .. => "count"
  | not _ => "not"
  | condition _ => "condition"
  | skip .. => "skip"
  | log .. => "log"
  | breakpoint _ => "breakpoint"
  | evaluation _ => "evaluation"
  | reference .. => "reference"

/-- Whether rules of this kind look at elements and at no other rule. -/
def isTerminal : Kind α → Bool
  | any .. | single _ | set _ | range .. | literal _ => true
  | _ => false

/-- Whether rules of this kind pass on what their rules leave, with no node of their own. -/
def isTransparent : Kind α → Bool
  | reference .. | condition _ | breakpoint _ | evaluation _ => true
  | _ => false

def isLog : Kind α → Bool
  | log .. => true
  | _ => false

/-- The name a reference asks for as long as it points at no rule. -/
def pending? : Kind α → Option String
  | reference target none => some target
  | _ => none

/-- The rule that a reference or a breakpoint stands for. -/
def subject? : Kind α → Option RuleId
  | reference _ subject => subject
  | breakpoint sub => some sub
  | _ => none

/-- A set with its elements in order. -/
def setOf [Element α] (values : List α) : Kind α := set (Element.sortedSet values)

/-- One element of any value. -/
def anyOne : Kind α := any 1 1

/-- At most one match. -/
def optional (sub : RuleId) : Kind α := count sub 0 1

/-- Everything in front of the first match of `stop`, which there has to be. -/
def find (stop : RuleId) : Kind α := skip stop true true

/-- The characters of a text, one after the other. -/
def text (text : String) : Kind Char := literal text.toList

end Kind

/-! ## Rules -/

/-- A rule of a graph, or one about to be added to it. -/
structure Rule (α : Type) where
  name : Option String := none
  pruning : Pruning := .none
  precedence : Precedence := .zero
  kind : Kind α
  deriving DecidableEq

namespace Rule

variable {α : Type}

/-- A rule with no name, which prunes nothing and states no precedence. -/
def ofKind (kind : Kind α) : Rule α := { kind := kind }

def named (name : String) (rule : Rule α) : Rule α := { rule with name := some name }

def pruned (pruning : Pruning) (rule : Rule α) : Rule α := { rule with pruning := pruning }

def withPrecedence (precedence : Precedence) (rule : Rule α) : Rule α :=
  { rule with precedence := precedence }

/-- The rule with every rule it refers to replaced. -/
def mapSubs (f : RuleId → RuleId) (rule : Rule α) : Rule α :=
  { rule with kind := rule.kind.mapSubs f }

/-- How the rule with this id is shown: its name, or its kind and its id. -/
def label (id : RuleId) (rule : Rule α) : String :=
  rule.name.getD (rule.kind.name ++ id.text)

end Rule

end RuleScript
