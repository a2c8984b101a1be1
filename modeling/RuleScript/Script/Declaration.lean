import RuleScript.Script.Error
import RuleScript.Script.Expression
import RuleScript.Script.Terminal
import RuleScript.Text.Literal

/-!
# From expressions to rules

An expression becomes a rule, and each expression inside it a rule without a name, registered
before the rule it is part of.  A declaration becomes one named rule.  Names are left as pending
references, because they may be declared later or in an included script.
-/

namespace RuleScript.Script

/-- A computation that adds rules to a graph.  What was added before an error stays. -/
abbrev Declaring (α β : Type) := ExceptT CompileError (StateM (Graph α)) β

/-- Register a rule. -/
def register {α : Type} (rule : Rule α) : Declaring α RuleId := do
  match (← get).register rule with
  | .ok (id, graph) =>
    set graph
    return id
  | .error error => throw (.graph error)

/-- The pruning of a rule inside another one that has no marker: what would only be structure
gives way to its children, and terminals leave nothing. -/
def defaultPruning {α : Type} (kind : Kind α) : Pruning :=
  match kind with
  | .sequence _ | .oneOf _ | .count .. | .skip .. => .root
  | _ => if kind.isTerminal then .all else .none

/-- The number that decimal digits stand for. -/
def decimal (digits : String) : Nat :=
  digits.toList.foldl (fun n digit => 10 * n + (digit.toNat - '0'.toNat)) 0

/-- The largest count that can be written. -/
def maxCount : Nat := 18446744073709551615

section Values

/-! ## Values of lexemes -/

variable (rule : String)

/-- An error in the rule of that name. -/
def invalid {β : Type} (message : String) (location : Location) : Except CompileError β :=
  .error (.invalidRule rule message location)

/-- The text of a string literal. -/
def textOf (literal : Lexeme) : Except CompileError String :=
  match literalValue literal.text with
  | .ok text => .ok text
  | .error error => invalid rule error.message literal.location

/-- The value of a count. -/
def countOf (digits : Lexeme) : Except CompileError Nat :=
  let count := decimal digits.text
  if count ≤ maxCount then .ok count
  else invalid rule s!"integer '{digits.text}' is out of range" digits.location

/-- The least and the greatest number of repetitions; a greatest number of zero is none. -/
def boundsOf : RepetitionForm → Except CompileError (Nat × Nat)
  | .star => .ok (0, 0)
  | .plus => .ok (1, 0)
  | .question => .ok (0, 1)
  | .exactly times location => do
    let times ← countOf rule times
    if times = 0 then invalid rule "repetition count [0] never matches anything" location
    else .ok (times, times)
  | .atLeast min => do return (← countOf rule min, 0)
  | .between min max location => do
    let min ← countOf rule min
    let max ← countOf rule max
    if max = 0 then invalid rule "repetition upper bound must be positive" location
    else if max < min then invalid rule s!"repetition bounds [{min}..{max}] are reversed" location
    else .ok (min, max)

/-- An item of a set. -/
def itemOf : ItemForm → Except CompileError SetItem
  | .one literal => .text <$> textOf rule literal
  | .range lo hi => do return .range (← textOf rule lo) (← textOf rule hi)

/-- The items of a set. -/
def itemsOf (items : List ItemForm) : Except CompileError (List SetItem) := items.mapM (itemOf rule)

/-- What a terminal of a script stands for. -/
def terminalOf {α : Type} (location : Location) (terminal : Except TerminalError (Kind α)) :
    Except CompileError (Kind α) :=
  match terminal with
  | .ok kind => .ok kind
  | .error error => invalid rule error.message location

/-- The precedence of a header. -/
def precedenceOf (header : Header) : Except CompileError Precedence :=
  match header.precedence with
  | none => .ok .zero
  | some digits =>
    match Precedence.ofInt? (decimal digits.text) with
    | some precedence => .ok precedence
    | none => invalid header.name s!"precedence '{digits.text}' is out of range" digits.location

end Values

section Rules

/-! ## Rules -/

variable {α : Type} (terminals : Terminals α) (rule : String)

/-- A rule yet to be registered, with the pruning a marker asks for if it has one. -/
abbrev Draft (α : Type) := Kind α × Option Pruning

/-- Register a draft as a rule without a name. -/
def registerDraft (draft : Draft α) : Declaring α RuleId :=
  register { pruning := draft.2.getD (defaultPruning draft.1), kind := draft.1 }

/-- Whether and where a skip stops before its end, and whether it fails at the end of input. -/
def skipOf (stop : RuleId) : SkipForm → Kind α
  | .find => .find stop
  | .stopAt => .skip stop true false
  | .stopAfter => .skip stop false false

mutual

/-- The rule that an expression stands for; the rules inside it are registered. -/
def draft : Expression → Declaring α (Draft α)
  | .name name => return (.reference name none, none)
  | .string literal => do
    let text ← textOf rule literal
    return (← terminalOf rule literal.location (terminals.literal text), none)
  | .set items location => do
    let items ← itemsOf rule items
    return (← terminalOf rule location (terminals.set items), none)
  | .dot => return (.anyOne, none)
  | .sequence parts => return (.sequence (← registerAll parts), none)
  | .choice alternatives => return (.oneOf (← registerAll alternatives), none)
  | .evaluation alternatives => return (.evaluation (← registerAll alternatives), none)
  | .repetition form operand => do
    let (min, max) ← boundsOf rule form
    return (.count (← draft operand >>= registerDraft) min max, none)
  | .not operand => return (.not (← draft operand >>= registerDraft), none)
  | .condition operand => return (.condition (← draft operand >>= registerDraft), none)
  | .skip form operand => return (skipOf (← draft operand >>= registerDraft) form, none)
  | .log severity message => return (.log severity (← textOf rule message) none, none)
  | .logIf severity message guard => do
    let message ← textOf rule message
    return (.log severity message (some (← draft guard >>= registerDraft)), none)
  | .pruned pruning operand => return ((← draft operand).1, some pruning)

/-- Register expressions in order, each as a rule without a name. -/
def registerAll : List Expression → Declaring α (List RuleId)
  | [] => return []
  | expression :: rest => do
    let id ← draft expression >>= registerDraft
    return id :: (← registerAll rest)

end

/-- Register a declared rule.  Where both header and body have a marker, the body becomes a rule
of its own, and the declared rule refers to it and prunes what is left of it. -/
def declare (header : Header) (precedence : Precedence) (body : Draft α) : Declaring α RuleId :=
  match header.pruning, body.2 with
  | some outer, some inner => do
    let id ← register { pruning := inner, kind := body.1 }
    let target := (← get).label id
    register
      { name := some header.name
        pruning := outer
        precedence := precedence
        kind := .reference target (some id) }
  | outer, inner =>
    register
      { name := some header.name
        pruning := (outer.or inner).getD .none
        precedence := precedence
        kind := body.1 }

end Rules

end RuleScript.Script
