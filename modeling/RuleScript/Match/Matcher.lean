import RuleScript.Match.Alternative
import RuleScript.Match.Outcome

/-!
# Matching

`Graph.run` matches a rule at a position.  The first alternative that matches is taken, and
repetition takes all it can; nothing is ever tried again.  Rules may be nested as deep as a limit
allows, which is what the recursion runs on.

Each way of combining rules is a function of its own over a `sub`, which tells how the rules
inside match and hands on whatever its monad hands on.  Those that try a rule again and again run on the
room that is left in the input: a further step either consumes an element or is the last one.
-/

namespace RuleScript

/-- How deep rules may be nested unless something else is asked for. -/
def defaultMaxDepth : Nat := 512

namespace Match

section Combinations

/-! ## Combinations -/

variable {m : Type → Type} [Monad m] (sub : RuleId → Nat → m Outcome)

/-- All rules one after the other, given what those before them consumed and left. -/
def inSequence (start : Nat) :
    (subs : List RuleId) → (len : Nat) → (nodes : Array Node) → m Outcome
  | [], len, nodes => pure (.success len nodes.toList)
  | id :: ids, len, nodes => do
    match ← sub id (start + len) with
    | .failure => pure .failure
    | .success more found => inSequence start ids (len + more) (nodes ++ found)

/-- The first rule that matches. -/
def firstOf (start : Nat) : (subs : List RuleId) → m Outcome
  | [] => pure .failure
  | id :: ids => do
    match ← sub id start with
    | .failure => firstOf start ids
    | .success len nodes => pure (.success len nodes)

/-- The end of a repetition that matched `reps` times. -/
def enough (min reps len : Nat) (nodes : Array Node) : Outcome :=
  if reps < min then .failure else .success len nodes.toList

/-- One more repetition, given those so far; `again` goes on from there.  One that consumes nothing
is the last: it fills the count up where there is a bound, and makes the repetition fail where
there is none. -/
def repetition [Traced m] (label : String) (id : RuleId) (min max start : Nat)
    (again : (reps len : Nat) → (nodes : Array Node) → m Outcome) (reps len : Nat)
    (nodes : Array Node) : m Outcome := do
  if max ≠ 0 ∧ max ≤ reps then
    pure (enough min reps len nodes)
  else
    match ← sub id (start + len) with
    | .failure => pure (enough min reps len nodes)
    | .success 0 found =>
      if max = 0 then
        Traced.record (.emptyRepetition label (start + len))
        pure .failure
      else
        pure (enough min (Nat.max (reps + 1) min) len (nodes ++ found))
    | .success more found => again (reps + 1) (len + more) (nodes ++ found)

/-- A rule as often as it matches, given the repetitions so far. -/
def repeated [Traced m] (label : String) (id : RuleId) (min max start : Nat) :
    (room reps len : Nat) → (nodes : Array Node) → m Outcome
  | 0 => repetition sub label id min max start fun reps len nodes =>
      pure (enough min reps len nodes)
  | room + 1 => repetition sub label id min max start (repeated label id min max start room)

/-- A match of `stop` after some elements were passed over, or `beyond` where there is none. -/
def stopOr (stop : RuleId) (stopBefore : Bool) (start passed : Nat) (beyond : m Outcome) :
    m Outcome := do
  match ← sub stop (start + passed) with
  | .success len nodes =>
    pure (if stopBefore then .success passed [] else .success (passed + len) nodes)
  | .failure => beyond

/-- Everything up to a match of `stop`, given how much was passed over already. -/
def skipTo (stop : RuleId) (stopBefore failOnEnd : Bool) (start : Nat) :
    (room passed : Nat) → m Outcome
  | 0, passed =>
    stopOr sub stop stopBefore start passed
      (pure (if failOnEnd then .failure else .success passed []))
  | room + 1, passed =>
    stopOr sub stop stopBefore start passed
      (skipTo stop stopBefore failOnEnd start room (passed + 1))

end Combinations

section Chains

/-! ## Operator chains -/

/-- What the chains of an evaluation are made of. -/
structure ChainForm where
  /-- The rules an operand may come from. -/
  operands : List RuleId
  operators : List BinaryOperator
  /-- Whether a right operand may be any operand of the chain. -/
  isOpen : RuleId → Bool

/-- The form of the chains of an evaluation with some alternatives. -/
def ChainForm.ofEvaluation {α : Type} (g : Graph α) (evaluation : RuleId)
    (alternatives : List RuleId) : ChainForm :=
  let alternatives := alternatives.map g.classify
  { operands := (alternatives.map (·.operandRule)).filter (!g.leadsTo · evaluation)
    operators := alternatives.filterMap (·.binary?)
    isOpen := (g.leadsTo · evaluation) }

variable {m : Type → Type} [Monad m] (sub : RuleId → Nat → m Outcome) (form : ChainForm)

/-- The right operand of an operator. -/
def rightOperand (operator : BinaryOperator) (start : Nat) : m Outcome :=
  if form.isOpen operator.right then firstOf sub start form.operands
  else sub operator.right start

/-- The first operator that matches with its right operand; the two may not both be empty. -/
def nextLink (start : Nat) : (operators : List BinaryOperator) → m (Option Link)
  | [] => pure none
  | operator :: rest => do
    match ← sub operator.operator start with
    | .failure => nextLink start rest
    | .success len nodes =>
      match ← rightOperand sub form operator (start + len) with
      | .failure => nextLink start rest
      | .success len' nodes' =>
        if len + len' = 0 then nextLink start rest
        else pure (some ⟨operator, nodes, ⟨⟨start + len, len'⟩, nodes'⟩⟩)

/-- Add links at `pos` as long as there are any. -/
def extend (room pos : Nat) (links : Array Link) : m (Array Link) := do
  match ← nextLink sub form pos form.operators with
  | none => pure links
  | some link =>
    match room with
    | 0 => pure links
    | room + 1 => extend room link.right.span.stop (links.push link)

/-- A chain, folded by precedence. -/
def chain {α : Type} (g : Graph α) (size start : Nat) : m Outcome := do
  match ← firstOf sub start form.operands with
  | .failure => pure .failure
  | .success len nodes =>
    let first : Operand := ⟨⟨start, len⟩, nodes⟩
    let links ← extend sub form (size - start) (start + len) #[]
    let folded := (ChainTree.ofChain first links.toList).fold g
    pure (.success (folded.span.stop - start) folded.nodes)

end Chains

section Terminals

/-! ## Terminals -/

variable {m : Type → Type} [Monad m] [Traced m] {α : Type} [Element α] (input : Array α)

/-- One element that passes a test. -/
def element (id : RuleId) (test : α → Bool) (start : Nat) : m Outcome :=
  if input[start]?.any test then pure ((Outcome.success 1 []).under id start) else Traced.miss start

/-- How many of the values are found one after the other from `start` on. -/
def agreeing : (values : List α) → (start : Nat) → Nat
  | [], _ => 0
  | value :: values, start =>
    if input[start]? = some value then agreeing values (start + 1) + 1 else 0

/-- All of the values one after the other. -/
def allOf (id : RuleId) (values : List α) (start : Nat) : m Outcome :=
  let agreed := agreeing input values start
  if agreed = values.length then pure ((Outcome.success agreed []).under id start)
  else Traced.miss (start + agreed)

/-- At least `min` elements, and all there are up to `max`. -/
def anyOf (id : RuleId) (min max start : Nat) : m Outcome :=
  let rest := input.size - start
  if rest < min then Traced.miss input.size
  else pure ((Outcome.success (if max = 0 then rest else Nat.min rest max) []).under id start)

end Terminals

section Rules

/-! ## Rules -/

variable {m : Type → Type} [Monad m] [Traced m] [MonadExceptOf Abort m]
variable {α : Type} [Element α] (g : Graph α) (input : Array α)
variable (sub : RuleId → Nat → m Outcome)

/-- A log entry over what a guard matched at `start`; none if it did not match. -/
def entryOver (id : RuleId) (severity : Severity) (message : String) (start : Nat) :
    (guarded : Outcome) → m Outcome
  | .failure => pure (.success 0 [])
  | .success len _ =>
    if severity = .fatal then throw (.fatal message ⟨start, len⟩)
    else do
      Traced.record (.logged severity (g.label id) ⟨start, len⟩ message)
      pure (.success 0 [.leaf id ⟨start, len⟩])

/-- A log entry at `start`, over what the guard matches there if there is one. -/
def logEntry (id : RuleId) (severity : Severity) (message : String) (guard : Option RuleId)
    (start : Nat) : m Outcome :=
  match guard with
  | some guard => do entryOver g id severity message start (← sub guard start)
  | none => entryOver g id severity message start (.success 0 [])

/-- A rule between two records. -/
def throughBreakpoint (id subject : RuleId) (start : Nat) : m Outcome := do
  Traced.record (.breakpointEntered (g.label id) start (g.label subject))
  let outcome ← sub subject start
  Traced.record (.breakpointLeft (g.label id) start outcome.isSuccess outcome.len)
  pure outcome

/-- What a rule of the given kind matches at `start`, before pruning. -/
def kind (id : RuleId) (kind : Kind α) (start : Nat) : m Outcome :=
  let room := input.size - start
  match kind with
  | .any min max => anyOf input id min max start
  | .single value => element input id (· = value) start
  | .set values => element input id (values.contains ·) start
  | .range lo hi =>
    element input id (fun e => Element.code lo ≤ Element.code e && Element.code e ≤ Element.code hi)
      start
  | .literal values => allOf input id values start
  | .sequence subs => (·.under id start) <$> inSequence sub start subs 0 #[]
  | .oneOf subs => (·.under id start) <$> firstOf sub start subs
  | .count one min max =>
    (·.under id start) <$> repeated sub (g.label id) one min max start room 0 0 #[]
  | .not one => do
    match ← sub one start with
    | .failure => pure (.success 0 [])
    | .success .. => pure .failure
  | .condition one => do
    match ← sub one start with
    | .failure => pure .failure
    | .success _ nodes => pure (.success 0 nodes)
  | .skip stop stopBefore failOnEnd =>
    (·.under id start) <$> skipTo sub stop stopBefore failOnEnd start room 0
  | .log severity message guard => logEntry g sub id severity message guard start
  | .breakpoint subject => throughBreakpoint g sub id subject start
  | .evaluation alternatives =>
    chain sub (ChainForm.ofEvaluation g id alternatives) g input.size start
  | .reference target none => throw (.unresolvedReference target)
  | .reference _ (some subject) => sub subject start

/-- What a rule matches at `start`. -/
def rule (id : RuleId) (rule : Rule α) (start : Nat) : m Outcome :=
  (·.mapNodes (g.prune rule.pruning)) <$> kind g input sub id rule.kind start

end Rules

end Match

namespace Graph

variable {α : Type} [Element α]

/-- Match a rule at `start` with `depth` levels left of the `limit`. -/
def runWithin (g : Graph α) (input : Array α) (limit : Nat) :
    (depth : Nat) → (id : RuleId) → (start : Nat) → Run Outcome
  | depth, id, start =>
    match g.rule? id with
    | none => do
      Run.record (.unknownRule id)
      pure .failure
    | some rule =>
      match depth with
      | 0 => throw (.depthExceeded limit start)
      | depth + 1 => Match.rule g input (g.runWithin input limit depth) id rule start

section Depth

variable {g : Graph α} {input : Array α} {limit depth : Nat} {id : RuleId} {start : Nat}

/-- A rule that the graph does not have fails at any depth. -/
theorem runWithin_unknown (h : g.rule? id = none) :
    g.runWithin input limit depth id start = (do
      Run.record (.unknownRule id)
      pure .failure) := by
  simp only [runWithin, h]

theorem runWithin_zero {rule : Rule α} (h : g.rule? id = some rule) :
    g.runWithin input limit 0 id start = throw (.depthExceeded limit start) := by
  simp only [runWithin, h]

theorem runWithin_succ {rule : Rule α} (h : g.rule? id = some rule) :
    g.runWithin input limit (depth + 1) id start =
      Match.rule g input (g.runWithin input limit depth) id rule start := by
  simp only [runWithin, h]

end Depth

/-- Match a rule at `start` with rules nested `limit` deep at most. -/
def run (g : Graph α) (input : Array α) (limit : Nat) (id : RuleId) (start : Nat) : Run Outcome :=
  g.runWithin input limit limit id start

/-- Match the root at the start of the input. -/
def runRoot (g : Graph α) (input : Array α) (limit : Nat) : Run Outcome :=
  match g.root with
  | none => throw .missingRoot
  | some root => g.run input limit root 0

/-- The result of matching a rule with nothing on record before. -/
def matchAt (g : Graph α) (input : Array α) (limit : Nat) (id : RuleId) (start : Nat) :
    Except Abort Outcome × Trace :=
  (g.run input limit id start).result {}

/-- The result of matching the root with nothing on record before. -/
def matchRoot (g : Graph α) (input : Array α) (limit : Nat) : Except Abort Outcome × Trace :=
  (g.runRoot input limit).result {}

end Graph

end RuleScript
