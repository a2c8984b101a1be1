import RuleScript.Graph.Nullable
import RuleScript.Graph.Resolve
import RuleScript.Script.Declaration
import RuleScript.Script.Statement

/-!
# Compiling scripts

A script is split into tokens, matched by the script grammar and read statement by statement.  The
rules it declares are added to the graph that its terminals start from, and the first rule it
declares is the root.  Log entries become diagnostics; serious ones are errors, and a script with
errors does not compile.  Includes are only listed: the rules of a unit are complete, and can be
resolved, once its includes have been merged.
-/

namespace RuleScript

/-- An include of a script. -/
structure Include where
  path : String
  location : Location
  deriving DecidableEq

/-- A compiled script before its includes are merged. -/
structure CompiledUnit (α : Type) where
  graph : Graph α
  includes : List Include
  diagnostics : List Diagnostic
  deriving DecidableEq

/-- A complete graph, with what there was to say about its scripts. -/
structure Compilation (α : Type) where
  graph : Graph α
  diagnostics : List Diagnostic
  deriving DecidableEq

/-- Resolve and validate a unit that is complete. -/
def CompiledUnit.finish {α : Type} (compiled : CompiledUnit α) (unit : String) :
    Except CompileFailure (Compilation α) :=
  let (resolved, graph) := compiled.graph.resolve
  let errorOf (result : Except GraphError Unit) : List CompileError :=
    match result with
    | .ok () => []
    | .error error => [.graph error]
  match errorOf resolved ++ errorOf graph.validate with
  | [] => .ok ⟨graph, compiled.diagnostics⟩
  | errors => .error ⟨unit, errors⟩

namespace Script

/-- How far the statements of a script have been compiled. -/
structure Progress (α : Type) where
  graph : Graph α
  /-- The rule that was declared last, or was begun to be. -/
  rule : String := ""
  root : Option RuleId := none
  includes : List Include := []
  errors : List CompileError := []

namespace Progress

variable {α : Type} (terminals : Terminals α) (p : Progress α)

def fail (error : CompileError) : Progress α := { p with errors := p.errors ++ [error] }

/-- Note an include. -/
def includeFile (path : Lexeme) (location : Location) : Progress α :=
  match textOf p.rule path with
  | .ok path => { p with includes := p.includes ++ [⟨path, location⟩] }
  | .error error => p.fail error

/-- Declare a rule. -/
def declareRule (header : Header) (body : Expression) : Progress α :=
  match precedenceOf header with
  | .error error => p.fail error
  | .ok precedence =>
    let declaring : Declaring α RuleId := do
      declare header precedence (← draft terminals header.name body)
    let (result, graph) := declaring.run.run p.graph
    let p := { p with graph := graph, rule := header.name }
    match result with
    | .ok id => { p with root := p.root.or (some id) }
    | .error error => p.fail error

/-- Let matches start from the first rule that was declared, if there is one. -/
def rooted : Progress α :=
  match p.root with
  | none => p
  | some id =>
    match p.graph.setRoot id with
    | .ok graph => { p with graph := graph }
    | .error error => p.fail (.graph error)

/-- Compile the statement of a node; log entries are none. -/
def statement (s : Scanned) (node : Node) : Progress α :=
  if grammar.isLog node.rule then p
  else
    match Part.ofNode node >>= s.statement with
    | .ok (.includeFile path location) => p.includeFile path location
    | .ok (.rule header body) => p.declareRule terminals header body
    | .error error => p.fail error

end Progress

/-- The statements in what the script grammar leaves: what is below nodes of the whole script, and
all other nodes. -/
def statementNodes (forest : List Node) : List Node :=
  forest.flatMap fun node =>
    if grammar.nodeKind? node.rule = some .script then node.children else [node]

/-- What splitting a script into tokens has to say: the log entries, and that it came to an end
too early. -/
def scanDiagnostics (s : Scanned) : List Diagnostic :=
  s.tokens.logs.map (fun log => s.diagnostic log.severity log.message log.span) ++
    if s.tokens.len < s.chars.size then
      [s.diagnostic .error "unexpected character" (.empty s.tokens.len)]
    else []

/-- What matching the script grammar has to say. -/
def matchDiagnostics (s : Scanned) (outcome : Outcome) : List Diagnostic :=
  (grammar.collectLogs outcome.nodes).map
      (fun log => s.diagnostic log.severity log.message (s.charSpan log.span)) ++
    if outcome.isSuccess ∧ s.tokens.tokens.size ≤ outcome.len then []
    else [s.diagnostic .error "could not parse script" (s.charSpan (.empty outcome.len))]

/-- A script that has been compiled as far as it goes. -/
structure Draught (α : Type) where
  graph : Graph α
  includes : List Include
  diagnostics : List Diagnostic
  errors : List CompileError

/-- The unit that a draught makes if it has no errors, with the record of it. -/
def Draught.finish {α : Type} (d : Draught α) (unit : String) :
    Except CompileFailure (CompiledUnit α) × Event :=
  (match d.errors with
    | [] => .ok ⟨d.graph, d.includes, d.diagnostics⟩
    | errors => .error ⟨unit, errors⟩,
  .compiled unit d.graph.size d.includes.length d.diagnostics.length d.errors.length)

/-- The diagnostics that are no errors. -/
def remarks (ds : List Diagnostic) : List Diagnostic := ds.filter (!·.isError)

/-- The diagnostics that are errors, as such. -/
def errorsIn (ds : List Diagnostic) : List CompileError :=
  (ds.filter (·.isError)).map .script

variable {α : Type} (terminals : Terminals α)

/-- Compile the statements of a scanned script that the grammar matched as `outcome` says. -/
def draught (s : Scanned) (outcome : Outcome) (diagnostics : List Diagnostic) : Draught α :=
  let p := (statementNodes outcome.nodes).foldl (fun p node => p.statement terminals s node)
    { graph := terminals.base, errors := errorsIn diagnostics : Progress α }
  let p := p.rooted
  { graph := p.graph
    includes := p.includes
    diagnostics := remarks diagnostics
    errors := p.errors }

/-- Split a script into tokens. -/
def scan (source : String) (limit : Nat) : Except Abort Scanned × Journal :=
  let chars := source.toList.toArray
  let (tokens, journal) := tokenizer.tokenize chars limit
  (tokens.map (⟨chars, .ofText source, ·⟩), journal)

end Script

open Script in
/-- Compile a script under the name of a unit, with rules nested `limit` deep at most. -/
def compile {α : Type} (terminals : Terminals α) (unit source : String) (limit : Nat) :
    Except CompileFailure (CompiledUnit α) × Journal :=
  match scan source limit with
  | (.error abort, journal) => (.error ⟨unit, [.aborted abort]⟩, journal)
  | (.ok s, journal) =>
    let early := scanDiagnostics s
    let journal := journal ++ early.map Event.diagnosed
    match grammar.matchRoot s.tokens.kinds limit with
    | (.error abort, trace) =>
      let d : Draught α := ⟨terminals.base, [], remarks early, errorsIn early ++ [.aborted abort]⟩
      let (result, event) := d.finish unit
      (result, (journal ++ trace.journal).push event)
    | (.ok outcome, trace) =>
      let late := matchDiagnostics s outcome
      let (result, event) := (draught terminals s outcome (early ++ late)).finish unit
      (result, (journal ++ trace.journal ++ late.map Event.diagnosed).push event)

end RuleScript
