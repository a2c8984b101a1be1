import RuleScript.CommandLine.Arguments
import RuleScript.CommandLine.Files
import RuleScript.CommandLine.JsonValue
import RuleScript.Graph.Dot
import RuleScript.Graph.Metrics
import RuleScript.Pipeline.Listing

/-!
# Commands

What each command does with the files it is given: it loads the scripts, reads the input if it
takes one, and reports.  A command may also succeed in reporting that a text is not well formed.
-/

namespace RuleScript.CommandLine

/-- What a command has to say, and whether all was well. -/
structure Report where
  output : String
  success : Bool
  /-- The file the output is meant for, if it is for one. -/
  target : Option String := none
  deriving DecidableEq

/-- Why a command has nothing to report. -/
inductive CommandError where
  | usage (error : UsageError)
  | pipeline (error : PipelineError)
  | read (error : ReadError)
  deriving DecidableEq

def CommandError.message : CommandError → String
  | usage error => error.message
  | pipeline error => error.message
  | read error => error.message

/-! ## Reports in JSON -/

def Severity.title : Severity → String
  | .debug => "Debug"
  | .info => "Info"
  | .warning => "Warning"
  | .error => "Error"
  | .fatal => "Fatal"

def spanValue (s : Span) : JsonValue := .object [("len", .number s.len), ("start", .number s.start)]

def locationValue (l : Location) : JsonValue :=
  .object [("column", .number l.column), ("line", .number l.line), ("span", spanValue l.span)]

def diagnosticValue (d : Diagnostic) : JsonValue :=
  .object [("location", locationValue d.location), ("message", .text d.message),
    ("severity", .text (Severity.title d.severity))]

def parseValue (grammar : Graph RuleId) (output : ParseOutput) : JsonValue :=
  .object [("diagnostics", .array (output.diagnostics.map diagnosticValue)),
    ("success", .bool output.success), ("tokens", .number output.tokens.tokens.size),
    ("tree", .text (Node.forestExpression grammar.label output.nodes))]

def metricsValue (phase : Phase) (m : Metrics) : JsonValue :=
  .object [("logs", .number m.logs), ("max_alternatives", .number m.maxAlternatives),
    ("named", .number m.named), ("nullable", .number m.nullable), ("phase", .text phase.name),
    ("reachable", .number m.reachable), ("references", .number m.references),
    ("rules", .number m.rules), ("unresolved", .number m.unresolved)]

/-! ## Running -/

namespace Invocation

variable (i : Invocation) (files : Files)

/-- A step of a command that may fail as a pipeline does. -/
def orFail {β : Type} : Except PipelineError β → Except CommandError β
  | .ok v => .ok v
  | .error error => .error (.pipeline error)

/-- The tokenizer, the grammar if one was asked for, and the pipeline that holds them. -/
def load : Except CommandError Pipeline := do
  let p : Pipeline :=
    { settings :=
        { failOnWarning := i.command = .parse && i.failOnWarning
          maxDepth := i.maxDepth }
      loader := files.loader i.searchPaths }
  let (_, p) ← orFail (p.loadTokenizer (p.file i.tokenizer)).1
  match i.grammar with
  | none => return p
  | some grammar =>
    let (_, p) ← orFail (p.loadGrammar (p.file grammar)).1
    return p

/-- The text of the input. -/
def readInput : Except CommandError String :=
  match files.read (i.input.getD "") with
  | .ok text => .ok text
  | .error error => .error (.read error)

/-- List the tokens of the input, and where they stop if that is too early. -/
def runTokens : Except CommandError Report := do
  let p ← i.load files
  let text ← i.readInput files
  let tokenizer ← orFail p.loadedTokenizer
  let t ← orFail (p.tokenize text).1
  let consumed := t.tokens.len == t.chars.size
  let ending := if consumed then "" else s!"stopped at character {t.tokens.len}\n"
  return { output := t.listing tokenizer ++ ending, success := consumed }

/-- Parse the input. -/
def runParse : Except CommandError Report := do
  let p ← i.load files
  let text ← i.readInput files
  let output ← orFail (p.parse text).1
  let grammar ← orFail p.loadedGrammar
  let report := match i.format with
    | .tree => output.outline grammar text ++ Diagnostic.listing output.diagnostics
    | .json => (parseValue grammar output).document
  return { output := report, success := output.success }

/-- Report the metrics of the graphs. -/
def runCheck : Except CommandError Report := do
  let p ← i.load files
  let metrics :=
    (p.tokenizer.map fun g => (Phase.tokenizer, g.metrics)).toList ++
      (p.grammar.map fun g => (Phase.grammar, g.metrics)).toList
  let report := match i.format with
    | .tree => String.join (metrics.map fun (phase, m) => s!"{phase.name}: {m.summary}\n")
    | .json => (JsonValue.array (metrics.map fun (phase, m) => metricsValue phase m)).document
  return { output := report, success := true }

/-- Draw the grammar, or else the tokenizer. -/
def runGraph : Except CommandError Report := do
  let p ← i.load files
  let tokenizer ← orFail p.loadedTokenizer
  let drawing := match p.grammar with
    | some grammar => grammar.dot
    | none => tokenizer.dot
  return { output := drawing, success := true, target := i.output }

/-- Do what a command line asks for. -/
def run : Except CommandError Report :=
  match i.command with
  | .tokens => i.runTokens files
  | .parse => i.runParse files
  | .check => i.runCheck files
  | .graph => i.runGraph files

/-- The path that has to be looked up before more can come of a command than this. -/
def awaited? (snapshot : Snapshot) : Except CommandError Report → Option String
  | .error (.pipeline (.notText path)) => snapshot.unseen? path
  | .error (.read .notText) => i.input.bind snapshot.unseen?
  | _ => none

end Invocation

/-- Do what a command line asks for, if it asks for something. -/
def run (files : Files) (arguments : List String) : Except CommandError Report :=
  match Invocation.ofArguments arguments with
  | .ok invocation => invocation.run files
  | .error error => .error (.usage error)

end RuleScript.CommandLine
