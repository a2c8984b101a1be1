import RuleScript.Pipeline.Include
import RuleScript.Text.Quoted
import RuleScript.Token

/-!
# Pipelines

A pipeline holds a tokenizer and a grammar compiled from scripts, and parses texts with them.  A
grammar only makes sense over the tokens of the tokenizer it was compiled for, so a new tokenizer
drops the grammar.

A load is a `Call`: it changes the pipeline as it goes, and nothing undoes what it changed before an
error.  That what does not load leaves the pipeline as it was is owed to the order of its steps: all that
can fail comes before the first change.

A malformed text is no error: parsing it reports diagnostics.  All positions that are reported
count characters.
-/

namespace RuleScript

/-- How texts and scripts are treated. -/
structure Settings where
  /-- Whether warnings about a text make parsing it an error. -/
  failOnWarning : Bool := false
  maxDepth : Nat := defaultMaxDepth

/-- Loaded graphs, with what is needed to load others. -/
structure Pipeline where
  settings : Settings := {}
  loader : Loader
  tokenizer : Option (Graph Char) := none
  grammar : Option (Graph RuleId) := none

/-- What a text was parsed to. -/
structure ParseOutput where
  tokens : Tokenized
  /-- What the grammar left; spans count tokens. -/
  nodes : List Node
  /-- In the order of their places. -/
  diagnostics : List Diagnostic
  /-- Whether all of the text was matched and no error was reported. -/
  success : Bool
  deriving DecidableEq

namespace Pipeline

/-- The unit that a tokenizer script makes when it comes from no file. -/
def tokenizerUnit : String := "<tokenizer>"

/-- The unit that a grammar script makes when it comes from no file. -/
def grammarUnit : String := "<grammar>"

section Loading

/-! ## Loading scripts -/

variable (p : Pipeline)

def loadedTokenizer : Except PipelineError (Graph Char) :=
  match p.tokenizer with
  | some tokenizer => .ok tokenizer
  | none => .error (.notLoaded .tokenizer)

def loadedGrammar : Except PipelineError (Graph RuleId) :=
  match p.grammar with
  | some grammar => .ok grammar
  | none => .error (.notLoaded .grammar)

/-- Compile a source, unless it could not be found. -/
def compileLoaded {α : Type} (terminals : Terminals α) (source : Except PipelineError Source) :
    Except PipelineError (Compilation α) × Journal :=
  match source with
  | .ok source => compileSource p.loader terminals p.settings.maxDepth source
  | .error error => (.error error, #[])

/-- Compile a tokenizer from a source. -/
def compileTokenizer (source : Except PipelineError Source) :
    Except PipelineError (Compilation Char) × Journal :=
  p.compileLoaded charTerminals source

/-- Compile a grammar from a source, over the tokens of the loaded tokenizer. -/
def compileGrammar (source : Except PipelineError Source) :
    Except PipelineError (Compilation RuleId) × Journal :=
  match p.loadedTokenizer with
  | .ok tokenizer => p.compileLoaded (tokenTerminals tokenizer) source
  | .error error => (.error error, #[])

/-- Put a tokenizer in place; a grammar is dropped. -/
def installTokenizer (tokenizer : Graph Char) : Pipeline :=
  { p with tokenizer := some tokenizer, grammar := none }

def installGrammar (grammar : Graph RuleId) : Pipeline := { p with grammar := some grammar }

/-- A call on a pipeline.  What it changed and recorded before an error stays. -/
abbrev Call (β : Type) := ExceptT PipelineError (StateM (Pipeline × Journal)) β

namespace Call

variable {β : Type}

/-- Compile with the pipeline as it is; the call ends here if that fails. -/
def compiling (compile : Pipeline → Except PipelineError β × Journal) : Call β := fun (p, journal) =>
  let (result, recorded) := compile p
  (result, p, journal ++ recorded)

def change (f : Pipeline → Pipeline) : Call Unit := modify fun (p, journal) => (f p, journal)

def record (event : Event) : Call Unit := modify fun (p, journal) => (p, journal.push event)

/-- The answer of a call on a pipeline, the pipeline after it, and what was recorded. -/
def result (call : Call β) (p : Pipeline) : Except PipelineError β × Pipeline × Journal :=
  Id.run (StateT.run (ExceptT.run call) (p, #[]))

/-- What comes of a call for a caller to whom a pipeline is of no use after an error. -/
def loaded (call : Call β) (p : Pipeline) : Except PipelineError (β × Pipeline) × Journal :=
  let (answer, after, journal) := call.result p
  (answer.map (·, after), journal)

end Call

/-- Compile a tokenizer from a source and put it in place. -/
def callTokenizer (source : Except PipelineError Source) : Call (List Diagnostic) := do
  let compilation ← Call.compiling (·.compileTokenizer source)
  let (before, _) ← get
  Call.change (·.installTokenizer compilation.graph)
  if before.grammar.isSome then
    Call.record .grammarDropped
  return compilation.diagnostics

/-- Compile a grammar from a source and put it in place. -/
def callGrammar (source : Except PipelineError Source) : Call (List Diagnostic) := do
  let compilation ← Call.compiling (·.compileGrammar source)
  Call.change (·.installGrammar compilation.graph)
  return compilation.diagnostics

/-- The pipeline with a tokenizer from a source. -/
def loadTokenizer (source : Except PipelineError Source) :
    Except PipelineError (List Diagnostic × Pipeline) × Journal := (callTokenizer source).loaded p

/-- The pipeline with a grammar from a source. -/
def loadGrammar (source : Except PipelineError Source) :
    Except PipelineError (List Diagnostic × Pipeline) × Journal := (callGrammar source).loaded p

/-- The source that a tokenizer script makes by itself. -/
def tokenizerScript (script : String) : Except PipelineError Source := .ok ⟨tokenizerUnit, script⟩

/-- The source that a grammar script makes by itself. -/
def grammarScript (script : String) : Except PipelineError Source := .ok ⟨grammarUnit, script⟩

/-- The source at a path. -/
def file (path : String) : Except PipelineError Source := p.loader.load path

/-- A pipeline with both graphs loaded. -/
def ofScripts (loader : Loader) (tokenizer grammar : String) : Except PipelineError Pipeline := do
  let (_, p) ← (Pipeline.loadTokenizer { loader := loader } (tokenizerScript tokenizer)).1
  let (_, p) ← (p.loadGrammar (grammarScript grammar)).1
  return p

end Loading

section Parsing

/-! ## Parsing texts -/

/-- A text that was split into tokens. -/
structure TokenizedText where
  chars : Array Char
  lines : LineIndex
  tokens : Tokenized

namespace TokenizedText

variable (t : TokenizedText)

/-- A message about some characters. -/
def diagnostic (severity : Severity) (message : String) (span : Span) : Diagnostic :=
  ⟨severity, message, .ofSpan t.lines span⟩

/-- The characters that a span over tokens covers. -/
def charSpan (span : Span) : Span := t.tokens.charSpan t.chars.size span

/-- An abort of a match over tokens, told in characters. -/
def abortInChars : Abort → Abort
  | .fatal message span => .fatal message (t.charSpan span)
  | .depthExceeded limit pos => .depthExceeded limit (t.charSpan (.empty pos)).start
  | other => other

/-- What splitting the text has to say. -/
def tokenDiagnostics : List Diagnostic :=
  t.tokens.logs.map (fun log => t.diagnostic log.severity log.message log.span) ++
    match t.chars[t.tokens.len]? with
    | some c =>
      [t.diagnostic .error ("unexpected character " ++ quoteChar c) ⟨t.tokens.len, 1⟩]
    | none => []

/-- Whether the grammar matched all tokens. -/
def isComplete (outcome : Outcome) : Bool :=
  outcome.isSuccess && outcome.len == t.tokens.tokens.size

/-- The message about a token where no token was expected, or none was there. -/
def unexpectedAt (tokenizer : Graph Char) (index : Nat) : Diagnostic :=
  let message :=
    match t.tokens.tokens[index]? with
    | some token =>
      "unexpected " ++ tokenizer.label token.kind ++ " " ++ quoteText (token.text t.chars)
    | none => "unexpected end of input"
  t.diagnostic .error message (t.charSpan ⟨index, 1⟩)

/-- What matching the tokens has to say. -/
def grammarDiagnostics (tokenizer : Graph Char) (grammar : Graph RuleId) (outcome : Outcome)
    (farthest : Nat) : List Diagnostic :=
  (grammar.collectLogs outcome.nodes).map
      (fun log => t.diagnostic log.severity log.message (t.charSpan log.span)) ++
    if t.isComplete outcome then []
    else [t.unexpectedAt tokenizer (max farthest outcome.len)]

/-- Diagnostics in the order of their places. -/
def inOrder (ds : List Diagnostic) : List Diagnostic :=
  ds.mergeSort fun d e => d.location.span.start ≤ e.location.span.start

/-- What a match of the grammar comes to. -/
def output (tokenizer : Graph Char) (grammar : Graph RuleId) (outcome : Outcome)
    (farthest : Nat) : ParseOutput :=
  let diagnostics := inOrder
    (t.tokenDiagnostics ++ t.grammarDiagnostics tokenizer grammar outcome farthest)
  { tokens := t.tokens
    nodes := outcome.nodes
    diagnostics := diagnostics
    success := t.isComplete outcome && t.tokens.len == t.chars.size &&
      !Diagnostic.anyAtLeast diagnostics .error }

/-- What is recorded of it. -/
def event (output : ParseOutput) : Event :=
  .parsed t.chars.size t.tokens.tokens.size output.success output.diagnostics.length

end TokenizedText

variable (p : Pipeline)

/-- Split a text into tokens. -/
def split (tokenizer : Graph Char) (text : String) :
    Except PipelineError TokenizedText × Journal :=
  let chars := text.toList.toArray
  match tokenizer.tokenize chars p.settings.maxDepth with
  | (.ok tokens, journal) => (.ok ⟨chars, .ofText text, tokens⟩, journal)
  | (.error abort, journal) => (.error (.aborted abort), journal)

/-- Split a text into tokens with the loaded tokenizer. -/
def tokenize (text : String) : Except PipelineError TokenizedText × Journal :=
  match p.loadedTokenizer with
  | .ok tokenizer => p.split tokenizer text
  | .error error => (.error error, #[])

/-- Match the root of the loaded tokenizer, with no thought of tokens. -/
def matchTokenizer (text : String) : Except PipelineError Outcome × Journal :=
  match p.loadedTokenizer with
  | .ok tokenizer =>
    match tokenizer.matchRoot text.toList.toArray p.settings.maxDepth with
    | (.ok outcome, trace) => (.ok outcome, trace.journal)
    | (.error abort, trace) => (.error (.aborted abort), trace.journal)
  | .error error => (.error error, #[])

/-- An output as it is, or rejected for its warnings. -/
def accept (output : ParseOutput) : Except PipelineError ParseOutput :=
  if p.settings.failOnWarning && Diagnostic.anyAtLeast output.diagnostics .warning then
    .error (.rejected output.diagnostics)
  else .ok output

/-- Parse a text with two graphs. -/
def parseWith (tokenizer : Graph Char) (grammar : Graph RuleId) (text : String) :
    Except PipelineError ParseOutput × Journal :=
  match p.split tokenizer text with
  | (.error error, journal) => (.error error, journal)
  | (.ok t, journal) =>
    let (result, trace) := grammar.matchRoot t.tokens.kinds p.settings.maxDepth
    let journal := journal ++ trace.journal
    match result with
    | .error abort => (.error (.aborted (t.abortInChars abort)), journal)
    | .ok outcome =>
      match p.accept (t.output tokenizer grammar outcome trace.farthest) with
      | .ok output => (.ok output, journal.push (t.event output))
      | .error error => (.error error, journal)

/-- Parse a text with the loaded graphs. -/
def parse (text : String) : Except PipelineError ParseOutput × Journal :=
  match p.loadedTokenizer, p.loadedGrammar with
  | .ok tokenizer, .ok grammar => p.parseWith tokenizer grammar text
  | .error error, _ => (.error error, #[])
  | _, .error error => (.error error, #[])

end Parsing

end Pipeline

end RuleScript
