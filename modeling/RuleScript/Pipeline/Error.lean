import RuleScript.Script.Error

/-!
# Errors of a pipeline

What can keep a pipeline from loading a script or from parsing a text.
-/

namespace RuleScript

/-- What a graph is for. -/
inductive Phase where
  | tokenizer
  | grammar
  deriving DecidableEq

def Phase.name : Phase → String
  | tokenizer => "tokenizer"
  | grammar => "grammar"

/-- Why a pipeline did not do what it was asked for. -/
inductive PipelineError where
  | compile (failure : CompileFailure)
  /-- There is no source for a path at any of the places it was looked for. -/
  | includeNotFound (path : String) (searched : List String)
  /-- A file is there, but what it holds is no text. -/
  | notText (file : String)
  | aborted (abort : Abort)
  | notLoaded (phase : Phase)
  /-- Warnings were not wanted. -/
  | rejected (diagnostics : List Diagnostic)
  deriving DecidableEq

/-- The message about bytes that are no text. -/
def notTextMessage : String := "stream did not contain valid UTF-8"

def PipelineError.message : PipelineError → String
  | compile failure => failure.message
  | includeNotFound path searched =>
    s!"include '{path}' not found in search paths {quoteList searched}"
  | notText file => s!"failed to read '{file}': {notTextMessage}"
  | aborted abort => abort.message
  | notLoaded phase => s!"no {phase.name} graph has been loaded"
  | rejected diagnostics =>
    s!"parse reported {diagnostics.length} problem(s)\n" ++
      indentedLines (diagnostics.map (·.text))

end RuleScript
