import RuleScript.Graph.Basic
import RuleScript.Match.Outcome
import RuleScript.Script.NodeKind

/-!
# Errors of scripts

Everything that can be wrong with a script.  The errors of one script are reported together.
-/

namespace RuleScript

/-- One cause for which a script does not compile. -/
inductive CompileError where
  /-- The script grammar left a node that has no meaning. -/
  | unmappedNode (label : String) (rule : RuleId)
  /-- A node does not have the parts that nodes of its kind have. -/
  | malformedNode (kind : NodeKind) (message : String)
  | graph (error : GraphError)
  /-- Something in the rule of that name stands for nothing. -/
  | invalidRule (rule message : String) (location : Location)
  /-- The script is not well formed. -/
  | script (diagnostic : Diagnostic)
  | aborted (abort : Abort)
  deriving DecidableEq

namespace CompileError

def message : CompileError → String
  | unmappedNode label rule => s!"no builder for syntax node '{label}' produced by rule {rule.text}"
  | malformedNode kind message => s!"malformed '{kind.ruleName}' node: {message}"
  | graph error => error.message
  | invalidRule rule message location => s!"rule '{rule}': {message} at {location.text}"
  | script diagnostic => diagnostic.text
  | aborted abort => s!"script could not be parsed: {abort.message}"

/-- The names that an error reports as missing. -/
def missingNames : CompileError → List String
  | graph error => error.missingNames
  | _ => []

end CompileError

/-- Lines of a listing, each two spaces in. -/
def indentedLines (lines : List String) : String :=
  "\n".intercalate (lines.map ("  " ++ ·))

/-- All errors of a unit, which is a script or a file. -/
structure CompileFailure where
  unit : String
  errors : List CompileError
  deriving DecidableEq

namespace CompileFailure

def message (failure : CompileFailure) : String :=
  s!"failed to compile {failure.unit}: {failure.errors.length} error(s)\n" ++
    indentedLines (failure.errors.map (·.message))

/-- The names that the errors report as missing. -/
def missingNames (failure : CompileFailure) : List String :=
  failure.errors.flatMap (·.missingNames)

end CompileFailure

end RuleScript
