import RuleScript.Diagnostic
import RuleScript.Rule

/-!
# The journal

Matching, compiling and editing graphs leave records behind, for whoever wants to follow what went
on.  An event is one such record; a journal is the list of them in order.  Nothing depends on a
journal but what is shown of it.
-/

namespace RuleScript

/-- Something worth recording.  Rules are given as they are shown. -/
inductive Event where
  /-- A match asked for a rule that the graph does not have. -/
  | unknownRule (id : RuleId)
  | breakpointEntered (breakpoint : String) (pos : Nat) (subject : String)
  | breakpointLeft (breakpoint : String) (pos : Nat) (matched : Bool) (len : Nat)
  /-- A repetition without bound came to a match that consumes nothing, and failed. -/
  | emptyRepetition (rule : String) (pos : Nat)
  /-- A log rule left an entry. -/
  | logged (severity : Severity) (rule : String) (span : Span) (message : String)
  | breakpointSet (rule : String)
  | breakpointCleared (rule : String)
  | merged (added shadowed : Nat)
  /-- A script was found wanting. -/
  | diagnosed (diagnostic : Diagnostic)
  | compiled (unit : String) (rules includes diagnostics errors : Nat)
  | included (source unit : String) (added shadowed : Nat)
  | circularInclude (path unit : String)
  /-- A new tokenizer came in the place of one that a grammar was loaded for. -/
  | grammarDropped
  | parsed (chars tokens : Nat) (success : Bool) (diagnostics : Nat)
  deriving DecidableEq

namespace Event

def level : Event → Level
  | unknownRule _ => .error
  | emptyRepetition .. | circularInclude .. => .warn
  | breakpointEntered .. | breakpointLeft .. => .trace
  | _ => .debug

def message : Event → String
  | unknownRule id => s!"rule {id.text} is not part of the graph being matched"
  | breakpointEntered breakpoint pos subject =>
    s!"breakpoint {breakpoint} at {pos}: entering {subject}"
  | breakpointLeft breakpoint pos matched len =>
    s!"breakpoint {breakpoint} at {pos}: success={matched} len={len}"
  | emptyRepetition rule pos =>
    s!"unbounded repetition {rule} matched an empty span at {pos}; failing"
  | logged severity rule span message =>
    s!"{severity.keyword} logged by {rule} at {span.text}: {message}"
  | breakpointSet rule => s!"breakpoint set on '{rule}'"
  | breakpointCleared rule => s!"breakpoint cleared on '{rule}'"
  | merged added shadowed => s!"merged {added} rules, {shadowed} shadowed by existing names"
  | diagnosed diagnostic => s!"script diagnostic {diagnostic.text}"
  | compiled unit rules includes diagnostics errors =>
    s!"compiled {unit}: {rules} rules, {includes} includes, {diagnostics} diagnostics, " ++
    s!"{errors} errors"
  | included source unit added shadowed =>
    s!"included {source} into {unit}: {added} rules added, {shadowed} shadowed"
  | circularInclude path unit => s!"circular include of '{path}' from {unit}"
  | grammarDropped => "tokenizer replaced, grammar dropped"
  | parsed chars tokens success diagnostics =>
    s!"parsed {chars} chars into {tokens} tokens: success={success}, {diagnostics} diagnostics"

end Event

/-- What was recorded, in order. -/
abbrev Journal := Array Event

end RuleScript
