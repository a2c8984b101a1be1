import RuleScript.Severity
import RuleScript.Span
import RuleScript.Text.LineIndex

/-!
# Diagnostics

A diagnostic is a message about a place in a text.  Its location holds the span, in characters,
and the line and column at which the span starts, counted from one.
-/

namespace RuleScript

/-- A span of a text with the line and column of its start, counted from one. -/
structure Location where
  span : Span
  line : Nat
  column : Nat
  deriving DecidableEq, Inhabited

namespace Location

/-- The location of a span in the text with the given lines. -/
def ofSpan (index : LineIndex) (span : Span) : Location :=
  let place := index.place span.start
  ⟨span, place.line + 1, place.column + 1⟩

def text (l : Location) : String := s!"{l.line}:{l.column}"

end Location

/-- A message of some severity about a place in a text. -/
structure Diagnostic where
  severity : Severity
  message : String
  location : Location
  deriving DecidableEq, Inhabited

namespace Diagnostic

def isError (d : Diagnostic) : Bool := Severity.error ≤ d.severity

/-- A diagnostic on one line: location, severity, message. -/
def text (d : Diagnostic) : String :=
  s!"{d.location.text}: {d.severity.keyword}: {d.message}"

/-- The most serious severity of a list. -/
def maxSeverity? : List Diagnostic → Option Severity
  | [] => none
  | d :: ds => some (ds.foldl (fun worst e => worst.worse e.severity) d.severity)

/-- Whether some diagnostic is at least as serious as `level`. -/
def anyAtLeast (ds : List Diagnostic) (level : Severity) : Bool :=
  match maxSeverity? ds with
  | some worst => level ≤ worst
  | none => false

/-- A listing with one diagnostic on each line. -/
def listing (ds : List Diagnostic) : String :=
  String.join (ds.map fun d => d.text ++ "\n")

end Diagnostic

end RuleScript
