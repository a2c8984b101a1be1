import RuleScript.Script.Part
import RuleScript.Script.Scanned

/-!
# Reading statements

The statement that a part of a script makes.  The script grammar only leaves parts of the forms
read here; any other form is reported as malformed.
-/

namespace RuleScript.Script

/-- What reading a part comes to. -/
abbrev Reading (β : Type) := Except CompileError β

def malformed {β : Type} (kind : NodeKind) (message : String) : Reading β :=
  .error (.malformedNode kind message)

def unexpected {β : Type} (parent kind : NodeKind) : Reading β :=
  malformed parent s!"unexpected '{kind.ruleName}'"

namespace Scanned

variable (s : Scanned)

/-- The pruning that a marker stands for. -/
def pruning (span : Span) : Reading Pruning :=
  let marker := (s.lexeme span).text
  match Pruning.ofMarker? marker with
  | some pruning => .ok pruning
  | none => malformed .prune s!"unknown prefix '{marker}'"

/-- The bounds between brackets. -/
def bounds (span : Span) : List Part → Reading RepetitionForm
  | [⟨.integer, times, _⟩] => .ok (.exactly (s.lexeme times) (s.location span))
  | [⟨.integer, min, _⟩, ⟨.dotdot, _, _⟩] => .ok (.atLeast (s.lexeme min))
  | [⟨.integer, min, _⟩, ⟨.dotdot, _, _⟩, ⟨.integer, max, _⟩] =>
    .ok (.between (s.lexeme min) (s.lexeme max) (s.location span))
  | _ => malformed .bounds "expected 'n', 'n..' or 'n..m'"

/-- How often an operator repeats. -/
def repetition : Part → Reading RepetitionForm
  | ⟨.star, _, _⟩ => .ok .star
  | ⟨.plus, _, _⟩ => .ok .plus
  | ⟨.question, _, _⟩ => .ok .question
  | ⟨.bounds, span, parts⟩ => s.bounds span parts
  | ⟨other, _, _⟩ => unexpected .count other

/-- How the skip of a keyword ends. -/
def skipForm : NodeKind → Reading SkipForm
  | .kwFind => .ok .find
  | .kwStopAt => .ok .stopAt
  | .kwStopAfter => .ok .stopAfter
  | other => unexpected .skip other

/-- The severity of a keyword. -/
def severity : NodeKind → Reading Severity
  | .kwError => .ok .error
  | .kwWarning => .ok .warning
  | .kwInfo => .ok .info
  | .kwDebug => .ok .debug
  | .kwFatal => .ok .fatal
  | other => unexpected .log other

/-- An item of a set. -/
def item : Part → Reading ItemForm
  | ⟨_, _, [⟨.string, text, _⟩]⟩ => .ok (.one (s.lexeme text))
  | ⟨_, _, [⟨.string, lo, _⟩, ⟨.string, hi, _⟩]⟩ => .ok (.range (s.lexeme lo) (s.lexeme hi))
  | _ => malformed .setItem "expected a string or a range"

mutual

/-- The expression that a part makes. -/
def expression : Part → Reading Expression
  | ⟨.group, _, parts⟩ => body parts
  | ⟨.sequence, _, [only]⟩ => expression only
  | ⟨.sequence, _, parts⟩ => .sequence <$> expressions parts
  | ⟨.unary, _, [operand]⟩ => expression operand
  | ⟨.unary, _, [⟨.prune, marker, _⟩, operand]⟩ =>
    return .pruned (← s.pruning marker) (← expression operand)
  | ⟨.unary, _, _⟩ => malformed .unary "expected one operand"
  | ⟨.count, _, [operator, operand]⟩ =>
    return .repetition (← s.repetition operator) (← expression operand)
  | ⟨.count, _, _⟩ => malformed .count "expected an operator and an operand"
  | ⟨.not, _, [operand]⟩ => .not <$> expression operand
  | ⟨.not, _, _⟩ => malformed .not "expected one operand"
  | ⟨.condition, _, [operand]⟩ => .condition <$> expression operand
  | ⟨.condition, _, _⟩ => malformed .condition "expected one operand"
  | ⟨.skip, _, [⟨keyword, _, _⟩, operand]⟩ =>
    return .skip (← skipForm keyword) (← expression operand)
  | ⟨.skip, _, _⟩ => malformed .skip "expected a keyword and an operand"
  | ⟨.log, _, [⟨keyword, _, _⟩, ⟨.string, message, _⟩]⟩ =>
    return .log (← severity keyword) (s.lexeme message)
  | ⟨.log, _, [⟨keyword, _, _⟩, ⟨.string, message, _⟩, guard]⟩ =>
    return .logIf (← severity keyword) (s.lexeme message) (← expression guard)
  | ⟨.log, _, _⟩ => malformed .log "expected a level and a message"
  | ⟨.set, span, items⟩ => return .set (← items.mapM s.item) (s.location span)
  | ⟨.string, span, _⟩ => .ok (.string (s.lexeme span))
  | ⟨.dot, _, _⟩ => .ok .dot
  | ⟨.ident, span, _⟩ => .ok (.name (s.lexeme span).text)
  | ⟨other, _, _⟩ => malformed other "not a rule expression"

/-- The expressions that the parts of a list make. -/
def expressions : List Part → Reading (List Expression)
  | [] => .ok []
  | part :: rest => return (← expression part) :: (← expressions rest)

/-- The body of a rule or of a group: a sequence, and what follows it if anything does. -/
def body : List Part → Reading Expression
  | [first] =>
    if first.kind = .sequence then expression first
    else malformed .rule "expected a rule body"
  | [first, ⟨tail, _, rest⟩] =>
    if first.kind = .sequence ∧ (tail = .choice ∨ tail = .evaluation) then do
      let alternatives := (← expression first) :: (← expressions rest)
      return if tail = .choice then .choice alternatives else .evaluation alternatives
    else malformed .rule "expected a rule body"
  | _ => malformed .rule "expected a rule body"

end

/-- Add a part of a header to what was read before it. -/
def headerPart (soFar : Option Pruning × Option String × Option Lexeme) (part : Part) :
    Reading (Option Pruning × Option String × Option Lexeme) :=
  match soFar, part with
  | (_, name, precedence), ⟨.prune, span, _⟩ =>
    return (some (← s.pruning span), name, precedence)
  | (pruning, _, precedence), ⟨.ident, span, _⟩ =>
    return (pruning, some (s.lexeme span).text, precedence)
  | (pruning, name, _), ⟨.integer, span, _⟩ => return (pruning, name, some (s.lexeme span))
  | _, ⟨other, _, _⟩ => unexpected .header other

/-- The header of a rule. -/
def header (parts : List Part) : Reading Header := do
  match ← parts.foldlM s.headerPart (none, none, none) with
  | (pruning, some name, precedence) => return ⟨pruning, name, precedence⟩
  | (_, none, _) => malformed .header "missing rule name"

/-- The statement that a part makes. -/
def statement : Part → Reading Statement
  | ⟨.rule, _, ⟨.header, _, parts⟩ :: rest⟩ => return .rule (← s.header parts) (← s.body rest)
  | ⟨.rule, _, _⟩ => malformed .rule "expected a header"
  | ⟨.includeStatement, span, [⟨.string, path, _⟩]⟩ =>
    return .includeFile (s.lexeme path) (s.location span)
  | ⟨.includeStatement, _, _⟩ => malformed .includeStatement "expected a path string"
  | ⟨other, _, _⟩ => malformed other "expected a rule or an include"

end Scanned

end RuleScript.Script
