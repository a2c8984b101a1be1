import RuleScript.Script.Lexicon

/-!
# The grammar of scripts

A script is a list of statements, each an include or a rule.  The body of a rule is a sequence,
which may go on with more sequences as the alternatives of a choice or of an evaluation.  The
graph here matches over the kinds of script tokens; every named rule of it that is not pruned
leaves a node.

A statement that is not well formed is taken by one of the recovery branches, which leave an error
and skip to where the next statement may start, so that one bad statement does not hide the rest.
-/

namespace RuleScript.Script

section Helpers

open Build

/-- A token that leaves no node. -/
def hidden (token : String) : Build RuleId RuleId :=
  add (.single ((tokenizer.idOf? token).getD .invalid)) .all

/-- Rules one after the other, with no node for the whole. -/
def inline (subs : List RuleId) : Build RuleId RuleId := add (.sequence subs) .root

/-- Rules one after the other, of which only log entries are left. -/
def quiet (subs : List RuleId) : Build RuleId RuleId := add (.sequence subs) .all

/-- The first of some rules, with no node for the choice. -/
def choice (subs : List RuleId) : Build RuleId RuleId := add (.oneOf subs) .root

def opt (sub : RuleId) : Build RuleId RuleId := add (.optional sub) .root

/-- A rule as often as it matches, with no node for the repetition. -/
def many (sub : RuleId) : Build RuleId RuleId := add (.count sub 0 0) .root

def error (message : String) : Build RuleId RuleId := add (.log .error message none)

/-- One rule for each token, under the token's name. -/
def tokenRules : List (String × RuleId) → Build RuleId Unit
  | [] => pure ()
  | (name, id) :: rest => do
    let _ ← define name (.single id)
    tokenRules rest

end Helpers

open Build in
/-- The statements of scripts, and how to go on after a bad one. -/
def statements : Build RuleId RuleId := do
  tokenRules tokenizer.named
  let ident ← rule "ident"
  let string ← rule "string"
  let integer ← rule "integer"
  let prune ← rule "prune"
  let dot ← rule "dot"
  let dotdot ← rule "dotdot"
  let star ← rule "star"
  let plus ← rule "plus"
  let question ← rule "question"
  let kwFind ← rule "kw_find"
  let kwStopAt ← rule "kw_stop_at"
  let kwStopAfter ← rule "kw_stop_after"
  let kwError ← rule "kw_error"
  let kwWarning ← rule "kw_warning"
  let kwInfo ← rule "kw_info"
  let kwDebug ← rule "kw_debug"
  let kwFatal ← rule "kw_fatal"
  let assign ← hidden "assign"
  let semicolon ← hidden "semicolon"
  let comma ← hidden "comma"
  let pipe ← hidden "pipe"
  let slash ← hidden "slash"
  let lparen ← hidden "lparen"
  let rparen ← hidden "rparen"
  let lbrace ← hidden "lbrace"
  let rbrace ← hidden "rbrace"
  let lbracket ← hidden "lbracket"
  let rbracket ← hidden "rbracket"
  let bang ← hidden "bang"
  let kwIf ← hidden "kw_if"
  let kwInclude ← hidden "kw_include"
  let hiddenDotdot ← hidden "dotdot"
  let hiddenPrune ← hidden "prune"
  let unaryRef ← reference "unary"
  let bodyRef ← reference "body"
  -- The header of a rule: a marker, the name, a precedence.
  let optPrune ← opt prune
  let optInteger ← opt integer
  let header ← define "header" (.sequence [optPrune, ident, optInteger])
  -- Repetition: a mark, or bounds between brackets.
  let upper ← opt integer
  let rangeTail ← inline [dotdot, upper]
  let optRangeTail ← opt rangeTail
  let bounds ← define "bounds" (.sequence [lbracket, integer, optRangeTail, rbracket])
  let countOperator ← choice [star, plus, question, bounds]
  let count ← define "count" (.sequence [countOperator, unaryRef])
  let negation ← define "not" (.sequence [bang, unaryRef])
  let condition ← define "condition" (.sequence [kwIf, unaryRef])
  let skipKind ← choice [kwFind, kwStopAt, kwStopAfter]
  let skip ← define "skip" (.sequence [skipKind, unaryRef])
  let level ← choice [kwError, kwWarning, kwInfo, kwDebug, kwFatal]
  let guard ← inline [kwIf, unaryRef]
  let optGuard ← opt guard
  let log ← define "log" (.sequence [level, string, optGuard])
  let itemRange ← inline [hiddenDotdot, string]
  let optItemRange ← opt itemRange
  let setItem ← define "set_item" (.sequence [string, optItemRange])
  let items ← many setItem
  let set ← define "set" (.sequence [lbrace, items, rbrace])
  let group ← define "group" (.sequence [lparen, bodyRef, rparen])
  let primary ← choice [string, set, dot, ident, group]
  let unaryBody ← choice [count, negation, condition, skip, log, primary]
  -- A marker in front of another marker or of a mark is dropped with a warning.
  let follow ← choice [prune, pipe, slash, comma, semicolon, rparen]
  let misplaced ← inline [prune, follow]
  let peek ← add (.condition misplaced) .all
  let warn ← add (.log .warning "unexpected pruning prefix" (some misplaced))
  let badMarker ← inline [peek, warn, hiddenPrune]
  let badMarkers ← many badMarker
  let optUnaryPrune ← opt prune
  let unary ← define "unary" (.sequence [badMarkers, optUnaryPrune, unaryBody])
  let commaUnary ← inline [comma, unary]
  let sequenceTail ← choice [commaUnary, badMarker]
  let moreUnary ← many sequenceTail
  let sequence ← define "sequence" (.sequence [unary, moreUnary])
  -- What goes on after a sequence is a node of its own, so the sequence is matched once.
  let pipeSequence ← inline [pipe, sequence]
  let choice' ← define "choice" (.count pipeSequence 1 0)
  let slashSequence ← inline [slash, sequence]
  let evaluation ← define "evaluation" (.count slashSequence 1 0)
  let bodyTail ← choice [choice', evaluation]
  let optBodyTail ← opt bodyTail
  let body ← define "body" (.sequence [sequence, optBodyTail]) .root
  let includeStatement ← define "include" (.sequence [kwInclude, string, semicolon])
  let ruleStatement ← define "rule" (.sequence [header, assign, body, semicolon])
  -- Recovery.
  let skipStatement ← add (.skip semicolon false false) .all
  let any ← add .anyOne
  let endOfInput ← add (.not any)
  let optNextPrune ← opt prune
  let optNextInteger ← opt integer
  let nextRule ← inline [optNextPrune, ident, optNextInteger, assign]
  let boundary ← choice [nextRule, kwInclude, endOfInput]
  let atBoundary ← add (.condition boundary) .all
  let missingTerminatorLog ← error "missing ';' after rule body"
  let missingTerminator ← quiet [header, assign, body, atBoundary, missingTerminatorLog]
  let badOperatorLog ← error "expected ';' or an operator after rule body"
  let badOperator ← quiet [header, assign, body, badOperatorLog, skipStatement]
  let noAssign ← add (.not assign)
  let missingAssignmentLog ← error "expected '=' after rule header"
  let missingAssignment ← quiet [header, noAssign, missingAssignmentLog, skipStatement]
  let missingBodyLog ← error "expected a rule body"
  let missingBody ← quiet [header, assign, missingBodyLog, skipStatement]
  let unexpectedLog ← error "unexpected input"
  let anyThenSkip ← inline [any, skipStatement]
  let discard ← choice [semicolon, anyThenSkip]
  let unexpected ← quiet [unexpectedLog, discard]
  let statement ← define "statement"
    (.oneOf [includeStatement, ruleStatement, missingTerminator, badOperator, missingAssignment,
      missingBody, unexpected]) .root
  define "script" (.count statement 0 0)

/-- The graph that matches the tokens of scripts. -/
@[irreducible]
def grammar : Graph RuleId := statements.graph

end RuleScript.Script
