import RuleScript.Graph.Basic

/-!
# Kinds of script nodes

Every node of a parsed script, log entries aside, comes from a named rule of the script grammar.
Its kind is the name of that rule.
-/

namespace RuleScript

/-- What a node of a parsed script stands for. -/
inductive NodeKind where
  | script
  | includeStatement
  | rule
  | header
  | choice
  | evaluation
  | sequence
  | unary
  | count
  | bounds
  | not
  | condition
  | skip
  | log
  | group
  | set
  | setItem
  | ident
  | string
  | integer
  | prune
  | dot
  | dotdot
  | star
  | plus
  | question
  | kwFind
  | kwStopAt
  | kwStopAfter
  | kwError
  | kwWarning
  | kwInfo
  | kwDebug
  | kwFatal
  deriving DecidableEq, Inhabited

namespace NodeKind

/-- All kinds, those with parts before those that are a single token. -/
def all : List NodeKind :=
  [script, includeStatement, rule, header, choice, evaluation, sequence, unary, count, bounds, not,
    condition, skip, log, group, set, setItem, ident, string, integer, prune, dot, dotdot, star,
    plus, question, kwFind, kwStopAt, kwStopAfter, kwError, kwWarning, kwInfo, kwDebug, kwFatal]

/-- The name of the grammar rule whose nodes are of this kind. -/
def ruleName : NodeKind → String
  | script => "script"
  | includeStatement => "include"
  | rule => "rule"
  | header => "header"
  | choice => "choice"
  | evaluation => "evaluation"
  | sequence => "sequence"
  | unary => "unary"
  | count => "count"
  | bounds => "bounds"
  | not => "not"
  | condition => "condition"
  | skip => "skip"
  | log => "log"
  | group => "group"
  | set => "set"
  | setItem => "set_item"
  | ident => "ident"
  | string => "string"
  | integer => "integer"
  | prune => "prune"
  | dot => "dot"
  | dotdot => "dotdot"
  | star => "star"
  | plus => "plus"
  | question => "question"
  | kwFind => "kw_find"
  | kwStopAt => "kw_stop_at"
  | kwStopAfter => "kw_stop_after"
  | kwError => "kw_error"
  | kwWarning => "kw_warning"
  | kwInfo => "kw_info"
  | kwDebug => "kw_debug"
  | kwFatal => "kw_fatal"

/-- Whether nodes of this kind are single tokens. -/
def isToken : NodeKind → Bool
  | ident | string | integer | prune | dot | dotdot | star | plus | question | kwFind | kwStopAt
  | kwStopAfter | kwError | kwWarning | kwInfo | kwDebug | kwFatal => true
  | _ => false

/-- The kind of the nodes of the rule with a name. -/
def ofRuleName? (name : String) : Option NodeKind := all.find? (·.ruleName == name)

end NodeKind

namespace Graph

variable {α : Type}

/-- The kind of the nodes of a rule, told by the rule's name. -/
def nodeKind? (g : Graph α) (id : RuleId) : Option NodeKind :=
  (g.nameOf? id).bind NodeKind.ofRuleName?

/-- The kinds that a graph has a rule for. -/
def presentKinds (g : Graph α) : List NodeKind := NodeKind.all.filter (g.hasName ·.ruleName)

/-- The kinds that a graph has no rule for. -/
def missingKinds (g : Graph α) : List NodeKind := NodeKind.all.filter (!g.hasName ·.ruleName)

end Graph

end RuleScript
