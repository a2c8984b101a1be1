/-!
# Levels

A rule that logs does so at one of five severities, which are ordered and which scripts write as
keywords.  Journal entries have levels of their own; every severity has one.
-/

namespace RuleScript

/-- The level of a journal entry. -/
inductive Level where
  | error
  | warn
  | info
  | debug
  | trace
  deriving DecidableEq, Inhabited

def Level.name : Level → String
  | .error => "error"
  | .warn => "warn"
  | .info => "info"
  | .debug => "debug"
  | .trace => "trace"

/-- How serious a diagnostic is, from least to most. -/
inductive Severity where
  | debug
  | info
  | warning
  | error
  /-- Stops the match that reports it. -/
  | fatal
  deriving DecidableEq, Inhabited

namespace Severity

/-- All severities, in order. -/
def all : List Severity := [.debug, .info, .warning, .error, .fatal]

/-- The place of a severity in the order. -/
def rank : Severity → Nat
  | .debug => 0
  | .info => 1
  | .warning => 2
  | .error => 3
  | .fatal => 4

instance : LE Severity := ⟨fun a b => a.rank ≤ b.rank⟩

instance (a b : Severity) : Decidable (a ≤ b) := inferInstanceAs (Decidable (a.rank ≤ b.rank))

/-- The keyword of a severity in scripts and in messages. -/
def keyword : Severity → String
  | .debug => "debug"
  | .info => "info"
  | .warning => "warning"
  | .error => "error"
  | .fatal => "fatal"

/-- The severity a keyword stands for. -/
def ofKeyword? (word : String) : Option Severity := all.find? (·.keyword == word)

/-- The journal level of a severity. -/
def level : Severity → Level
  | .debug => .debug
  | .info => .info
  | .warning => .warn
  | .error => .error
  | .fatal => .error

/-- The more serious of two. -/
def worse (a b : Severity) : Severity := if a ≤ b then b else a

end Severity

end RuleScript
