import RuleScript.Diagnostic
import RuleScript.Rule

/-!
# Statements and expressions

What a script says, freed from how it is written: parentheses and hidden tokens are gone, and a
sequence or a choice of one is that one.  Literals keep their text and their place, because it
only shows later whether they stand for something.
-/

namespace RuleScript.Script

/-- The text of a token, and where it stands. -/
structure Lexeme where
  text : String
  location : Location
  deriving DecidableEq

/-- An item between the braces of a set. -/
inductive ItemForm where
  | one (literal : Lexeme)
  | range (lo hi : Lexeme)
  deriving DecidableEq

/-- How often something is repeated.  Bounds keep the place of the brackets. -/
inductive RepetitionForm where
  | star
  | plus
  | question
  | exactly (times : Lexeme) (location : Location)
  | atLeast (min : Lexeme)
  | between (min max : Lexeme) (location : Location)
  deriving DecidableEq

/-- How a skip ends. -/
inductive SkipForm where
  | find
  | stopAt
  | stopAfter
  deriving DecidableEq

/-- What a rule matches, as a script says it. -/
inductive Expression where
  | name (name : String)
  | string (literal : Lexeme)
  | set (items : List ItemForm) (location : Location)
  | dot
  | sequence (parts : List Expression)
  | choice (alternatives : List Expression)
  | evaluation (alternatives : List Expression)
  | repetition (form : RepetitionForm) (operand : Expression)
  | not (operand : Expression)
  | condition (operand : Expression)
  | skip (form : SkipForm) (operand : Expression)
  | log (severity : Severity) (message : Lexeme)
  | logIf (severity : Severity) (message : Lexeme) (guard : Expression)
  | pruned (pruning : Pruning) (operand : Expression)

/-- What stands in front of the equals sign of a rule. -/
structure Header where
  pruning : Option Pruning
  name : String
  precedence : Option Lexeme
  deriving DecidableEq

/-- One statement of a script. -/
inductive Statement where
  | includeFile (path : Lexeme) (location : Location)
  | rule (header : Header) (body : Expression)

end RuleScript.Script
