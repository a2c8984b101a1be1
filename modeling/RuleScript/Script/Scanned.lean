import RuleScript.Script.Expression
import RuleScript.Token

/-!
# Scripts split into tokens

A scanned script knows its characters, its lines and its tokens, and so the text and the place of
every span of tokens.
-/

namespace RuleScript.Script

/-- A script with its tokens. -/
structure Scanned where
  chars : Array Char
  lines : LineIndex
  tokens : Tokenized

namespace Scanned

/-- The characters that a span of tokens covers. -/
def charSpan (s : Scanned) (span : Span) : Span := s.tokens.charSpan s.chars.size span

/-- The place of a span of tokens. -/
def location (s : Scanned) (span : Span) : Location := .ofSpan s.lines (s.charSpan span)

/-- The text of a span of tokens, with its place. -/
def lexeme (s : Scanned) (span : Span) : Lexeme :=
  ⟨(textAt? s.chars (s.charSpan span)).getD "", s.location span⟩

/-- A message about a span of characters. -/
def diagnostic (s : Scanned) (severity : Severity) (message : String) (span : Span) : Diagnostic :=
  ⟨severity, message, .ofSpan s.lines span⟩

end Scanned

end RuleScript.Script
