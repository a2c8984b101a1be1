import RuleScript.Graph.Builder

/-!
# The tokens of scripts

Scripts are split into tokens by a graph of their own.  White space, line comments that start with
a hash sign and block comments between `(*` and `*)` leave no token.  Strings stand between two
double or two single quotes on one line, with escapes.  Keywords end where the word ends, so a
name may start with one.  A character that starts nothing else is an invalid token.
-/

namespace RuleScript.Script

/-- The keywords of the language, each with the name of its token. -/
def keywords : List (String × String) :=
  [("kw_include", "include"), ("kw_if", "if"), ("kw_find", "find"), ("kw_stop_at", "stop_at"),
    ("kw_stop_after", "stop_after"), ("kw_error", "error"), ("kw_warning", "warning"),
    ("kw_info", "info"), ("kw_debug", "debug"), ("kw_fatal", "fatal")]

/-- The marks of the language, each with the name of its token. -/
def marks : List (String × String) :=
  [("dotdot", ".."), ("assign", "="), ("semicolon", ";"), ("comma", ","), ("pipe", "|"),
    ("slash", "/"), ("lparen", "("), ("rparen", ")"), ("lbrace", "\x7b"), ("rbrace", "\x7d"),
    ("lbracket", "["), ("rbracket", "]"), ("star", "*"), ("plus", "+"), ("question", "?"),
    ("bang", "!"), ("dot", ".")]

section Parts

open Build

/-- Space, tab, carriage return or line feed, once or more. -/
def whitespace : Build Char RuleId := do
  let space ← add (.set ['\t', '\n', '\r', ' '])
  define "whitespace" (.count space 1 0) .all

/-- A hash sign and all up to the end of the line. -/
def lineComment : Build Char RuleId := do
  let hash ← add (.single '#')
  let newline ← add (.single '\n')
  let toLineEnd ← add (.skip newline true false)
  define "line_comment" (.sequence [hash, toLineEnd]) .all

/-- A block comment; one that is not closed takes the rest of the text. -/
def blockComment : Build Char RuleId := do
  let opening ← add (.text "(*")
  let closing ← add (.text "*)")
  let throughClosing ← add (.skip closing false true)
  let unterminated ← add (.log .warning "unterminated block comment" none)
  let rest ← add (.any 0 0)
  let unterminatedTail ← add (.sequence [unterminated, rest])
  let body ← add (.oneOf [throughClosing, unterminatedTail])
  define "block_comment" (.sequence [opening, body]) .all

/-- What stands between two of the given quotes, quotes included. -/
def quoted (any escape : RuleId) (quote : Char) : Build Char RuleId := do
  let delimiter ← add (.single quote)
  let stop ← add (.set ['\n', quote, '\\'])
  let notStop ← add (.not stop)
  let plain ← add (.sequence [notStop, any])
  let piece ← add (.oneOf [escape, plain])
  let body ← add (.count piece 0 0)
  add (.sequence [delimiter, body, delimiter])

def string : Build Char RuleId := do
  let any ← add .anyOne
  let backslash ← add (.single '\\')
  let escape ← add (.sequence [backslash, any])
  let double ← quoted any escape '"'
  let single ← quoted any escape '\''
  define "string" (.oneOf [double, single]) .children

/-- The keyword tokens, given what follows the end of a word. -/
def keywordTokens (wordEnd : RuleId) : List (String × String) → Build Char (List RuleId)
  | [] => pure []
  | (name, text) :: rest => do
    let literal ← add (.text text)
    let keyword ← define name (.sequence [literal, wordEnd]) .children
    return keyword :: (← keywordTokens wordEnd rest)

def markTokens : List (String × String) → Build Char (List RuleId)
  | [] => pure []
  | (name, text) :: rest => do
    let mark ← define name (.text text)
    return mark :: (← markTokens rest)

end Parts

open Build in
/-- All tokens, in the order in which they are tried. -/
def lexicon : Build Char RuleId := do
  let whitespace ← whitespace
  let lineComment ← lineComment
  let blockComment ← blockComment
  let string ← string
  let lower ← add (.range 'a' 'z')
  let upper ← add (.range 'A' 'Z')
  let underscore ← add (.single '_')
  let digit ← add (.range '0' '9')
  let identStart ← add (.oneOf [lower, upper, underscore])
  let identChar ← add (.oneOf [lower, upper, underscore, digit])
  let wordEnd ← add (.not identChar)
  let integer ← define "integer" (.count digit 1 0) .children
  let minus ← add (.single '-')
  let pruneLetter ← add (.set ['a', 'c', 'r'])
  let prune ← define "prune" (.sequence [minus, pruneLetter, wordEnd]) .children
  let keywords ← keywordTokens wordEnd keywords
  let identTail ← add (.count identChar 0 0)
  let ident ← define "ident" (.sequence [identStart, identTail]) .children
  let marks ← markTokens marks
  let invalid ← define "invalid" .anyOne
  let token ← add
    (.oneOf ([whitespace, lineComment, blockComment, string, integer, prune] ++ keywords ++
      ident :: marks ++ [invalid])) .root
  define "tokens" (.count token 0 0)

/-- The graph that splits scripts into tokens. -/
@[irreducible]
def tokenizer : Graph Char := lexicon.graph

end RuleScript.Script
