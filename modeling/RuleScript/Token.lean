import RuleScript.Match.LogEntry
import RuleScript.Match.Matcher

/-!
# Tokens

A graph over characters splits a text into tokens: each node that its root leaves is a token of
the kind of the node's rule.  Log entries are no tokens; they are kept apart.  A span over tokens
can be told as a span over characters.
-/

namespace RuleScript

/-- A token is what a rule over characters left at the top of a text. -/
structure Token where
  node : Node
  deriving DecidableEq

namespace Token

/-- The rule that the token is of. -/
def kind (t : Token) : RuleId := t.node.rule

/-- The characters that the token covers. -/
def span (t : Token) : Span := t.node.span

/-- The text of the token. -/
def text (chars : Array Char) (t : Token) : String := (textAt? chars t.span).getD ""

end Token

/-- A text split into tokens. -/
structure Tokenized where
  tokens : Array Token := #[]
  logs : List LogEntry := []
  /-- How many characters were consumed. -/
  len : Nat := 0
  /-- The farthest position at which a character was missed. -/
  farthest : Nat
  deriving DecidableEq

namespace Tokenized

/-- The kinds of the tokens, which is what a grammar matches over. -/
def kinds (t : Tokenized) : Array RuleId := t.tokens.map (·.kind)

/-- Where a token starts; past the last token, the end of the text. -/
def startOf (t : Tokenized) (textLen index : Nat) : Nat :=
  match t.tokens[index]? with
  | some token => token.span.start
  | none => textLen

/-- Where a token stops; past the last token, the end of the text. -/
def stopOf (t : Tokenized) (textLen index : Nat) : Nat :=
  match t.tokens[index]? with
  | some token => token.span.stop
  | none => textLen

/-- The characters covered by a span over tokens, in a text of the given length.  An empty span
lies at the start of the token it is in front of. -/
def charSpan (t : Tokenized) (textLen : Nat) (span : Span) : Span :=
  if span.isEmpty then .empty (t.startOf textLen span.start)
  else .ofBounds (t.startOf textLen span.start) (t.stopOf textLen (span.stop - 1))

/-- The tokens in what the root of a graph left: if that is a single node of the root, what is
below it counts. -/
def tokensOf (g : Graph Char) (forest : List Node) : Array Token :=
  let top :=
    match forest with
    | [node] => if some node.rule = g.root then node.children else forest
    | _ => forest
  ((top.filter fun node => !g.isLog node.rule).map Token.mk).toArray

/-- What a match of the root of a graph comes to as tokens. -/
def ofOutcome (g : Graph Char) (farthest : Nat) : Outcome → Tokenized
  | .failure => { farthest := farthest }
  | .success len nodes =>
    { tokens := tokensOf g nodes
      logs := g.collectLogs nodes
      len := len
      farthest := farthest }

end Tokenized

/-- Split a text into tokens. -/
def Graph.tokenize (g : Graph Char) (chars : Array Char) (limit : Nat) :
    Except Abort Tokenized × Journal :=
  let (result, trace) := g.matchRoot chars limit
  (result.map (Tokenized.ofOutcome g trace.farthest), trace.journal)

end RuleScript
