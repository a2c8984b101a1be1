import RuleScript.Pipeline.Basic

/-!
# Listings

How tokens and parse trees are shown to a reader: tokens with their places and texts, trees with
the texts that their leaves cover.
-/

namespace RuleScript

namespace Pipeline

/-- A token on one line: its place, its kind and its text. -/
def TokenizedText.tokenLine (t : TokenizedText) (tokenizer : Graph Char) (token : Token) :
    String :=
  (Location.ofSpan t.lines token.span).text ++ " " ++ tokenizer.label token.kind ++ " " ++
    quoteText (token.text t.chars) ++ "\n"

/-- The tokens of a text, one on each line. -/
def TokenizedText.listing (t : TokenizedText) (tokenizer : Graph Char) : String :=
  String.join (t.tokens.tokens.toList.map (t.tokenLine tokenizer))

end Pipeline

/-- The outline of a parsed text. -/
def ParseOutput.outline (output : ParseOutput) (grammar : Graph RuleId) (text : String) : String :=
  let chars := text.toList.toArray
  Node.outline { showSpans := false } grammar.label
    (fun span => textAt? chars (output.tokens.charSpan chars.size span)) output.nodes

end RuleScript
