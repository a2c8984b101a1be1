import RuleScript.Graph.Basic

/-!
# Terminals of scripts

The same language describes tokenizers, which match characters, and grammars, which match the
kinds of tokens.  The two differ in what a string and a set stand for, and in the rules that are
there from the start: a grammar begins with one rule for each named token.
-/

namespace RuleScript

/-- An item of a set, with its escapes read. -/
inductive SetItem where
  | text (text : String)
  | range (lo hi : String)
  deriving DecidableEq

/-- Why a string or a set stands for nothing. -/
inductive TerminalError where
  | emptyLiteral
  /-- A bound of a range is not one character. -/
  | wideBounds (lo hi : String)
  | emptyRange (lo hi : String)
  /-- A range among other items has too many characters to be listed. -/
  | largeRange (lo hi : Char) (width : Nat)
  | noToken (text : String)
  | rangeOverTokens (lo hi : String)
  deriving DecidableEq

/-- How many characters a range among other items may have. -/
def maxRangeWidth : Nat := 65536

def TerminalError.message : TerminalError → String
  | emptyLiteral => "empty string literal"
  | wideBounds lo hi => s!"range bounds '{lo}'..'{hi}' must be single chars"
  | emptyRange lo hi => s!"empty range '{lo}'..'{hi}'"
  | largeRange lo hi width =>
    s!"range '{lo.toString}'..'{hi.toString}' covers {width} chars, more than {maxRangeWidth}"
  | noToken text => s!"no token rule matches '{text}'"
  | rangeOverTokens lo hi => s!"range '{lo}'..'{hi}' has no meaning over tokens"

/-- What strings and sets of a script stand for, and the rules there are from the start. -/
structure Terminals (α : Type) where
  /-- The graph that the rules of a script are added to. -/
  base : Graph α
  literal : String → Except TerminalError (Kind α)
  set : List SetItem → Except TerminalError (Kind α)

/-! ## Over characters -/

/-- The characters that bound a range. -/
def rangeBounds (lo hi : String) : Except TerminalError (Char × Char) :=
  match lo.toList, hi.toList with
  | [first], [last] =>
    if first.toNat ≤ last.toNat then .ok (first, last) else .error (.emptyRange lo hi)
  | _, _ => .error (.wideBounds lo hi)

/-- The character with a number, if there is one. -/
def charWithCode? (code : Nat) : Option Char :=
  if code.isValidChar then some (Char.ofNat code) else none

/-- The characters from `lo` to `hi`. -/
def charsBetween (lo hi : Char) : List Char :=
  (List.range' lo.toNat (hi.toNat + 1 - lo.toNat)).filterMap charWithCode?

/-- The characters that an item of a set contributes. -/
def SetItem.chars : SetItem → Except TerminalError (List Char)
  | text chars => .ok chars.toList
  | range lo hi => do
    let (lo, hi) ← rangeBounds lo hi
    let width := hi.toNat + 1 - lo.toNat
    if width > maxRangeWidth then .error (.largeRange lo hi width)
    else .ok (charsBetween lo hi)

/-- A string stands for its characters in order, a set for any character of its items. -/
def charTerminals : Terminals Char where
  base := .empty
  literal text := if text.isEmpty then .error .emptyLiteral else .ok (.text text)
  set
    | [.range lo hi] => do
      let (lo, hi) ← rangeBounds lo hi
      .ok (.range lo hi)
    | items => do
      let chars ← items.mapM (·.chars)
      .ok (.setOf chars.flatten)

/-! ## Over tokens -/

/-- Whether a rule matches a text and nothing else. -/
def Kind.isExactly (text : List Char) : Kind Char → Bool
  | .literal chars => chars = text
  | .single c => [c] = text
  | _ => false

/-- The first named rule that matches a text and nothing else. -/
def Graph.tokenFor? (tokenizer : Graph Char) (text : String) : Option RuleId :=
  tokenizer.ids.find? fun id =>
    tokenizer.isNamed id && (tokenizer.kind? id).any (·.isExactly text.toList)

/-- The token that a string names. -/
def Graph.token (tokenizer : Graph Char) (text : String) : Except TerminalError RuleId :=
  match tokenizer.tokenFor? text with
  | some id => .ok id
  | none => .error (.noToken text)

/-- The token that an item of a set names. -/
def SetItem.token (tokenizer : Graph Char) : SetItem → Except TerminalError RuleId
  | text lexeme => tokenizer.token lexeme
  | range lo hi => .error (.rangeOverTokens lo hi)

/-- The rules of the named tokens, under the names of the tokens. -/
def tokenBase (tokenizer : Graph Char) : Graph RuleId where
  rules := (tokenizer.named.map fun (name, id) =>
    Rule.named name (.ofKind (.single id))).toArray

/-- A string stands for the token that matches exactly it, a set for any token of its items. -/
def tokenTerminals (tokenizer : Graph Char) : Terminals RuleId where
  base := tokenBase tokenizer
  literal text := (tokenizer.token text).map .single
  set items := do
    let ids ← items.mapM (·.token tokenizer)
    .ok (.setOf ids)

end RuleScript
