import RuleScript.Text.LetterCase

/-!
# Lower case

The lower-case form of a text.  Two characters do not follow the table: the capital I with a dot
becomes two characters, and the capital sigma becomes the final sigma at the end of a word, which
is where a cased character stands before it and none after it.
-/

namespace RuleScript

/-- Whether the first character that is not passed over has case. -/
def startsCased (text : List Char) : Bool :=
  match text.dropWhile isCaseIgnorable with
  | [] => false
  | c :: _ => isCased c

/-- The lower-case form of `text`, given the characters before it, nearest first. -/
def lowerCaseAfter : (before : List Char) → (text : List Char) → List Char
  | _, [] => []
  | before, c :: rest =>
    let form :=
      if c = 'Σ' then
        if startsCased before && !startsCased rest then ['ς'] else ['σ']
      else if c = 'İ' then ['i', '\u0307']
      else [lowerChar c]
    form ++ lowerCaseAfter (c :: before) rest

/-- The lower-case form of a text. -/
def lowerCase (text : List Char) : List Char := lowerCaseAfter [] text

end RuleScript
