/-!
# String literals of scripts

A script writes a string between two double or two single quotes, with backslash escapes inside.
`unescape` reads the escapes, `escape` writes them, and `literalValue` reads a whole literal.
-/

namespace RuleScript

/-- Why a literal has no value. -/
inductive LiteralError where
  /-- A backslash in front of a character that is not escaped. -/
  | unknownEscape (c : Char)
  /-- A backslash at the very end. -/
  | loneBackslash
  /-- No quotes, or not the same at both ends. -/
  | malformed (literal : String)
  deriving DecidableEq

def LiteralError.message : LiteralError → String
  | .unknownEscape c => "unknown escape '\\" ++ c.toString ++ "'"
  | .loneBackslash => "string ends with a lone backslash"
  | .malformed literal => "malformed string token " ++ literal

/-- The character an escape stands for. -/
def escapeMeaning? : Char → Option Char
  | '\\' => some '\\'
  | '\'' => some '\''
  | '"' => some '"'
  | 'n' => some '\n'
  | 'r' => some '\r'
  | 't' => some '\t'
  | '0' => some '\x00'
  | _ => none

/-- The text that the inside of a literal stands for. -/
def unescape : List Char → Except LiteralError (List Char)
  | [] => .ok []
  | ['\\'] => .error .loneBackslash
  | '\\' :: c :: rest =>
    match escapeMeaning? c with
    | some meaning => (unescape rest).map (meaning :: ·)
    | none => .error (.unknownEscape c)
  | c :: rest => (unescape rest).map (c :: ·)

/-- The letter after the backslash in the escape that is written for a character, if one is. -/
def escapeLetter? : Char → Option Char
  | '\\' => some '\\'
  | '\'' => some '\''
  | '"' => some '"'
  | '\n' => some 'n'
  | '\r' => some 'r'
  | '\t' => some 't'
  | '\x00' => some '0'
  | _ => none

theorem escapeMeaning?_of_escapeLetter? {c letter : Char} (h : escapeLetter? c = some letter) :
    escapeMeaning? letter = some c := by
  unfold escapeLetter? at h
  split at h <;> cases h <;> rfl

/-- The inside of a literal that stands for a text. -/
def escape : List Char → List Char
  | [] => []
  | c :: rest =>
    match escapeLetter? c with
    | some letter => '\\' :: letter :: escape rest
    | none => c :: escape rest

theorem unescape_escape (text : List Char) : unescape (escape text) = .ok text := by
  induction text with
  | nil => rfl
  | cons c rest ih =>
    rw [escape]
    split
    · rename_i letter h
      simp [unescape, escapeMeaning?_of_escapeLetter? h, ih, Except.map]
    · rename_i h
      have plain : c ≠ '\\' := by
        rintro rfl
        cases h
      rw [unescape]
      · rw [ih]
        rfl
      · exact fun eq _ => plain eq
      · exact fun _ _ eq _ => plain eq

/-- The text between the first and the last character, if the two are the same quote. -/
def unquote? : List Char → Option (List Char)
  | [] => none
  | quote :: rest =>
    if (quote = '"' ∨ quote = '\'') ∧ rest.getLast? = some quote then some rest.dropLast else none

/-- The text a whole literal stands for. -/
def literalValue (literal : String) : Except LiteralError String :=
  match unquote? literal.toList with
  | some inside => (unescape inside).map String.ofList
  | none => .error (.malformed literal)

end RuleScript
