/-!
# JSON

Values as the reports of the command line print them: indented by two spaces, one item or field on
each line.  Fields are printed in the order they are given in; reports give them in the order of
their keys.
-/

namespace RuleScript

/-- A JSON value with natural numbers only. -/
inductive JsonValue where
  | bool (b : Bool)
  | number (n : Nat)
  | text (text : String)
  | array (items : List JsonValue)
  | object (fields : List (String × JsonValue))

namespace JsonValue

/-- A hexadecimal digit. -/
def hexDigit (n : Nat) : Char := if n < 10 then Char.ofNat (48 + n) else Char.ofNat (87 + n)

/-- How a character is written between double quotes. -/
def jsonChar (c : Char) : String :=
  if c = '"' then "\\\""
  else if c = '\\' then "\\\\"
  else if c = '\n' then "\\n"
  else if c = '\r' then "\\r"
  else if c = '\t' then "\\t"
  else if c = '\x08' then "\\b"
  else if c = '\x0c' then "\\f"
  else if c.toNat < 32 then
    "\\u00" ++ (hexDigit (c.toNat / 16)).toString ++ (hexDigit (c.toNat % 16)).toString
  else c.toString

def jsonText (text : String) : String := "\"" ++ String.join (text.toList.map jsonChar) ++ "\""

/-- Lines between an opening and a closing mark, further in than these. -/
def block (opening closing : String) (depth : Nat) (lines : List String) : String :=
  match lines with
  | [] => opening ++ closing
  | _ =>
    let margin := "\n" ++ String.join (List.replicate depth "  ")
    opening ++ margin ++ "  " ++ (("," ++ margin ++ "  ").intercalate lines) ++ margin ++ closing

mutual

/-- The text of a value that starts `depth` levels in. -/
def print (depth : Nat) : JsonValue → String
  | bool b => if b then "true" else "false"
  | number n => toString n
  | text chars => jsonText chars
  | array items => block "[" "]" depth (printItems (depth + 1) items)
  | object fields => block "\x7b" "\x7d" depth (printFields (depth + 1) fields)

def printItems (depth : Nat) : List JsonValue → List String
  | [] => []
  | item :: rest => print depth item :: printItems depth rest

def printFields (depth : Nat) : List (String × JsonValue) → List String
  | [] => []
  | (key, value) :: rest => (jsonText key ++ ": " ++ print depth value) :: printFields depth rest

end

/-- A value as a text of its own. -/
def document (value : JsonValue) : String := print 0 value ++ "\n"

end JsonValue

end RuleScript
