/-!
# Lines and columns

Positions in a text count characters.  A `LineIndex` holds the position at which each line starts,
so that a position can be told as a line and a column.  A line ends with a line feed, a carriage
return, or a carriage return and a line feed together, and the terminator belongs to the line it
ends.
-/

namespace RuleScript

/-- A line and a column in it, both counted from zero. -/
structure Place where
  line : Nat
  column : Nat
  deriving DecidableEq, Inhabited

/-- The starts of the lines after the first, for a text whose first character is at `pos`. -/
def laterLineStarts : Nat → List Char → List Nat
  | _, [] => []
  | pos, '\r' :: '\n' :: rest => (pos + 2) :: laterLineStarts (pos + 2) rest
  | pos, c :: rest =>
    if c = '\n' ∨ c = '\r' then (pos + 1) :: laterLineStarts (pos + 1) rest
    else laterLineStarts (pos + 1) rest

/-- Where the lines of a text start, and how long it is. -/
structure LineIndex where
  starts : List Nat
  length : Nat
  deriving DecidableEq

namespace LineIndex

def ofChars (text : List Char) : LineIndex := ⟨0 :: laterLineStarts 0 text, text.length⟩

def ofText (text : String) : LineIndex := ofChars text.toList

/-- The line and column of a position; a position past the end counts as the end. -/
def place (index : LineIndex) (pos : Nat) : Place :=
  let pos := min pos index.length
  let upTo := index.starts.takeWhile (· ≤ pos)
  ⟨upTo.length - 1, pos - upTo.getLastD 0⟩

def lineCount (index : LineIndex) : Nat := index.starts.length

/-- The position at which a line starts, if there is such a line. -/
def lineStart? (index : LineIndex) (line : Nat) : Option Nat := index.starts[line]?

end LineIndex

end RuleScript
