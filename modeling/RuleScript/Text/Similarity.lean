import RuleScript.Text.LowerCase

/-!
# Similar names

How far two texts are apart, counted in insertions, deletions and substitutions of one character,
and the suggestion made for a name that does not exist.  The distance is computed row by row:
the row of a prefix of the first text holds its distance to every prefix of the second.  Two rows are
kept, and each is written over when the other is full.
-/

namespace RuleScript

/-- Two rows of the table: the last one that is full, and one that is written over next. -/
structure Rows where
  full : Array Nat
  spare : Array Nat

/-- Write the entries of a row from the one after `j` on, for the characters of the second text from there
on.  The row still holds what an earlier round wrote where nothing has been written yet. -/
def overwrite (c : Char) (full : Array Nat) : (b : List Char) → (j : Nat) → (row : Array Nat) → Array Nat
  | [], _, row => row
  | d :: b, j, row =>
    let entry := min (min (full.getD (j + 1) 0 + 1) (row.getD j 0 + 1))
      (full.getD j 0 + if c = d then 0 else 1)
    overwrite c full b (j + 1) (row.setIfInBounds (j + 1) entry)

/-- Fill a row for each character, of which `i` came before; the rows change places each time. -/
def fillRows (b : List Char) : (a : List Char) → (i : Nat) → Rows → Rows
  | [], _, rows => rows
  | c :: a, i, rows =>
    let row := overwrite c rows.full b 0 (rows.spare.setIfInBounds 0 (i + 1))
    fillRows b a (i + 1) { full := row, spare := rows.full }

/-- The least number of one-character edits that turn `a` into `b`. -/
def editDistance (a b : List Char) : Nat :=
  let rows := fillRows b a 0
    { full := Array.range (b.length + 1), spare := Array.replicate (b.length + 1) 0 }
  rows.full.getD b.length 0

/-- How alike two texts are: `part` out of `whole`. -/
structure Likeness where
  part : Nat
  whole : Nat
  deriving DecidableEq

namespace Likeness

/-- The share of the longer text that needs no edit.  Equal texts are alike in full, an empty text
and another not at all. -/
def between (a b : List Char) : Likeness :=
  if a = b then ⟨1, 1⟩
  else if a.isEmpty || b.isEmpty then ⟨0, 1⟩
  else
    let longer := max a.length b.length
    ⟨longer - editDistance a b, longer⟩

/-- Three fifths make two texts similar. -/
def isSimilar (l : Likeness) : Bool := 3 * l.whole ≤ 5 * l.part

/-- Whether `l` is strictly more alike than `m`. -/
def exceeds (l m : Likeness) : Bool := m.part * l.whole < l.part * m.whole

end Likeness

/-- The better of the suggestion so far and a candidate; on a tie the earlier one stays. -/
def betterSuggestion (name : List Char) (best : Option (String × Likeness)) (candidate : String) :
    Option (String × Likeness) :=
  let likeness := Likeness.between name (lowerCase candidate.toList)
  if likeness.isSimilar then
    match best with
    | none => some (candidate, likeness)
    | some (_, soFar) => if likeness.exceeds soFar then some (candidate, likeness) else best
  else best

/-- The first of the candidates most similar to `name`, letter case aside, if any is similar. -/
def suggestion? (name : String) (candidates : List String) : Option String :=
  (candidates.foldl (betterSuggestion (lowerCase name.toList)) none).map (·.1)

end RuleScript
