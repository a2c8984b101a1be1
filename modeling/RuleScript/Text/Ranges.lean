/-!
# Ranges of code points

A property of characters is kept as a table: the ranges of the code points that have it, both ends
included.
-/

namespace RuleScript

/-- Whether a code point lies in one of some ranges. -/
def inRanges (point : Nat) (ranges : List (Nat × Nat)) : Bool :=
  ranges.any fun (first, last) => first ≤ point && point ≤ last

end RuleScript
