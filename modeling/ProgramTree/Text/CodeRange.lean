/-!
# Ranges of code points

A character class is given by ranges of code points, ends included.
-/

namespace ProgramTree.Text

/-- The code points from `first` to `last`. -/
abbrev CodeRange := Nat × Nat

/-- Whether one of the ranges holds the character. -/
def inRanges (ranges : List CodeRange) (c : Char) : Bool :=
  ranges.any fun (first, last) => decide (first ≤ c.toNat) && decide (c.toNat ≤ last)

end ProgramTree.Text
