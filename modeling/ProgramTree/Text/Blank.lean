import ProgramTree.Text.CodeRange

/-!
# White space

The characters with the Unicode property White_Space, and the text that is left
when they are taken off both ends.
-/

namespace ProgramTree.Text

/-- The characters with the property White_Space. -/
def blankRanges : List CodeRange :=
  [(0x9, 0xd), (0x20, 0x20), (0x85, 0x85), (0xa0, 0xa0), (0x1680, 0x1680), (0x2000, 0x200a),
    (0x2028, 0x2029), (0x202f, 0x202f), (0x205f, 0x205f), (0x3000, 0x3000)]

def isBlank (c : Char) : Bool :=
  inRanges blankRanges c

/-- The characters without the white space at both ends. -/
def stripBlank (chars : List Char) : List Char :=
  ((chars.dropWhile isBlank).reverse.dropWhile isBlank).reverse

end ProgramTree.Text
