import ProgramTree.Text.DefaultIgnorable
import ProgramTree.Text.GraphemeExtend
import ProgramTree.Text.Unprintable

/-!
# Quoted text

Text between double quotes, with everything escaped that would end the quotes or
would not show: a quote and a backslash by a backslash, line ends, tab and NUL by a
letter or a zero, and every other character that is unprintable, ignorable or
combining by its number.
-/

namespace ProgramTree.Text

/-- A code point as lower case hexadecimal digits between braces. -/
def codeEscape (c : Char) : List Char :=
  ['\\', 'u', '\x7b'] ++ Nat.toDigits 16 c.toNat ++ ['\x7d']

/-- The two halfwidth voicing marks.  They extend the letter before them, but each
takes a place of its own. -/
def isHalfwidthVoicing (c : Char) : Bool :=
  inRanges [(0xff9e, 0xff9f)] c

/-- Whether a character would not be seen as itself: it merges with the one before
it, leaves no trace, or has no printed form. -/
def isHidden (c : Char) : Bool :=
  (isGraphemeExtend c && !isHalfwidthVoicing c) || isDefaultIgnorable c || isUnprintable c

/-- How a character is written between quotes. -/
def quotedChar (c : Char) : List Char :=
  if c = '"' then ['\\', '"']
  else if c = '\\' then ['\\', '\\']
  else if c = '\n' then ['\\', 'n']
  else if c = '\r' then ['\\', 'r']
  else if c = '\t' then ['\\', 't']
  else if c = '\x00' then ['\\', '0']
  else if isHidden c then codeEscape c
  else [c]

/-- The text between double quotes. -/
def quoted (text : String) : String :=
  String.ofList ('"' :: text.toList.flatMap quotedChar ++ ['"'])

end ProgramTree.Text
