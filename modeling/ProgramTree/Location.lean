/-!
# Source locations

Where a node came from, for diagnostics only.
-/

namespace ProgramTree

/-- A line of a source file. -/
structure Location where
  file : String
  line : Nat
deriving DecidableEq

namespace Location

/-- The location of nodes created while nothing provides one. -/
def unknown : Location := ⟨"<unknown>", 0⟩

/-- The location of the nodes every program starts with. -/
def builtin : Location := ⟨"<builtin>", 0⟩

/-- File and line, separated by a colon. -/
def text (location : Location) : String :=
  location.file ++ ":" ++ toString location.line

end Location

end ProgramTree
