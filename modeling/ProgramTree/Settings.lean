import ProgramTree.Text.Blank
import ProgramTree.Text.Quoted

/-!
# Settings

What a program is compiled with.  All settings are off unless turned on; two of
them can be turned on by environment variables, whose values are read loosely.
-/

namespace ProgramTree

/-- The settings of one compilation. -/
structure Settings where
  /-- Report every outlining decision. -/
  reportOutlining : Bool := false
  /-- Report decisions in library modules too. -/
  developer : Bool := false
  /-- Copies made while this is set leave analysis notes behind. -/
  inAnalysis : Bool := false
deriving DecidableEq

/-- The value of an environment variable. -/
inductive VariableValue where
  | unset
  | text (value : String)
  /-- The value is not valid Unicode. -/
  | notUnicode
deriving DecidableEq

/-- The environment variables that settings are read from. -/
structure Environment where
  reportOutlining : VariableValue := .unset
  developer : VariableValue := .unset
deriving DecidableEq

/-- The name of the variable that turns on reports. -/
def reportOutliningVariable : String := "GRAFT_REPORT_OUTLINING"

/-- The name of the variable that turns on developer mode. -/
def developerVariable : String := "GRAFT_DEVELOPER"

/-- A variable holds a value that says neither on nor off. -/
structure InvalidFlag where
  name : String
  value : String
deriving DecidableEq

def InvalidFlag.message (invalid : InvalidFlag) : String :=
  "invalid value " ++ Text.quoted invalid.value ++ " for " ++ invalid.name

/-- Reads a value as on or off, without regard to white space at its ends and to
the case of its ASCII letters. -/
def switch? (value : String) : Option Bool :=
  let word := String.ofList ((Text.stripBlank value.toList).map Char.toLower)
  if word ∈ ["1", "true", "yes", "on"] then some true
  else if word ∈ ["0", "false", "no", "off", ""] then some false
  else none

/-- The setting a variable asks for; an unset variable leaves it off. -/
def VariableValue.switch (name : String) : VariableValue → Except InvalidFlag Bool
  | .unset => .ok false
  | .notUnicode => .error ⟨name, "<not unicode>"⟩
  | .text value =>
    match switch? value with
    | some on => .ok on
    | none => .error ⟨name, value⟩

/-- The settings an environment asks for.  Of two invalid variables the first is
reported. -/
def Settings.ofEnvironment (environment : Environment) : Except InvalidFlag Settings := do
  let reportOutlining ← environment.reportOutlining.switch reportOutliningVariable
  let developer ← environment.developer.switch developerVariable
  return { reportOutlining, developer }

end ProgramTree
