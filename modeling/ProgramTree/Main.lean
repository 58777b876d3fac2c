import ProgramTree.CommandLine

/-!
# The program

Hands the arguments and the environment to the command line, and its output to the
terminal.
-/

namespace ProgramTree.CommandLine

/-- Reads an environment variable. -/
def readVariable (name : String) : IO VariableValue := do
  match ← IO.getEnv name with
  | some value => return .text value
  | none => return .unset

/-- Runs the command the arguments ask for.  The answer is the exit code. -/
def execute (arguments : List String) : IO UInt32 := do
  let environment : Environment :=
    { reportOutlining := ← readVariable reportOutliningVariable
      developer := ← readVariable developerVariable }
  let output := (Command.ofArguments arguments).run environment
  (← IO.getStdout).putStr output.stdout
  (← IO.getStderr).putStr output.stderr
  return output.code.toUInt32

end ProgramTree.CommandLine

/-- Compiles a sample program and shows it. -/
def main (arguments : List String) : IO UInt32 :=
  ProgramTree.CommandLine.execute arguments
