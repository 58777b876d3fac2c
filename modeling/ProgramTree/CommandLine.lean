import ProgramTree.Compile
import ProgramTree.Sample

/-!
# The command line

Reads the arguments, builds a sample program, compiles it and shows its tree before
and after.
-/

namespace ProgramTree.CommandLine

/-- What the arguments ask for. -/
structure Request where
  sample : Sample := .vectorScale
  reportOutlining : Bool := false
  developer : Bool := false
deriving DecidableEq

/-- What reading the arguments leads to. -/
inductive Command where
  | compile (request : Request)
  | version
  | usage
deriving DecidableEq

/-- What reading the arguments has found so far. -/
structure Reading where
  /-- The positional argument.  It is checked when the next option or the end of the
  arguments is reached. -/
  sampleName? : Option String := none
  reportOutlining : Bool := false
  developer : Bool := false
  /-- Whether the rest of the arguments are positional. -/
  positionalOnly : Bool := false

namespace Reading

/-- The sample that is asked for: the first one, unless another is named.  There is
none of an unknown name. -/
def sample? (reading : Reading) : Option Sample :=
  match reading.sampleName? with
  | none => some .vectorScale
  | some name => Sample.ofName? name

/-- The command that a complete reading makes. -/
def command (reading : Reading) : Command :=
  match reading.sample? with
  | some sample =>
    .compile { sample, reportOutlining := reading.reportOutlining, developer := reading.developer }
  | none => .usage

/-- Whether an argument is an option: a dash alone is not. -/
def isOption (argument : String) : Bool :=
  argument.startsWith "-" && argument ≠ "-"

/-- Whether an option asks for the version: by its long name, or by a cluster of
short options that starts with it. -/
def asksVersion (option : String) : Bool :=
  option = "--version" || option.startsWith "-V"

/-- Reads the arguments that are left.  An option may be given once, and so may the
positional argument. -/
def read (reading : Reading) : List String → Command
  | [] => reading.command
  | argument :: rest =>
    if reading.positionalOnly || !isOption argument then
      match reading.sampleName? with
      | some _ => .usage
      | none => read { reading with sampleName? := some argument } rest
    else if argument = "--" then read { reading with positionalOnly := true } rest
    else if asksVersion argument then
      if reading.sample?.isSome then .version else .usage
    else if argument = "--report-outlining" && !reading.reportOutlining then
      read { reading with reportOutlining := true } rest
    else if argument = "--developer" && !reading.developer then
      read { reading with developer := true } rest
    else .usage

end Reading

/-- Reads the arguments. -/
def Command.ofArguments (arguments : List String) : Command :=
  ({} : Reading).read arguments

/-- What a run of the program leaves. -/
structure Output where
  code : Nat
  stdout : String := ""
  stderr : String := ""
deriving DecidableEq

/-- What is shown of a compilation: the tree before, the reports, the tree after. -/
def transcript (sample : Sample) (settings : Settings) : Except Fault String := do
  let program ← sample.program settings
  let before ← program.renderRoots
  let (reports, program) ← Edit.compile.run program
  let after ← program.renderRoots
  return before ++ "\n" ++ "-*-*-*-*- Outlining Loops -*-*-*-*-\n\n" ++
    String.join (reports.map (· ++ "\n")) ++ "\n" ++ after ++ "\n"

/-- Why a run stopped. -/
def faultMessage : Fault → String
  | .defect defect => defect.message
  | .unknownNode id => "unknown node " ++ id.text
  | .endless id => "endless walk from " ++ id.text
  | .outOfRange list position =>
    "no place " ++ toString position ++ " in list " ++ list.text
  | .inconsistent report => report ++ "\n\nCompilation Failed."

/-- Compiles the sample that is asked for.  The environment may turn on what the
arguments do not. -/
def Request.run (request : Request) (environment : Environment) : Output :=
  match Settings.ofEnvironment environment with
  | .error invalid => { code := 2, stderr := invalid.message ++ "\n" }
  | .ok settings =>
    let settings := { settings with
      reportOutlining := settings.reportOutlining || request.reportOutlining
      developer := settings.developer || request.developer }
    match transcript request.sample settings with
    | .ok stdout => { code := 0, stdout }
    | .error fault => { code := 101, stderr := faultMessage fault ++ "\n" }

/-- How the program is used. -/
def usageText : String :=
  "Usage: [OPTIONS] [PROGRAM]\n\nPROGRAM is one of " ++
    ", ".intercalate (Sample.all.map Sample.name) ++
    ".\nOptions: --report-outlining, --developer, --version\n"

/-- Runs a command. -/
def Command.run (command : Command) (environment : Environment) : Output :=
  match command with
  | .usage => { code := 2, stderr := usageText }
  | .version => { code := 0, stdout := "graft 0.1.0\n" }
  | .compile request => request.run environment

end ProgramTree.CommandLine
