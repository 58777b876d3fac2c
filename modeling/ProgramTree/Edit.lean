import ProgramTree.Program.Relations

/-!
# Edits

An edit changes a program and gives an answer, or stops with a fault.  Here are the
edits everything else is made of: creating a node, changing one, and saying what
new nodes are attributed to.
-/

namespace ProgramTree

/-- A change of a program that gives an answer or stops with a fault. -/
abbrev Edit := StateT Program (Except Fault)

namespace Edit

variable {α : Type}

/-- Answers a query about the program as it is now. -/
def look (query : Program → Except Fault α) : Edit α := fun program =>
  match query program with
  | .ok answer => .ok (answer, program)
  | .error fault => .error fault

/-- Stops with a defect at this node. -/
def fail (id : NodeId) (cause : Cause) : Edit α :=
  look (·.fail id cause)

/-- Creates a free-standing node of the given kind. -/
def newNode (kind : Kind) : Edit NodeId :=
  modifyGet fun program => (program.nextId, program.push kind)

/-- Changes a node. -/
def change (id : NodeId) (f : Node → Node) : Edit Unit := do
  let _ ← look (·.node id)
  modify (·.modifyNode id f)

def setKind (id : NodeId) (kind : Kind) : Edit Unit :=
  change id fun node => { node with kind }

def setParent (id : NodeId) (parent? : Option NodeId) : Edit Unit :=
  change id fun node => { node with parent? }

/-! ## Attribution of new nodes -/

def setLexerLocation (location? : Option Location) : Edit Unit :=
  modify fun program => { program with lexerLocation? := location? }

/-- Runs an edit with every node it creates attributed to `location`, unless a
parser says otherwise. -/
def withLocation (location : Location) (edit : Edit α) : Edit α := do
  let outer := (← get).givenLocation?
  modify fun program => { program with givenLocation? := some location }
  let answer ← edit
  modify fun program => { program with givenLocation? := outer }
  return answer

/-- Runs an edit with every node it creates attributed to the location of `id`. -/
def withLocationOf (id : NodeId) (edit : Edit α) : Edit α := do
  let node ← look (·.node id)
  withLocation node.location edit

/-- Runs an edit as the named traversal, which the nodes it creates remember. -/
def withTraversal (name : String) (edit : Edit α) : Edit α := do
  let outer := (← get).traversal?
  modify fun program => { program with traversal? := some name }
  let answer ← edit
  modify fun program => { program with traversal? := outer }
  return answer

/-! ## Symbols -/

/-- Changes the data of a symbol. -/
def changeSymbol (id : NodeId) (f : Symbol → Symbol) : Edit Unit := do
  let symbol ← look (·.symbol id)
  setKind id (.symbol (f symbol))

def addFlag (id : NodeId) (flag : Flag) : Edit Unit :=
  changeSymbol id fun symbol => { symbol with flags := symbol.flags.insert flag }

/-- Points a use at a different symbol. -/
def setUsedSymbol (id var : NodeId) : Edit Unit := do
  match ← look (·.kindOf id) with
  | .expr (.use _) => setKind id (.expr (.use var))
  | _ => fail id .expectedUse

/-! ## Pragmas -/

/-- Adds a pragma to the node it lands on. -/
def addPragma (id : NodeId) (pragma : String) : Edit Unit := do
  let target ← look (·.pragmaTarget id)
  change target fun node => { node with pragmas := node.pragmas.push pragma }

end Edit

end ProgramTree
