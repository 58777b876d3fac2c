import ProgramTree.Program

/-!
# Reading a program

Queries about single nodes.  Each stops when it meets a node the program does not
have, and some stop with a defect when a node is not of the kind they are about.
-/

namespace ProgramTree.Program

variable {α : Type}

/-- The node with this identity. -/
def node (program : Program) (id : NodeId) : Except Fault Node :=
  match program.get? id with
  | some node => .ok node
  | none => .error (.unknownNode id)

/-- The location of a node, for diagnostics: unknown when there is no such node. -/
def locationOf (program : Program) (id : NodeId) : Location :=
  match program.get? id with
  | some node => node.location
  | none => .unknown

/-- The defect `cause` at node `id`. -/
def defect (program : Program) (id : NodeId) (cause : Cause) : Defect :=
  ⟨some id, program.locationOf id, cause⟩

/-- Stops because of a defect. -/
def fail (program : Program) (id : NodeId) (cause : Cause) : Except Fault α :=
  .error (.defect (program.defect id cause))

def kindOf (program : Program) (id : NodeId) : Except Fault Kind :=
  return (← program.node id).kind

/-- File and line of a node. -/
def locationText (program : Program) (id : NodeId) : Except Fault String :=
  return (← program.node id).location.text

/-! ## Symbols -/

def isSymbol (program : Program) (id : NodeId) : Except Fault Bool :=
  return (← program.kindOf id).isSymbol

def isFn (program : Program) (id : NodeId) : Except Fault Bool :=
  return (← program.kindOf id).isFn

/-- False for anything that is not a symbol. -/
def hasFlag (program : Program) (id : NodeId) (flag : Flag) : Except Fault Bool :=
  return (← program.kindOf id).hasFlag flag

def symbol (program : Program) (id : NodeId) : Except Fault Symbol := do
  match (← program.kindOf id).symbol? with
  | some symbol => return symbol
  | none => program.fail id .expectedSymbol

/-- The type a symbol was declared with. -/
def typeOf (program : Program) (id : NodeId) : Except Fault (Option NodeId) :=
  return (← program.symbol id).type?

/-- The name of a symbol, or of the symbol that names a type. -/
def nameOf (program : Program) (id : NodeId) : Except Fault (Option String) := do
  match ← program.kindOf id with
  | .symbol symbol => return some symbol.name
  | .type { symbol? := some naming, .. } => return some (← program.symbol naming).name
  | _ => return none

/-! ## Lists -/

def isList (program : Program) (id : NodeId) : Except Fault Bool :=
  return (← program.kindOf id).isList

/-- The category and the elements of a list. -/
def list (program : Program) (id : NodeId) : Except Fault (ListCategory × Array NodeId) := do
  match ← program.kindOf id with
  | .list holds elements => return (holds, elements)
  | _ => program.fail id .expectedList

def elements (program : Program) (id : NodeId) : Except Fault (Array NodeId) :=
  return (← program.list id).2

/-! ## Functions, modules and blocks -/

/-- The body of a function, a block. -/
def fnBody (program : Program) (id : NodeId) : Except Fault NodeId := do
  match (← program.symbol id).kind with
  | .fn _ body _ _ => return body
  | _ => program.fail id .expectedFunction

/-- The list of the definitions of a function's formals. -/
def fnFormalsList (program : Program) (id : NodeId) : Except Fault NodeId := do
  match (← program.symbol id).kind with
  | .fn formals _ _ _ => return formals
  | _ => program.fail id .expectedFunction

/-- The statement list of a block. -/
def blockBody (program : Program) (id : NodeId) : Except Fault NodeId := do
  match ← program.kindOf id with
  | .stmt (.block body) => return body
  | _ => program.fail id .expectedBlock

/-- The statement list of a function's body. -/
def fnBodyList (program : Program) (id : NodeId) : Except Fault NodeId := do
  program.blockBody (← program.fnBody id)

/-- The statement list of a module's block. -/
def moduleBodyList (program : Program) (id : NodeId) : Except Fault NodeId := do
  match (← program.symbol id).kind with
  | .module block _ _ => program.blockBody block
  | _ => program.fail id .expectedModule

/-- The symbol that a definition defines, looking through `fuel` expression
statements at most. -/
def definedSymbolWithin (program : Program) : Nat → NodeId → Except Fault (Option NodeId)
  | 0, id => .error (.endless id)
  | fuel + 1, id => do
    match ← program.kindOf id with
    | .expr (.definition sym _ _) => return some sym
    | .stmt (.expr expr) => program.definedSymbolWithin fuel expr
    | _ => return none

/-- The symbol that a definition defines.  Looks through expression statements. -/
def definedSymbol (program : Program) (id : NodeId) : Except Fault (Option NodeId) :=
  program.definedSymbolWithin (program.nodes.size + 1) id

/-- The argument symbols of a function, in order. -/
def fnFormals (program : Program) (id : NodeId) : Except Fault (List NodeId) := do
  let definitions ← program.elements (← program.fnFormalsList id)
  return (← definitions.toList.mapM program.definedSymbol).reduceOption

/-! ## Calls and uses -/

/-- The argument list of a call. -/
def callArgs (program : Program) (id : NodeId) : Except Fault NodeId := do
  match ← program.kindOf id with
  | .expr (.call _ args) => return args
  | _ => program.fail id .expectedCall

/-- The symbol a use refers to. -/
def usedSymbol (program : Program) (id : NodeId) : Except Fault (Option NodeId) := do
  match ← program.kindOf id with
  | .expr (.use var) => return some var
  | _ => return none

/-- The function a call invokes, when its callee is a use of a function. -/
def resolvedCallee (program : Program) (id : NodeId) : Except Fault (Option NodeId) := do
  match ← program.kindOf id with
  | .expr (.call (.expr base) _) =>
    match ← program.usedSymbol base with
    | some var => return if ← program.isFn var then some var else none
    | none => return none
  | _ => return none

/-! ## Types -/

/-- The type symbol that names a type. -/
def typeSymbolOf (program : Program) (id : NodeId) : Except Fault (Option NodeId) :=
  return (← program.kindOf id).type?.bind TypeNode.symbol?

def isClass (program : Program) (id : NodeId) : Except Fault Bool := do
  match ← program.kindOf id with
  | .type { kind := .aggregate .classTag _, .. } => return true
  | _ => return false

/-- The field list of a class or record. -/
def fieldList (program : Program) (id : NodeId) : Except Fault NodeId := do
  match ← program.kindOf id with
  | .type { kind := .aggregate _ fields, .. } => return fields
  | _ => program.fail id .expectedAggregate

/-- The field of a class or record at a place, counting from zero. -/
def field (program : Program) (id : NodeId) (place : Nat) : Except Fault (Option NodeId) := do
  let definitions ← program.elements (← program.fieldList id)
  match definitions[place]? with
  | some definition => program.definedSymbol definition
  | none => return none

def fieldCount (program : Program) (id : NodeId) : Except Fault Nat :=
  return (← program.elements (← program.fieldList id)).size

end ProgramTree.Program
