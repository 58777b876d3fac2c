import ProgramTree.Edit.Placement

/-!
# Declaring symbols and types

Builders for symbols, for the functions and modules that hold code, and for types
together with the symbols that name them.
-/

namespace ProgramTree.Edit

/-! ## Symbols -/

def newSymbol (name : String) (type? : Option NodeId) (kind : SymbolKind) : Edit NodeId :=
  newNode (.symbol { name, type?, kind })

def newVar (name : String) (type? : Option NodeId) : Edit NodeId :=
  newSymbol name type? .var

/-- A temporary of the compiler. -/
def newTemp (name : String) (type? : Option NodeId) : Edit NodeId := do
  let temp ← newVar name type?
  addFlag temp .temp
  return temp

def newArg (name : String) (intent : Intent) (type? : Option NodeId) : Edit NodeId :=
  newSymbol name type? (.arg intent none)

def newUnresolved (name : String) : Edit NodeId :=
  newSymbol name none .unresolved

def newLabel (name : String) : Edit NodeId :=
  newSymbol name none .label

def newEnumConst (name : String) : Edit NodeId :=
  newSymbol name none .enumConst

/-- Labels a statement with a fresh label. -/
def newLabelStmt (name : String) (stmt : NodeId) : Edit NodeId := do
  let label ← newLabel name
  let definition ← define label
  let stmt ← asStmt stmt
  newHolder (.stmt (.label definition stmt)) [definition, stmt]

/-! ## Functions and modules -/

/-- A function that takes `formals` and runs `body`.  It is not defined anywhere
yet. -/
def newFn (name : String) (formals : List NodeId) (body : NodeId) (retType? : Option NodeId) :
    Edit NodeId := do
  let definitions ← formals.mapM define
  let formals ← newList .defs definitions
  let body ← asBlock body
  let fn ← newSymbol name none (.fn formals body retType? none)
  adopt fn [formals, body]
  return fn

/-- A module whose block holds `stmts`.  It is no root until it is added. -/
def newModule (name : String) (tag : ModuleTag) (stmts : List NodeId) : Edit NodeId := do
  let block ← newBlock stmts
  let module ← newSymbol name none (.module block none tag)
  adopt module [block]
  return module

/-- Appends an argument symbol to the formals of a function. -/
def insertFormalAtTail (fn formal : NodeId) : Edit Unit := do
  let definition ← define formal
  let formals ← look (·.fnFormalsList fn)
  let _ ← insertAtTail formals definition

/-! ## Types -/

/-- The children that a freshly built type takes over. -/
def adoptedByType : TypeKind → List NodeId
  | .aggregate _ fields => [fields]
  | .enumeration constants => [constants]
  | _ => []

/-- Builds a type together with the type symbol that names and owns it.  The answer
is the type. -/
def newNamedType (name : String) (kind : TypeKind) : Edit NodeId := do
  let type ← newHolder (.type { kind }) (adoptedByType kind)
  let naming ← newSymbol name none (.type type)
  adopt naming [type]
  setKind type (.type { symbol? := some naming, kind })
  return type

def newPrimitiveType (name : String) (primitive : PrimitiveType) : Edit NodeId :=
  newNamedType name (.primitive primitive)

/-- A class or record without fields. -/
def newAggregateType (name : String) (tag : AggregateTag) : Edit NodeId := do
  let fields ← newList .defs []
  newNamedType name (.aggregate tag fields)

/-- Appends a field to a class or record.  The answer is the field's symbol. -/
def addField (type : NodeId) (name : String) (fieldType? : Option NodeId) : Edit NodeId := do
  let fields ← look (·.fieldList type)
  let field ← newVar name fieldType?
  let definition ← define field
  let _ ← insertAtTail fields definition
  return field

end ProgramTree.Edit
