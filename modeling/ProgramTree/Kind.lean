import ProgramTree.Flag
import ProgramTree.NodeId

/-!
# Node kinds

The closed set of node kinds: lists, statements, expressions, symbols and types.
A kind names each of its child slots.  A slot is either owned, and then the node
contains the child, or a link, a reference to a node that lives somewhere else.
-/

namespace ProgramTree

/-- What a list holds.  Statement lists wrap bare expressions on insertion. -/
inductive ListCategory where
  | stmts
  | exprs
  | defs
deriving DecidableEq

/-- Statements.  All child slots are owned, except the label of a jump. -/
inductive Stmt where
  /-- An expression run for its effects, and the wrapper of a bare expression. -/
  | expr (expr : NodeId)
  | ret (value? : Option NodeId)
  | block (body : NodeId)
  /-- `indices` holds uses of the index variables, `iterators` the bounds of the
  iteration space, low bound first.  `body` is a block. -/
  | forLoop (indices iterators body : NodeId) (orderIndependent : Bool)
  | cond (condition thenStmt : NodeId) (elseStmt? : Option NodeId)
  | whenCase (cases body : NodeId)
  | select (subject whens : NodeId)
  /-- `label` is the definition of the label symbol. -/
  | label (label stmt : NodeId)
  /-- `label?` is a link to a label symbol. -/
  | goto (label? : Option NodeId)
deriving DecidableEq

/-- Operations a call can perform without a function. -/
inductive Primitive where
  | move
  | setMember
  | getMemberValue
  | castToVoidStar
  | isGpuSublocale
  | getGlobalId
  | alloc
  | add
  | subtract
  | multiply
  | less
  | index
deriving DecidableEq

/-- What a call invokes: the value of an owned expression, or an operation. -/
inductive Callee where
  | expr (base : NodeId)
  | primitive (operation : Primitive)
deriving DecidableEq

/-- The value of a literal. -/
inductive Literal where
  | int (value : Int64)
  | bool (value : Bool)
  | string (value : String)
deriving DecidableEq

/-- Expressions. -/
inductive Expr where
  /-- A use of a symbol.  `var` is a link. -/
  | use (var : NodeId)
  /-- The definition point of a symbol, which owns the symbol. -/
  | definition (sym : NodeId) (init? declaredType? : Option NodeId)
  | call (callee : Callee) (args : NodeId)
  /-- `toType?` is a link to the target type, `newType?` an owned type expression. -/
  | cast (toType? newType? : Option NodeId) (expr : NodeId)
  | named (name : String) (actual : NodeId)
  /-- `module?` is a link to the imported module. -/
  | importModule (module? : Option NodeId)
  | literal (value : Literal)
deriving DecidableEq

/-- How an argument is passed. -/
inductive Intent where
  | blank
  | byIn
  | byOut
  | byInOut
  | byRef
  | const
deriving DecidableEq

/-- Who wrote a module. -/
inductive ModuleTag where
  | internal
  | standard
  | user
deriving DecidableEq

/-- The part of a symbol that depends on what it stands for. -/
inductive SymbolKind where
  /-- A name that is not bound yet. -/
  | unresolved
  /-- `initFn?` is a link. -/
  | module (block : NodeId) (initFn? : Option NodeId) (tag : ModuleTag)
  | var
  | arg (intent : Intent) (defaultExpr? : Option NodeId)
  /-- A type symbol owns the type it names. -/
  | type (defines : NodeId)
  /-- `retType?` is a link. -/
  | fn (formals body : NodeId) (retType? whereExpr? : Option NodeId)
  | enumConst
  | label
deriving DecidableEq

/-- A symbol.  Its type and its definition point are links. -/
structure Symbol where
  name : String
  type? : Option NodeId := none
  defPoint? : Option NodeId := none
  flags : FlagSet := ∅
  kind : SymbolKind
deriving DecidableEq

namespace Symbol

def hasFlag (symbol : Symbol) (flag : Flag) : Bool :=
  symbol.flags.contains flag

def isFn (symbol : Symbol) : Bool :=
  match symbol.kind with
  | .fn .. => true
  | _ => false

def isModule (symbol : Symbol) : Bool :=
  match symbol.kind with
  | .module .. => true
  | _ => false

/-- Variables and formals, the symbols that hold values at run time. -/
def isLocal (symbol : Symbol) : Bool :=
  match symbol.kind with
  | .var | .arg .. => true
  | _ => false

end Symbol

/-- The types every program starts with. -/
inductive PrimitiveType where
  | void
  | bool
  | int
  | real
  | string
  | cVoidPtr
deriving DecidableEq

namespace PrimitiveType

/-- All primitive types, in the order in which a program creates them. -/
def all : List PrimitiveType := [void, bool, int, real, string, cVoidPtr]

/-- The name of the type's symbol. -/
def name : PrimitiveType → String
  | void => "void"
  | bool => "bool"
  | int => "int"
  | real => "real"
  | string => "string"
  | cVoidPtr => "c_void_ptr"

end PrimitiveType

/-- Whether an aggregate is a class or a record. -/
inductive AggregateTag where
  | classTag
  | recordTag
deriving DecidableEq

/-- The part of a type that depends on its form. -/
inductive TypeKind where
  | primitive (primitive : PrimitiveType)
  | function
  | enumeration (constants : NodeId)
  /-- `underlying?` is a link. -/
  | user (typeExpr? defaultExpr? underlying? : Option NodeId)
  | aggregate (tag : AggregateTag) (fields : NodeId)
  /-- `base?` is a link. -/
  | metatype (base? : Option NodeId)
  /-- Every component is a link. -/
  | sum (components : List NodeId)
  /-- `bound?` is a link. -/
  | typeVariable (bound? : Option NodeId)
deriving DecidableEq

/-- A type, with a link back to the symbol that names it. -/
structure TypeNode where
  symbol? : Option NodeId := none
  kind : TypeKind
deriving DecidableEq

/-- The kind of a node. -/
inductive Kind where
  /-- An ordered sequence of nodes owned by the node that holds the list. -/
  | list (holds : ListCategory) (elements : Array NodeId)
  | stmt (stmt : Stmt)
  | expr (expr : Expr)
  | symbol (symbol : Symbol)
  | type (type : TypeNode)
deriving DecidableEq

namespace Kind

def isList : Kind → Bool
  | .list .. => true
  | _ => false

def isStmt : Kind → Bool
  | .stmt .. => true
  | _ => false

def isExpr : Kind → Bool
  | .expr .. => true
  | _ => false

def isType : Kind → Bool
  | .type .. => true
  | _ => false

def symbol? : Kind → Option Symbol
  | .symbol data => some data
  | _ => none

def type? : Kind → Option TypeNode
  | .type data => some data
  | _ => none

def isSymbol (kind : Kind) : Bool :=
  kind.symbol?.isSome

def isFn (kind : Kind) : Bool :=
  kind.symbol?.any Symbol.isFn

def isModule (kind : Kind) : Bool :=
  kind.symbol?.any Symbol.isModule

/-- Blocks, functions and modules open scopes. -/
def isScope : Kind → Bool
  | .stmt (.block ..) => true
  | .symbol data => data.isFn || data.isModule
  | _ => false

/-- Changes the elements of a list.  Anything else has none. -/
def mapElements (f : Array NodeId → Array NodeId) : Kind → Kind
  | .list holds elements => .list holds (f elements)
  | other => other

/-- False for anything that is not a symbol. -/
def hasFlag (kind : Kind) (flag : Flag) : Bool :=
  kind.symbol?.any (·.hasFlag flag)

end Kind

end ProgramTree
