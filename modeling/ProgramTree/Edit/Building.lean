import ProgramTree.Edit

/-!
# Building expressions and statements

Each builder creates free-standing nodes and takes over the children it is given,
which nothing may hold yet.  A symbol in the place of an operand becomes a use of
it, and an expression in the place of a statement is wrapped.
-/

namespace ProgramTree.Edit

/-- Makes `parent` the holder of freshly built children. -/
def adopt (parent : NodeId) (children : List NodeId) : Edit Unit :=
  children.forM fun child => do
    let node ← look (·.node child)
    if node.parent?.isSome || (← look (·.inTree child)) then
      fail child .alreadyAttached
    setParent child (some parent)

/-- Creates a node and makes it the holder of `children`. -/
def newHolder (kind : Kind) (children : List NodeId) : Edit NodeId := do
  let id ← newNode kind
  adopt id children
  return id

/-! ## Operands and lists -/

def newUse (var : NodeId) : Edit NodeId :=
  newNode (.expr (.use var))

/-- A symbol becomes a use of it; anything else is an operand already. -/
def asOperand (id : NodeId) : Edit NodeId := do
  if ← look (·.isSymbol id) then newUse id else return id

def asOperand? : Option NodeId → Edit (Option NodeId)
  | some id => return some (← asOperand id)
  | none => return none

/-- An expression run for its effects, at the location of the expression. -/
def newExprStmt (expr : NodeId) : Edit NodeId := do
  let stmt ← withLocationOf expr (newNode (.stmt (.expr expr)))
  adopt stmt [expr]
  return stmt

/-- An expression is wrapped; anything else is a statement already. -/
def asStmt (id : NodeId) : Edit NodeId := do
  if (← look (·.kindOf id)).isExpr then newExprStmt id else return id

def asStmt? : Option NodeId → Edit (Option NodeId)
  | some id => return some (← asStmt id)
  | none => return none

/-- The element as a list of this category holds it. -/
def asElement (holds : ListCategory) (id : NodeId) : Edit NodeId :=
  match holds with
  | .stmts => asStmt id
  | .exprs | .defs => return id

def newList (holds : ListCategory) (elements : List NodeId) : Edit NodeId := do
  let elements ← elements.mapM (asElement holds)
  newHolder (.list holds elements.toArray) elements

/-- A list of operands. -/
def newOperands (operands : List NodeId) : Edit NodeId := do
  newList .exprs (← operands.mapM asOperand)

/-- A block of statements. -/
def newBlock (stmts : List NodeId) : Edit NodeId := do
  let body ← newList .stmts stmts
  newHolder (.stmt (.block body)) [body]

/-- Anything but a block becomes the one statement of a block. -/
def asBlock (id : NodeId) : Edit NodeId := do
  match ← look (·.kindOf id) with
  | .stmt (.block _) => return id
  | _ => newBlock [id]

/-! ## Expressions -/

/-- The definition point of a symbol, at the location of the symbol. -/
def newDefinition (sym : NodeId) (init? declaredType? : Option NodeId) : Edit NodeId := do
  if !(← look (·.isSymbol sym)) then
    fail sym .onlySymbolsDefined
  let init? ← asOperand? init?
  let declaredType? ← asOperand? declaredType?
  let definition ←
    withLocationOf sym (newNode (.expr (.definition sym init? declaredType?)))
  adopt definition (sym :: init?.toList ++ declaredType?.toList)
  changeSymbol sym fun symbol => { symbol with defPoint? := some definition }
  return definition

/-- The definition of a symbol without value and declared type. -/
def define (sym : NodeId) : Edit NodeId :=
  newDefinition sym none none

/-- A call through an expression, usually a use of a function. -/
def newCall (callee : NodeId) (args : List NodeId) : Edit NodeId := do
  let callee ← asOperand callee
  let args ← newOperands args
  newHolder (.expr (.call (.expr callee) args)) [callee, args]

def newPrimitiveCall (operation : Primitive) (args : List NodeId) : Edit NodeId := do
  let args ← newOperands args
  newHolder (.expr (.call (.primitive operation) args)) [args]

/-- `expr` viewed as another type. -/
def newCast (toType? : Option NodeId) (expr : NodeId) : Edit NodeId := do
  let expr ← asOperand expr
  newHolder (.expr (.cast toType? none expr)) [expr]

def newNamed (name : String) (actual : NodeId) : Edit NodeId := do
  let actual ← asOperand actual
  newHolder (.expr (.named name actual)) [actual]

def newImport (module? : Option NodeId) : Edit NodeId :=
  newNode (.expr (.importModule module?))

def newLiteral (value : Literal) : Edit NodeId :=
  newNode (.expr (.literal value))

def newInt (value : Int64) : Edit NodeId :=
  newLiteral (.int value)

/-! ## Statements -/

def newReturn (value? : Option NodeId) : Edit NodeId := do
  let value? ← asOperand? value?
  newHolder (.stmt (.ret value?)) value?.toList

/-- A loop over symbols or uses of them, bounded by `iterators`. -/
def newForLoop (indices iterators : List NodeId) (body : NodeId) (orderIndependent : Bool) :
    Edit NodeId := do
  let indices ← indices.mapM asOperand
  let iterators ← iterators.mapM asOperand
  let indices ← newList .exprs indices
  let iterators ← newList .exprs iterators
  let body ← asBlock body
  newHolder (.stmt (.forLoop indices iterators body orderIndependent)) [indices, iterators, body]

def newCond (condition thenStmt : NodeId) (elseStmt? : Option NodeId) : Edit NodeId := do
  let condition ← asOperand condition
  let thenStmt ← asStmt thenStmt
  let elseStmt? ← asStmt? elseStmt?
  newHolder (.stmt (.cond condition thenStmt elseStmt?))
    ([condition, thenStmt] ++ elseStmt?.toList)

def newWhen (cases : List NodeId) (body : NodeId) : Edit NodeId := do
  let cases ← newList .exprs cases
  let body ← asBlock body
  newHolder (.stmt (.whenCase cases body)) [cases, body]

def newSelect (subject : NodeId) (whens : List NodeId) : Edit NodeId := do
  let subject ← asOperand subject
  let whens ← newList .stmts whens
  newHolder (.stmt (.select subject whens)) [subject, whens]

def newGoto (label? : Option NodeId) : Edit NodeId :=
  newNode (.stmt (.goto label?))

end ProgramTree.Edit
