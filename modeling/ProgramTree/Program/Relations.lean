import ProgramTree.Program.Access

/-!
# Relations between nodes

List membership and siblings, the way up to the enclosing statement, what makes a
node part of the tree, and the ascent to the module and the function a node
belongs to.
-/

namespace ProgramTree.Program

/-! ## Siblings -/

/-- The list this node is an element of, going by its parent. -/
def listParent (program : Program) (id : NodeId) : Except Fault (Option NodeId) := do
  match (← program.node id).parent? with
  | some parent => return if ← program.isList parent then some parent else none
  | none => return none

/-- The place of `id` in `list`.  A node that names the list as its parent without
being one of its elements is a defect. -/
def positionIn (program : Program) (list id : NodeId) : Except Fault Nat := do
  match (← program.elements list).idxOf? id with
  | some position => return position
  | none => program.fail id .absentFromList

/-- The elements right before and right after a list element. -/
def siblings (program : Program) (id : NodeId) :
    Except Fault (Option NodeId × Option NodeId) := do
  match ← program.listParent id with
  | none => return (none, none)
  | some list =>
    let position ← program.positionIn list id
    let elements ← program.elements list
    return (if position = 0 then none else elements[position - 1]?, elements[position + 1]?)

def prev (program : Program) (id : NodeId) : Except Fault (Option NodeId) :=
  return (← program.siblings id).1

def next (program : Program) (id : NodeId) : Except Fault (Option NodeId) :=
  return (← program.siblings id).2

/-- The list of an element that something is to be inserted beside, and the place of
the element in it. -/
def anchorPosition (program : Program) (side : Side) (anchor : NodeId) :
    Except Fault (NodeId × Nat) := do
  if ← program.isList anchor then
    program.fail anchor (.anchorIsList side)
  match ← program.listParent anchor with
  | some list => return (list, ← program.positionIn list anchor)
  | none => program.fail anchor (.anchorOutsideList side)

/-- Whether this is a statement list. -/
def isStmtList (program : Program) (id : NodeId) : Except Fault Bool := do
  match ← program.kindOf id with
  | .list .stmts _ => return true
  | _ => return false

/-- The nearest node at or above `id` that sits in a statement list, at most `fuel`
steps up. -/
def enclosingStmtWithin (program : Program) : Nat → NodeId → Except Fault (Option NodeId)
  | 0, id => .error (.endless id)
  | fuel + 1, id => do
    match (← program.node id).parent? with
    | none => return none
    | some parent =>
      if ← program.isStmtList parent then return some id
      else program.enclosingStmtWithin fuel parent

/-- The statement that holds `id`: the nearest node at or above it that sits in a
statement list. -/
def enclosingStmt (program : Program) (id : NodeId) : Except Fault (Option NodeId) :=
  program.enclosingStmtWithin (program.nodes.size + 1) id

/-! ## Being part of the tree -/

/-- Every node with an enclosing symbol is in the tree, and so are root modules. -/
def inTree (program : Program) (id : NodeId) : Except Fault Bool := do
  let node ← program.node id
  return node.context.symbol?.isSome || program.roots.contains id

/-- A symbol is alive while its definition is in the tree, a module while it is in
the tree itself. -/
def isAlive (program : Program) (id : NodeId) : Except Fault Bool := do
  match (← program.kindOf id).symbol? with
  | none => return false
  | some symbol =>
    if symbol.isModule then program.inTree id
    else
      match symbol.defPoint? with
      | some definition => program.inTree definition
      | none => return false

/-- Whether a node opens a scope. -/
def isScope (program : Program) (id : NodeId) : Except Fault Bool :=
  return (← program.kindOf id).isScope

/-- The context that the children of a node get.  A node outside the tree hands out
no context. -/
def childContext (program : Program) (id : NodeId) : Except Fault Context := do
  if ← program.inTree id then
    let node ← program.node id
    return {
      symbol? := if node.kind.isSymbol then some id else node.context.symbol?
      scope? := if node.kind.isScope then some id else node.context.scope? }
  else return {}

/-! ## Ownership -/

/-- Where an ascent goes from a symbol. -/
inductive Ascent where
  /-- It ends here with this answer. -/
  | stop (owner? : Option NodeId)
  /-- It goes on to the definition of the symbol. -/
  | goOn

/-- Climbs from a symbol to its definition, from a type to its symbol and from any
other node to its enclosing symbol, until `turn` answers at a symbol.  After `fuel`
steps without an answer the ascent has none. -/
def ascend (program : Program) (turn : NodeId → SymbolKind → Ascent) :
    Nat → NodeId → Except Fault (Option NodeId)
  | 0, _ => return none
  | fuel + 1, id => do
    let node ← program.node id
    let above? : Option NodeId ⊕ Option NodeId :=
      match node.kind with
      | .symbol symbol =>
        match turn id symbol.kind with
        | .stop owner? => .inl owner?
        | .goOn => .inr symbol.defPoint?
      | .type type => .inr type.symbol?
      | _ => .inr node.context.symbol?
    match above? with
    | .inl owner? => return owner?
    | .inr none => return none
    | .inr (some above) => program.ascend turn fuel above

/-- An ascent longer than the number of nodes runs in a circle. -/
def ascentBound (program : Program) : Nat :=
  program.nodes.size + 1

/-- The module a node belongs to.  Unresolved symbols belong to none, and neither
does anything that is not connected to a module. -/
def owningModule (program : Program) (id : NodeId) : Except Fault (Option NodeId) :=
  program.ascend turn program.ascentBound id
where
  turn (id : NodeId) : SymbolKind → Ascent
    | .unresolved => .stop none
    | .module .. => .stop (some id)
    | _ => .goOn

/-- The function a node belongs to.  The code of a module belongs to its init
function, if it has one. -/
def owningFunction (program : Program) (id : NodeId) : Except Fault (Option NodeId) :=
  program.ascend turn program.ascentBound id
where
  turn (id : NodeId) : SymbolKind → Ascent
    | .unresolved => .stop none
    | .module _ initFn? _ => .stop initFn?
    | .fn .. => .stop (some id)
    | _ => .goOn

/-- The module a node belongs to, for callers that cannot go on without one. -/
def expectModule (program : Program) (id : NodeId) : Except Fault NodeId := do
  match ← program.owningModule id with
  | some module => return module
  | none => program.fail id .noOwningModule

/-! ## Pragmas -/

/-- The node that a pragma for `id` lands on, after `fuel` steps at most. -/
def pragmaTargetWithin (program : Program) : Nat → NodeId → Except Fault NodeId
  | 0, id => .error (.endless id)
  | fuel + 1, id => do
    match ← program.kindOf id with
    | .stmt (.expr expr) => program.pragmaTargetWithin fuel expr
    | .expr (.definition sym _ _) => program.pragmaTargetWithin fuel sym
    | _ => return id

/-- The node that a pragma for `id` lands on: an expression statement passes it on to
its expression, and a definition to the symbol it defines. -/
def pragmaTarget (program : Program) (id : NodeId) : Except Fault NodeId :=
  program.pragmaTargetWithin (program.nodes.size + 1) id

/-- A pragma of the node that starts with `start`, or else one of its module. -/
def pragma? (program : Program) (id : NodeId) (start : String) :
    Except Fault (Option String) := do
  let node ← program.node id
  match node.pragmas.find? (·.startsWith start) with
  | some pragma => return some pragma
  | none =>
    if node.kind.isModule then return none
    else
      match ← program.owningModule id with
      | none => return none
      | some module => return (← program.node module).pragmas.find? (·.startsWith start)

end ProgramTree.Program
