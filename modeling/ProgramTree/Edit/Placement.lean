import ProgramTree.Edit.Attachment
import ProgramTree.Edit.Building

/-!
# Removal, replacement and insertion

A node moves between three states: free-standing, held in a slot of its parent, and
held as an element of a list.  Only a free-standing node can be inserted, and a slot
that its kind requires cannot be cleared.  What is moved takes its subtree along,
with contexts and index brought up to date.
-/

namespace ProgramTree.Edit

/-- Changes the elements of a list. -/
def changeElements (list : NodeId) (f : Array NodeId → Array NodeId) : Edit Unit := do
  let _ ← look (·.list list)
  change list fun node => { node with kind := node.kind.mapElements f }

/-- Puts `new?` into the slot of `parent` that holds `old`, or clears it. -/
def rebindSlot (parent old : NodeId) (new? : Option NodeId) : Edit Unit := do
  let kind ← look (·.kindOf parent)
  if kind.isList then
    fail parent .listRebound
  match kind.rebind old new? with
  | .done kind => setKind parent kind
  | .missing => fail old .notHeldByParent
  | .required => fail old .slotRequired
  setParent old none
  match new? with
  | some new => setParent new (some parent)
  | none => return

/-- Detaches `id` from wherever it hangs.  An element is taken out of its list, a
slot is cleared, and a root module is no root any more. -/
def remove (id : NodeId) : Edit NodeId := do
  match (← look (·.node id)).parent? with
  | some parent =>
    if ← look (·.isList parent) then
      let position ← look (·.positionIn parent id)
      changeElements parent (·.eraseIdxIfInBounds position)
      setParent id none
    else
      rebindSlot parent id none
  | none => modify fun program => { program with roots := program.roots.filter (· ≠ id) }
  detach id
  return id

/-- Only a node that nothing holds can be put somewhere. -/
def checkInsertable (id : NodeId) : Edit Unit := do
  let node ← look (·.node id)
  if ← look (·.inTree id) then
    fail id .insertedInTree
  match node.parent? with
  | none => return
  | some parent =>
    if ← look (·.isList parent) then fail id .insertedInList
    else fail id .insertedHeld

/-- Puts the free-standing `new` exactly where `old` is, and detaches `old`. -/
def replace (old new : NodeId) : Edit NodeId := do
  checkInsertable new
  let node ← look (·.node old)
  match node.parent? with
  | none => fail old .replacedWithoutParent
  | some parent =>
    if ← look (·.isList parent) then
      let position ← look (·.positionIn parent old)
      changeElements parent (·.setIfInBounds position new)
      setParent old none
      setParent new (some parent)
    else
      rebindSlot parent old (some new)
    detach old
    attach new node.context
    return new

/-! ## Insertion into lists -/

/-- Links `new` into `list` at `position`, which must not lie behind the end.  A bare
expression that goes into a statement list is wrapped. -/
def insertElement (list : NodeId) (position : Nat) (new : NodeId) : Edit NodeId := do
  let (holds, elements) ← look (·.list list)
  let new ← asElement holds new
  if elements.size < position then
    throw (.outOfRange list position)
  changeElements list (·.insertIdxIfInBounds position new)
  setParent new (some list)
  attach new (← look (·.childContext list))
  return new

/-- Inserts `new` into `list` at `position`.  A list is emptied: its elements are
inserted one after the other, `depth` lists deep at most. -/
def spliceWithin : Nat → NodeId → Nat → NodeId → Edit NodeId
  | 0, _, _, new => throw (.endless new)
  | depth + 1, list, position, new => do
    checkInsertable new
    if ← look (·.isList new) then
      let elements ← look (·.elements new)
      changeElements new fun _ => #[]
      elements.toList.zipIdx.forM fun (element, offset) => do
        setParent element none
        let _ ← spliceWithin depth list (position + offset) element
      return new
    else insertElement list position new

/-- Inserts `new` into `list` at `position`.  The answer is the node that was linked
in, which is a wrapper for a bare expression in a statement list.  A list is emptied
into `list` and is itself the answer. -/
def splice (list : NodeId) (position : Nat) (new : NodeId) : Edit NodeId := do
  let bound := (← get).levelBound
  spliceWithin bound list position new

/-- Inserts `new` right beside `anchor`, which must be a list element. -/
def insertBeside (side : Side) (anchor new : NodeId) : Edit NodeId := do
  let (list, position) ← look (·.anchorPosition side anchor)
  match side with
  | .before => splice list position new
  | .after => splice list (position + 1) new

def insertBefore (anchor new : NodeId) : Edit NodeId :=
  insertBeside .before anchor new

def insertAfter (anchor new : NodeId) : Edit NodeId :=
  insertBeside .after anchor new

/-- Inserts `new` at an end of `list`. -/
def insertAtEnd (listEnd : ListEnd) (list new : NodeId) : Edit NodeId := do
  match ← look (·.kindOf list) with
  | .list _ elements =>
    match listEnd with
    | .head => splice list 0 new
    | .tail => splice list elements.size new
  | _ => fail list (.endOfNonList listEnd)

def insertAtHead (list new : NodeId) : Edit NodeId :=
  insertAtEnd .head list new

def insertAtTail (list new : NodeId) : Edit NodeId :=
  insertAtEnd .tail list new

/-- Makes a module a root of the program. -/
def addModule (module : NodeId) : Edit Unit := do
  if !(← look (·.kindOf module)).isModule then
    fail module .onlyModulesAreRoots
  checkInsertable module
  modify fun program => { program with roots := program.roots.push module }
  attach module {}

end ProgramTree.Edit
