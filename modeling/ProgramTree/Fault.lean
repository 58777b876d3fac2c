import ProgramTree.Location
import ProgramTree.NodeId

/-!
# Faults

Why an operation on a program stops.  A defect is a broken rule about the tree:
it names a node, the place that node came from, and a cause.  The other faults
are the use of a node the program never created, a walk that has no end, an
insertion behind the end of a list, and a program that is given up because its tree
is not consistent.
-/

namespace ProgramTree

/-- The side of an anchor on which a node is inserted. -/
inductive Side where
  | before
  | after
deriving DecidableEq

/-- The end of a list at which a node is inserted. -/
inductive ListEnd where
  | head
  | tail
deriving DecidableEq

def Side.operation : Side → String
  | .before => "insert_before"
  | .after => "insert_after"

def ListEnd.operation : ListEnd → String
  | .head => "insert_at_head"
  | .tail => "insert_at_tail"

/-- What is wrong with a node. -/
inductive Cause where
  | expectedSymbol
  | expectedList
  | expectedFunction
  | expectedModule
  | expectedBlock
  | expectedCall
  | expectedUse
  | expectedAggregate
  /-- The node names a list as its parent that does not hold it. -/
  | absentFromList
  | listRebound
  | notHeldByParent
  | slotRequired
  | noOwningModule
  | alreadyAttached
  | onlySymbolsDefined
  | replacedWithoutParent
  | endOfNonList (listEnd : ListEnd)
  | anchorIsList (side : Side)
  | anchorOutsideList (side : Side)
  | onlyModulesAreRoots
  | insertedInTree
  | insertedInList
  | insertedHeld
  | rootHasParent
  | rootTwice
  | heldTwice
  | parentMismatch
  | symbolMismatch
  | scopeMismatch
  | indexedOutsideTree
  | bundleWithoutSymbol
  | bundleWithoutField
  | callOutsideStmt
  | callSiteCount (function : String) (found : Nat)
  | offloadedUndefined
  /-- A cause given in words. -/
  | other (text : String)
deriving DecidableEq

def Cause.message : Cause → String
  | expectedSymbol => "Expected a symbol"
  | expectedList => "Expected a list"
  | expectedFunction => "Expected a function"
  | expectedModule => "Expected a module"
  | expectedBlock => "Expected a block"
  | expectedCall => "Expected a call"
  | expectedUse => "Expected a symbol use"
  | expectedAggregate => "Expected an aggregate type"
  | absentFromList => "Ill-formed list: node is not an element of its parent list"
  | listRebound => "Lists are spliced, not rebound"
  | notHeldByParent => "Unexpected case in replace_child: parent does not hold node"
  | slotRequired => "Cannot remove a node from a slot that requires one"
  | noOwningModule => "Node has no owning module"
  | alreadyAttached => "Cannot build on a node that is already attached"
  | onlySymbolsDefined => "Only symbols can be defined"
  | replacedWithoutParent => "Cannot replace a node that has no parent"
  | endOfNonList listEnd => listEnd.operation ++ " expects a list"
  | anchorIsList side =>
    "Cannot call " ++ side.operation ++ " on a list, use insert_at_head or insert_at_tail"
  | anchorOutsideList side => "Cannot call " ++ side.operation ++ " on a node not in a list"
  | onlyModulesAreRoots => "Only modules can be roots"
  | insertedInTree => "Argument is already in the tree"
  | insertedInList => "Argument is in a list"
  | insertedHeld => "Argument already has a parent"
  | rootHasParent => "Root module has a parent"
  | rootTwice => "Module is a root twice"
  | heldTwice => "Node is reachable from more than one place"
  | parentMismatch => "Parent does not match containment"
  | symbolMismatch => "Owning symbol does not match its container"
  | scopeMismatch => "Scope does not match its container"
  | indexedOutsideTree => "Node index holds a node that is not in the tree"
  | bundleWithoutSymbol => "Bundle class has no type symbol"
  | bundleWithoutField => "Bundle class is missing a field"
  | callOutsideStmt => "Call site is not inside a statement"
  | callSiteCount function found =>
    "Expected exactly one call site for " ++ function ++ ", found " ++ toString found
  | offloadedUndefined => "Offloaded function is not defined"
  | other text => text

/-- A broken rule about the tree. -/
structure Defect where
  /-- The offending node, if there is one. -/
  node? : Option NodeId
  /-- Where the offending node came from. -/
  location : Location
  cause : Cause
deriving DecidableEq

/-- The defect in one line. -/
def Defect.message (defect : Defect) : String :=
  defect.location.text ++ ": internal error: " ++ defect.cause.message

/-- Why an operation stopped. -/
inductive Fault where
  | defect (defect : Defect)
  /-- The program has no such node. -/
  | unknownNode (id : NodeId)
  /-- A walk that started at this node has no end, because containment is cyclic. -/
  | endless (id : NodeId)
  /-- An element was to be inserted behind the end of this list. -/
  | outOfRange (list : NodeId) (position : Nat)
  /-- The tree is not consistent.  `report` describes the first defect. -/
  | inconsistent (report : String)
deriving DecidableEq

end ProgramTree
