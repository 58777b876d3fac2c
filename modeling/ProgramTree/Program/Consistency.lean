import ProgramTree.Program.Relations
import ProgramTree.Program.Walk

/-!
# Consistency of the tree

The check that is run between passes.  Of everything reachable from the root
modules, each node must point back at the one node that holds it and carry the
context that this node hands out; roots are distinct and have no parent; and the
index holds reachable nodes only.  The check stops at the first defect it meets.
-/

namespace ProgramTree.Program

/-- A check ends well, or with a defect; the fault of a node that does not exist
passes through. -/
abbrev Check := ExceptT Defect (Except Fault)

variable (program : Program)

/-- Ends the check with a defect at this node. -/
def reject {α : Type} (id : NodeId) (cause : Cause) : Check α := do
  let node ← program.node id
  throw ⟨some id, node.location, cause⟩

/-- Checks that a node is held by `holder` and has the context it gives. -/
def checkHeld (holder : NodeId) (context : Context) (id : NodeId) : Check Unit := do
  let node ← program.node id
  if node.parent? ≠ some holder then
    program.reject id .parentMismatch
  if node.context.symbol? ≠ context.symbol? then
    program.reject id .symbolMismatch
  if node.context.scope? ≠ context.scope? then
    program.reject id .scopeMismatch

/-- Checks the children of one holder, none of which may have been seen.  They
become seen and are put on the worklist, the last one on top. -/
def checkChildren (holder : NodeId) (context : Context) :
    List NodeId → IdSet → List NodeId → Check (IdSet × List NodeId)
  | [], seen, worklist => return (seen, worklist)
  | id :: rest, seen, worklist => do
    if seen.contains id then
      program.reject id .heldTwice
    program.checkHeld holder context id
    checkChildren holder context rest (seen.insert id) (id :: worklist)

/-- Checks what the nodes of the worklist hold, and all below.  Every node is put on
the worklist once, so no more than `fuel` many are taken from it. -/
def checkWorklist : Nat → IdSet → List NodeId → Check IdSet
  | _, seen, [] => return seen
  | 0, _, holder :: _ => throwThe Fault (.endless holder)
  | fuel + 1, seen, holder :: worklist => do
    let context ← program.childContext holder
    let held ← program.owned holder
    let (seen, worklist) ← program.checkChildren holder context held seen worklist
    checkWorklist fuel seen worklist

/-- Checks a root and everything it contains. -/
def checkRoot (seen : IdSet) (root : NodeId) : Check IdSet := do
  let node ← program.node root
  if node.parent?.isSome then
    program.reject root .rootHasParent
  if seen.contains root then
    program.reject root .rootTwice
  program.checkWorklist program.levelBound (seen.insert root) [root]

/-- Checks that an indexed node was seen. -/
def checkIndexed (seen : IdSet) (id : NodeId) : Check Unit := do
  if !seen.contains id then
    program.reject id .indexedOutsideTree

/-- Checks the whole tree: everything below the roots, and then the index. -/
def check : Check Unit := do
  let seen ← program.roots.toList.foldlM program.checkRoot ∅
  program.index.toList.forM (program.checkIndexed seen)

/-- The first defect of the tree, if it has one. -/
def verify : Except Fault (Option Defect) := do
  match ← program.check.run with
  | .ok () => return none
  | .error defect => return some defect

end ProgramTree.Program
