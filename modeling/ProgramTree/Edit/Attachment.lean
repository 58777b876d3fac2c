import ProgramTree.Edit
import ProgramTree.Program.Walk

/-!
# Attachment

Giving the nodes of a subtree their contexts when it enters the tree, and taking
them away when it leaves.  The index follows: it gains the nodes that are now in
the tree and loses the ones that left.
-/

namespace ProgramTree.Edit

/-- Gives a node its context and enters it into the index if it is now in the tree.
The answer is its children, with the context they get. -/
def place (id : NodeId) (context : Context) : Edit (List NodeId × Context) := do
  change id fun node => { node with context }
  let kind ← look (·.kindOf id)
  if ← look (·.inTree id) then
    modify fun program => { program with index := program.index.register id kind }
  return (kind.owned, ← look (·.childContext id))

/-- Places every node of the subtree under `id`, which is at most `depth` levels
deep, each holder before its children. -/
def attachWithin : Nat → NodeId → Context → Edit Unit
  | 0, id, _ => throw (.endless id)
  | depth + 1, id, context => do
    let (children, inner) ← place id context
    children.forM (attachWithin depth · inner)

/-- Places every node of the subtree under `id`. -/
def attach (id : NodeId) (context : Context) : Edit Unit := do
  let bound := (← get).levelBound
  attachWithin bound id context

/-- Takes the context from a node and strikes the node from the index. -/
def displace (id : NodeId) : Edit Unit := do
  change id fun node => { node with context := {} }
  modify fun program => { program with index := program.index.deregister id }

/-- Displaces every node of the subtree under `id`. -/
def detach (id : NodeId) : Edit Unit := do
  let nodes ← look (·.subtree id)
  nodes.forM displace

end ProgramTree.Edit
