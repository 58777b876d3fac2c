import ProgramTree.Kind.Children
import ProgramTree.Kind.Slots
import ProgramTree.Program.Access

/-!
# Walks

Two breadth-first walks, taken one level at a time.  `subtree` follows containment
and lists what a node contains.  `descendants` follows the children of a view, also
out of the subtree, and lists each node it reaches once.  A walk has at most one
level more than there are nodes; containment that goes on longer is cyclic.
-/

namespace ProgramTree.Program

/-- The children a node contains. -/
def owned (program : Program) (id : NodeId) : Except Fault (List NodeId) :=
  return (← program.kindOf id).owned

/-- The children of a node in a view. -/
def children (program : Program) (view : View) (id : NodeId) : Except Fault (List NodeId) :=
  return (← program.kindOf id).children view

/-- No walk has more levels than this, if it ends. -/
def levelBound (program : Program) : Nat :=
  program.nodes.size + 1

/-- The nodes of one level and of all levels below it. -/
def levels (program : Program) : Nat → List NodeId → Except Fault (List NodeId)
  | _, [] => return []
  | 0, id :: _ => .error (.endless id)
  | fuel + 1, level => do
    let below ← level.mapM program.owned
    return level ++ (← program.levels fuel below.flatten)

/-- Every node contained in the subtree under `root`, `root` included, breadth first. -/
def subtree (program : Program) (root : NodeId) : Except Fault (List NodeId) :=
  program.levels program.levelBound [root]

/-- The nodes of a level that are not in `seen`, each once, and `seen` with them
added. -/
def unseen (seen : IdSet) : List NodeId → List NodeId × IdSet
  | [] => ([], seen)
  | id :: rest =>
    if seen.contains id then unseen seen rest
    else
      let (later, seen) := unseen (seen.insert id) rest
      (id :: later, seen)

/-- The nodes of a level and of all levels below it that are not in `seen`. -/
def newLevels (program : Program) (view : View) :
    Nat → IdSet → List NodeId → Except Fault (List NodeId)
  | 0, _, _ => return []
  | fuel + 1, seen, level => do
    match unseen seen level with
    | ([], _) => return []
    | (fresh, seen) =>
      let below ← fresh.mapM (program.children view)
      return fresh ++ (← program.newLevels view fuel seen below.flatten)

/-- Every node that can be reached from `root` through the children of the view,
`root` included, breadth first.  Each node appears once. -/
def descendants (program : Program) (view : View) (root : NodeId) :
    Except Fault (List NodeId) :=
  program.newLevels view program.levelBound ∅ [root]

end ProgramTree.Program
