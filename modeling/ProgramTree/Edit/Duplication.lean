import ProgramTree.Edit
import ProgramTree.Kind.Links
import ProgramTree.Program.Walk

/-!
# Duplication

Copying a subtree.  A table remembers the duplicate of every node that was copied,
so a node that is reached twice is copied once, and entries put there beforehand
stand for duplicates.  When the outermost copy is done, every link in it is
redirected through the table, so links inside the subtree become links inside the
copy, and links that leave it stay.
-/

namespace ProgramTree.Edit

/-- Gives a duplicate the location, the pragmas and, unless the program is being
analysed, the analysis note of a statement or an expression. -/
def carryOver (source : Node) (duplicate : NodeId) : Edit Unit := do
  let inAnalysis := (← get).settings.inAnalysis
  let noted := !inAnalysis && (source.kind.isStmt || source.kind.isExpr)
  change duplicate fun node =>
    { node with
      location := source.location
      pragmas := source.pragmas
      analysis? := if noted then source.analysis? else none }

/-- Copies a node whose owned children are all in the table, and enters it. -/
def duplicateNode (id : NodeId) (table : Remap) : Edit Remap := do
  let source ← look (·.node id)
  let duplicate ← newNode (source.kind.mapOwned table.apply)
  (← look (·.owned duplicate)).forM (setParent · (some duplicate))
  carryOver source duplicate
  return table.insert id duplicate

/-- Copies the nodes of the subtree under `id` that are not in the table, children
before their holder and from left to right.  The subtree is at most `depth` levels
deep. -/
def duplicateWithin : Nat → Remap → NodeId → Edit Remap
  | 0, _, id => throw (.endless id)
  | depth + 1, table, id => do
    if table.contains id then return table
    let children ← look (·.owned id)
    let table ← children.foldlM (duplicateWithin depth) table
    duplicateNode id table

/-- Redirects every link in the subtree under `root` through the table. -/
def redirectLinks (table : Remap) (root : NodeId) : Edit Unit := do
  let nodes ← look (·.subtree root)
  nodes.forM fun id =>
    change id fun node => { node with kind := node.kind.mapLinks table.apply }

/-- What a step of copying leaves: the duplicate, the table, and the list of nodes
that was to be kept up to date. -/
structure Duplication where
  duplicate : NodeId
  table : Remap
  updated : List NodeId
deriving DecidableEq

/-- Copies the subtree under `id`.  A node that is in the table already is not copied
again.  An inner step leaves the links and the list `updated` to the outermost one,
which redirects both. -/
def duplicateWith (id : NodeId) (table : Remap) (updated : List NodeId) (inner : Bool) :
    Edit Duplication := do
  match table[id]? with
  | some duplicate => return ⟨duplicate, table, updated⟩
  | none =>
    let bound := (← get).levelBound
    let table ← duplicateWithin bound table id
    let duplicate := table.apply id
    if inner then return ⟨duplicate, table, updated⟩
    redirectLinks table duplicate
    return ⟨duplicate, table, updated.map table.apply⟩

/-- Copies the subtree under `id`.  The copy is free-standing. -/
def duplicate (id : NodeId) : Edit NodeId :=
  return (← duplicateWith id ∅ [] false).duplicate

end ProgramTree.Edit
