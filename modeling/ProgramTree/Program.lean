import ProgramTree.Fault
import ProgramTree.Kind
import ProgramTree.Settings

/-!
# Programs

A program is an arena of nodes together with its root modules, an index of the
live nodes that passes like to scan, and what new nodes are stamped with.  Nodes
are never freed: a removed node stays in the arena, detached.
-/

namespace ProgramTree

/-- Where a node hangs in the tree: its nearest enclosing symbol and its nearest
enclosing scope.  Both are absent while the node is not in the tree. -/
structure Context where
  symbol? : Option NodeId := none
  scope? : Option NodeId := none
deriving DecidableEq

/-- What a pass notes on a statement or an expression. -/
structure AnalysisNote where
  pass : String
  note : String
deriving DecidableEq

/-- A single node. -/
structure Node where
  kind : Kind
  location : Location
  pragmas : Array String := #[]
  /-- The node whose slot or list holds this one. -/
  parent? : Option NodeId := none
  context : Context := {}
  analysis? : Option AnalysisNote := none
  /-- The traversal that made this node, when it was not made while parsing. -/
  traversal? : Option String := none
deriving DecidableEq

/-- The live nodes of the categories that passes scan. -/
structure LiveIndex where
  calls : IdSet := ∅
  fns : IdSet := ∅
  loops : IdSet := ∅
  blocks : IdSet := ∅
deriving DecidableEq

namespace LiveIndex

/-- Enters a node under the category of its kind, if it has one. -/
def register (index : LiveIndex) (id : NodeId) : Kind → LiveIndex
  | .expr (.call ..) => { index with calls := index.calls.insert id }
  | .stmt (.forLoop ..) => { index with loops := index.loops.insert id }
  | .stmt (.block ..) => { index with blocks := index.blocks.insert id }
  | .symbol symbol => if symbol.isFn then { index with fns := index.fns.insert id } else index
  | _ => index

/-- Strikes a node from every category. -/
def deregister (index : LiveIndex) (id : NodeId) : LiveIndex where
  calls := index.calls.erase id
  fns := index.fns.erase id
  loops := index.loops.erase id
  blocks := index.blocks.erase id

/-- Every indexed node: calls, functions, loops and blocks, each in order. -/
def toList (index : LiveIndex) : List NodeId :=
  index.calls.toList ++ index.fns.toList ++ index.loops.toList ++ index.blocks.toList

end LiveIndex

/-- A program under transformation. -/
structure Program where
  /-- The node with identity `n + 1` stands at place `n`. -/
  nodes : Array Node
  roots : Array NodeId := #[]
  index : LiveIndex := {}
  settings : Settings := {}
  /-- The position of the parser, while it is producing nodes. -/
  lexerLocation? : Option Location := none
  /-- The location that new nodes are attributed to when no parser is at work. -/
  givenLocation? : Option Location := none
  /-- The traversal that is running. -/
  traversal? : Option String := none
deriving DecidableEq

namespace Program

/-- The identity of the node created next. -/
def nextId (program : Program) : NodeId :=
  ⟨program.nodes.size + 1⟩

def get? (program : Program) (id : NodeId) : Option Node :=
  match id.val with
  | 0 => none
  | place + 1 => program.nodes[place]?

def contains (program : Program) (id : NodeId) : Bool :=
  (program.get? id).isSome

/-- Changes one node.  A node the program does not have is not added. -/
def modifyNode (program : Program) (id : NodeId) (change : Node → Node) : Program :=
  match id.val with
  | 0 => program
  | place + 1 => { program with nodes := program.nodes.modify place change }

/-- The node that is made of `kind` now: it carries the position of the parser, or
else the given location and the name of the running traversal. -/
def stamp (program : Program) (kind : Kind) : Node :=
  match program.lexerLocation? with
  | some location => { kind, location }
  | none =>
    { kind
      location := program.givenLocation?.getD .unknown
      traversal? := program.traversal? }

/-- Adds a free-standing node of the given kind. -/
def push (program : Program) (kind : Kind) : Program :=
  let node := program.stamp kind
  { program with nodes := program.nodes.push node }

theorem get?_nextId (program : Program) : program.get? program.nextId = none := by
  simp [get?, nextId]

theorem get?_push (program : Program) (kind : Kind) (id : NodeId) :
    (program.push kind).get? id =
      if id = program.nextId then some (program.stamp kind) else program.get? id := by
  obtain ⟨_ | place⟩ := id
  · simp [get?, nextId]
  · simp [get?, nextId, push, Array.getElem?_push]

theorem get?_modifyNode (program : Program) (changed id : NodeId) (change : Node → Node) :
    (program.modifyNode changed change).get? id =
      if changed = id then (program.get? id).map change else program.get? id := by
  obtain ⟨_ | changedPlace⟩ := changed <;> obtain ⟨_ | place⟩ := id <;>
    simp [modifyNode, get?, Array.getElem?_modify]

end Program

/-! ## The nodes every program starts with -/

namespace PrimitiveType

/-- The type node of a primitive type, the same in every program. -/
def id : PrimitiveType → NodeId
  | void => ⟨1⟩
  | bool => ⟨3⟩
  | int => ⟨5⟩
  | real => ⟨7⟩
  | string => ⟨9⟩
  | cVoidPtr => ⟨11⟩

/-- The symbol that names and owns the type node. -/
def symbolId (primitive : PrimitiveType) : NodeId :=
  ⟨primitive.id.val + 1⟩

/-- The type node of a primitive type and the symbol that names it. -/
def nodes (primitive : PrimitiveType) : List Node :=
  [{ kind := .type { symbol? := some primitive.symbolId, kind := .primitive primitive }
     location := .builtin
     parent? := some primitive.symbolId },
   { kind := .symbol { name := primitive.name, kind := .type primitive.id }
     location := .builtin }]

end PrimitiveType

/-- The program that holds the primitive types and nothing else. -/
def Program.empty (settings : Settings) : Program where
  nodes := (PrimitiveType.all.flatMap PrimitiveType.nodes).toArray
  settings := settings

end ProgramTree
