import ProgramTree.Edit.Declaring
import ProgramTree.Edit.Duplication

/-!
# GPU variants of loops

The offloaded variant of a loop over a single index is a block that defines a
function and calls it.  Each thread of the function runs one iteration: it adds its
own index to the low bound and runs a copy of the loop's body.  A loop whose body
jumps has no such variant, since the body would no longer run inside its function.
-/

namespace ProgramTree

/-- Builds the offloaded variant of a loop, or declines.  An outliner may keep a
state, and it leaves the loop itself as it is. -/
abbrev LoopOutliner (σ : Type) := NodeId → StateT σ Edit (Option NodeId)

/-- What the default outliner remembers: how many functions it has built. -/
structure GpuLoopBuilder where
  built : Nat := 0
deriving DecidableEq

namespace Program

/-- Returns, jumps and their targets. -/
def isJump (program : Program) (id : NodeId) : Except Fault Bool := do
  match ← program.kindOf id with
  | .stmt (.ret _) | .stmt (.goto _) | .stmt (.label ..) => return true
  | _ => return false

/-- Whether the subtree under `body` holds a jump. -/
def jumps (program : Program) (body : NodeId) : Except Fault Bool := do
  (← program.subtree body).anyM program.isJump

/-- What the GPU variant of a loop is made from. -/
structure LoopParts where
  index : NodeId
  iterators : NodeId
  body : NodeId
deriving DecidableEq

/-- The parts of a loop that has a GPU variant: a loop over one index, which is a
use of a symbol, with a body that does not jump. -/
def loopParts? (program : Program) (loop : NodeId) : Except Fault (Option LoopParts) := do
  match ← program.kindOf loop with
  | .stmt (.forLoop indices iterators body _) =>
    match (← program.elements indices).toList with
    | [use] =>
      match ← program.usedSymbol use with
      | some index =>
        return if ← program.jumps body then none else some { index, iterators, body }
      | none => return none
    | _ => return none
  | _ => return none

end Program

namespace Edit

/-- Where the iterations of a thread start: its own index, on top of the low bound if
there is one. -/
def newStart (low? : Option NodeId) (threadIndex : NodeId) : Edit NodeId := do
  match low? with
  | some low =>
    let low ← duplicate low
    newPrimitiveCall .add [low, threadIndex]
  | none => newUse threadIndex

/-- The statements of the function that runs one iteration of a loop: its thread
index, its own copy of the loop's index, and a copy of the loop's body that uses it. -/
def newIteration (parts : Program.LoopParts) : Edit (List NodeId) := do
  let index ← look (·.symbol parts.index)
  let low? := (← look (·.elements parts.iterators))[0]?
  let threadIndex ← newTemp "c_idx" (some PrimitiveType.int.id)
  let localIndex ← newVar index.name index.type?
  let body ← duplicateWith parts.body ((∅ : Remap).insert parts.index localIndex) [] false
  let defineThreadIndex ← define threadIndex
  let globalId ← newPrimitiveCall .getGlobalId []
  let setThreadIndex ← newPrimitiveCall .move [threadIndex, globalId]
  let start ← newStart low? threadIndex
  let defineLocalIndex ← define localIndex
  let setLocalIndex ← newPrimitiveCall .move [localIndex, start]
  return [defineThreadIndex, setThreadIndex, defineLocalIndex, setLocalIndex, body.duplicate]

/-- A block that defines a function of the given name, which runs one iteration of a
loop on the GPU, and calls it. -/
def newGpuVariant (name : String) (parts : Program.LoopParts) : Edit NodeId := do
  let iteration ← newIteration parts
  let body ← newBlock iteration
  let fn ← newFn name [] body none
  addFlag fn .offloadToGpu
  let definition ← define fn
  let call ← newCall fn []
  newBlock [definition, call]

end Edit

/-- The default outliner.  Its functions are numbered in the order in which they are
built. -/
def GpuLoopBuilder.outline : LoopOutliner GpuLoopBuilder := fun loop builder => do
  match ← Edit.look (·.loopParts? loop) with
  | none => return (none, builder)
  | some parts =>
    let built := builder.built + 1
    let name := "gpu_func_" ++ toString built
    let block ← Edit.withLocationOf loop (Edit.newGpuVariant name parts)
    return (some block, { built })

end ProgramTree
